import GlusterFS.Lib.Machine

/-!
# The timers of a process

One thread calls the functions that are to be called later.  This module embeds
`gf_timer_call_after`, `gf_timer_call_stale`, `gf_timer_call_cancel` and the loop of `gf_timer_proc`
of `timer.c`, with `timespec_adjust_delta` of `timespec.c`.

An event is on the list `active` until its time has come; then the thread moves it to the list
`stale` under `reg->lock`, and calls it **after** it has dropped the lock.  The steps of the machine
are the critical sections, the starts of callbacks and the passing of time, so every interleaving of
the threads is a run, and `log` has what happened in it, the newest first.

`gf_timer_call_cancel` takes an event from the list it is on, whichever it is, and frees it.
Between the move to `stale` and the call this is too late: the thread holds the event and calls it
all the same (`called_after_cancel`).  Apart from that a cancelled event is not called
(`called_in_order_unless_cancelled`).

The time of an event is not always the time of the call plus `delta`: `timespec_adjust_delta` adds
the carry of the nanoseconds that it has already reduced (`ts_adjustDelta_iff`).
-/

namespace GlusterFS.Timer

/-! ## Times -/

/-- `struct timespec`. -/
structure Timespec where
  tvSec : ℕ
  tvNsec : ℕ
  deriving DecidableEq, Repr

/-- `TS`. -/
def ts (t : Timespec) : ℕ := t.tvSec * 1000000000 + t.tvNsec

/-- `timespec_adjust_delta`: the seconds are added after the nanoseconds have changed. -/
def timespecAdjustDelta (t delta : Timespec) : Timespec :=
  let tvNsec := (t.tvNsec + delta.tvNsec) % 1000000000
  { tvNsec
    tvSec := t.tvSec + (tvNsec + delta.tvNsec) / 1000000000 + delta.tvSec }

/-- The time is the sum if and only if the carry is the same before and after the reduction. -/
theorem ts_adjustDelta_iff (t delta : Timespec) :
    ts (timespecAdjustDelta t delta) = ts t + ts delta ↔
      ((t.tvNsec + delta.tvNsec) % 1000000000 + delta.tvNsec) / 1000000000 =
        (t.tvNsec + delta.tvNsec) / 1000000000 := by
  simp only [ts, timespecAdjustDelta]
  omega

/-- `0.9 s` and a delta of `0.2 s` give `0.1 s`. -/
example : ts (timespecAdjustDelta ⟨0, 900000000⟩ ⟨0, 200000000⟩) = 100000000 := by decide

/-! ## The registry -/

/-- `gf_timer_t`: which allocation it is, and the field `at`. -/
structure TimerEvent where
  id : ℕ
  expiry : Timespec
  deriving DecidableEq, Repr

/-- Where the loop of `gf_timer_proc` is: asleep, before a critical section of a scan, or behind one
in which it took an event that it has yet to call. -/
inductive Proc
  | asleep
  | scanning (now : ℕ)
  | taken (now : ℕ) (event : TimerEvent)
  deriving DecidableEq, Repr

/-- What happened. -/
inductive Log
  | callAfter (event : TimerEvent)
  | cancel (event : TimerEvent)
  | stale (event : TimerEvent)
  | callbk (event : TimerEvent) (clock : ℕ)
  deriving DecidableEq, Repr

/-- `gf_timer_registry_t`, with the clock, the thread and the history. -/
structure Registry where
  clock : Timespec
  active : List TimerEvent
  stale : List TimerEvent
  proc : Proc
  allocated : ℕ
  log : List Log
  deriving DecidableEq, Repr

/-- The walk of `gf_timer_call_after` from the last event of the list backwards: the new event
stands behind the first that expires before it. -/
def insertBackwards (event : TimerEvent) : List TimerEvent → List TimerEvent
  | [] => [event]
  | trav :: rest =>
      if ts trav.expiry < ts event.expiry then event :: trav :: rest
      else trav :: insertBackwards event rest

/-- The critical section of `gf_timer_call_after`. -/
def timerCallAfter (r : Registry) (event : TimerEvent) : Registry :=
  { r with
    active := (insertBackwards event r.active.reverse).reverse
    allocated := r.allocated + 1
    log := .callAfter event :: r.log }

/-- `gf_timer_call_cancel`: the event leaves the list that it is on. -/
def timerCallCancel (r : Registry) (event : TimerEvent) : Registry :=
  { r with
    active := r.active.erase event
    stale := r.stale.erase event
    log := .cancel event :: r.log }

/-- The critical section of `gf_timer_proc` with `gf_timer_call_stale`. -/
def timerProcTake (r : Registry) (now : ℕ) : Registry :=
  match r.active with
  | [] => { r with proc := .asleep }
  | event :: rest =>
      if ts event.expiry ≤ now then
        { r with
          active := rest
          stale := r.stale ++ [event]
          proc := .taken now event
          log := .stale event :: r.log }
      else { r with proc := .asleep }

/-- `event->callbk (event->data)`. -/
def timerProcCall (r : Registry) (now : ℕ) (event : TimerEvent) : Registry :=
  { r with
    proc := .scanning now
    log := .callbk event (ts r.clock) :: r.log }

/-- The steps of the threads. -/
inductive Action
  /-- Time passes. -/
  | tick (clock : Timespec)
  /-- `gf_timer_call_after` that read the time `called`. -/
  | callAfter (called delta : Timespec)
  | cancel (event : TimerEvent)
  /-- The thread wakes up and reads the time. -/
  | scan
  | take
  | call
  deriving DecidableEq, Repr

/-- Timers under any threads.  An event can be cancelled once, and until then it is on a list. -/
def timerMachine : Machine Registry Action where
  start r := ∃ clock, r = ⟨clock, [], [], .asleep, 0, []⟩
  step r
    | .tick clock => if ts r.clock ≤ ts clock then some { r with clock } else none
    | .callAfter called delta =>
        if ts called ≤ ts r.clock then
          some (timerCallAfter r ⟨r.allocated, timespecAdjustDelta called delta⟩)
        else none
    | .cancel event =>
        if event ∈ r.active ∨ event ∈ r.stale then some (timerCallCancel r event) else none
    | .scan => if r.proc = .asleep then some { r with proc := .scanning (ts r.clock) } else none
    | .take =>
        match r.proc with
        | .scanning now => some (timerProcTake r now)
        | _ => none
    | .call =>
        match r.proc with
        | .taken now event => some (timerProcCall r now event)
        | _ => none

/-! ## Inserting -/

/-- The list is sorted by expiry. -/
abbrev Sorted (active : List TimerEvent) : Prop :=
  active.Pairwise fun e f => ts e.expiry ≤ ts f.expiry

theorem insertBackwards_perm (event : TimerEvent) (l : List TimerEvent) :
    (insertBackwards event l).Perm (event :: l) := by
  induction l with
  | nil => rfl
  | cons trav rest ih =>
    rw [insertBackwards]
    split
    · rfl
    · exact (ih.cons trav).trans (.swap _ _ _)

theorem insertBackwards_sorted {event : TimerEvent} {l : List TimerEvent}
    (h : l.Pairwise fun e f => ts f.expiry ≤ ts e.expiry) :
    (insertBackwards event l).Pairwise fun e f => ts f.expiry ≤ ts e.expiry := by
  induction l with
  | nil => exact List.pairwise_singleton _ _
  | cons trav rest ih =>
    obtain ⟨htrav, hrest⟩ := List.pairwise_cons.mp h
    rw [insertBackwards]
    split
    next hlt =>
      refine List.pairwise_cons.mpr ⟨fun f hf => ?_, h⟩
      rcases List.mem_cons.mp hf with rfl | hf
      · exact hlt.le
      · exact (htrav f hf).trans hlt.le
    next hge =>
      refine List.pairwise_cons.mpr ⟨fun f hf => ?_, ih hrest⟩
      rcases List.mem_cons.mp ((insertBackwards_perm event rest).mem_iff.mp hf) with rfl | hf
      · exact not_lt.mp hge
      · exact htrav f hf

theorem timerCallAfter_sorted {r : Registry} {event : TimerEvent} (h : Sorted r.active) :
    Sorted (timerCallAfter r event).active := by
  have hback : r.active.reverse.Pairwise fun e f => ts f.expiry ≤ ts e.expiry :=
    List.pairwise_reverse.mpr h
  exact List.pairwise_reverse.mpr (insertBackwards_sorted hback)

theorem mem_timerCallAfter_active {r : Registry} {event f : TimerEvent} :
    f ∈ (timerCallAfter r event).active ↔ f = event ∨ f ∈ r.active := by
  rw [timerCallAfter, List.mem_reverse, (insertBackwards_perm event _).mem_iff, List.mem_cons,
    List.mem_reverse]

/-! ## What holds between the steps -/

/-- The event of an entry of the log. -/
def Log.event : Log → TimerEvent
  | .callAfter event | .cancel event | .stale event | .callbk event _ => event

/-- The log and the lists agree. -/
structure RegistryOk (r : Registry) : Prop where
  sorted : Sorted r.active
  nodup : r.active.Nodup ∧ r.stale.Nodup
  known : ∀ x ∈ r.log, x.event.id < r.allocated
  active : ∀ e ∈ r.active, .callAfter e ∈ r.log ∧ .cancel e ∉ r.log ∧ .stale e ∉ r.log ∧
    ∀ t, .callbk e t ∉ r.log
  stale : ∀ e ∈ r.stale, .stale e ∈ r.log ∧ .cancel e ∉ r.log
  scanning : ∀ now, r.proc = .scanning now → now ≤ ts r.clock
  taken : ∀ now e, r.proc = .taken now e → .stale e ∈ r.log ∧ (∀ t, .callbk e t ∉ r.log) ∧
    ts e.expiry ≤ now ∧ now ≤ ts r.clock

/-- The callbacks in the log: each once, not before its time, and not before one that was there and
expires earlier. -/
structure CallsOk (r : Registry) : Prop where
  called : ∀ e t, .callbk e t ∈ r.log → .stale e ∈ r.log
  once : ∀ e t t', ¬ [.callbk e t, .callbk e t'].Sublist r.log
  due : ∀ e t, .callbk e t ∈ r.log → ts e.expiry ≤ t
  next : ∀ e f, [.stale e, .callAfter f].Sublist r.log →
    f ∈ r.active ∨ (∃ now, r.proc = .taken now f) → ts e.expiry ≤ ts f.expiry
  order : ∀ e f t, [.callbk f t, .stale e, .callAfter f].Sublist r.log →
    ts e.expiry ≤ ts f.expiry

/-- No event that was cancelled was called, or is about to be. -/
structure CancelsOk (r : Registry) : Prop where
  taken : ∀ now e, r.proc = .taken now e → .cancel e ∉ r.log
  late : ∀ e t, ¬ [.callbk e t, .cancel e].Sublist r.log

/-- An event is not cancelled between the critical section that takes it and its call. -/
def CancelOk (r : Registry) : Action → Prop
  | .cancel event => ∀ now, r.proc ≠ .taken now event
  | _ => True

/-! ### A step that writes nothing into the log -/

theorem RegistryOk.setProc {r : Registry} {proc : Proc} (h : RegistryOk r)
    (hscanning : ∀ now, proc = .scanning now → now ≤ ts r.clock)
    (htaken : ∀ now e, proc ≠ .taken now e) : RegistryOk { r with proc } :=
  { h with
    scanning := hscanning
    taken := fun now e hproc => absurd hproc (htaken now e) }

theorem CallsOk.setProc {r : Registry} {proc : Proc} (h : CallsOk r)
    (htaken : ∀ now e, proc ≠ .taken now e) : CallsOk { r with proc } := by
  refine { h with next := fun e f hlog hf => h.next e f hlog (.inl ?_) }
  rcases hf with hf | ⟨now, hproc⟩
  · exact hf
  · exact absurd hproc (htaken now f)

theorem CancelsOk.setProc {r : Registry} {proc : Proc} (h : CancelsOk r)
    (htaken : ∀ now e, proc ≠ .taken now e) : CancelsOk { r with proc } :=
  { h with taken := fun now e hproc => absurd hproc (htaken now e) }

theorem RegistryOk.tick {r : Registry} {clock : Timespec} (h : RegistryOk r)
    (hclock : ts r.clock ≤ ts clock) : RegistryOk { r with clock } :=
  { h with
    scanning := fun now hproc => (h.scanning now hproc).trans hclock
    taken := fun now e hproc =>
      have ht := h.taken now e hproc
      ⟨ht.1, ht.2.1, ht.2.2.1, ht.2.2.2.trans hclock⟩ }

/-! ### `gf_timer_call_after` -/

/-- The new event is not in the log. -/
theorem RegistryOk.new {r : Registry} {event : TimerEvent} (h : RegistryOk r)
    (hid : event.id = r.allocated) {x : Log} (hx : x.event = event) : x ∉ r.log := by
  intro hmem
  have := h.known x hmem
  rw [hx, hid] at this
  exact absurd this (Nat.lt_irrefl _)

theorem RegistryOk.callAfter {r : Registry} {event : TimerEvent} (h : RegistryOk r)
    (hid : event.id = r.allocated) : RegistryOk (timerCallAfter r event) where
  sorted := timerCallAfter_sorted h.sorted
  nodup := by
    refine ⟨?_, h.nodup.2⟩
    have hnew : event ∉ r.active.reverse := fun hmem =>
      h.new hid rfl (h.active event (List.mem_reverse.mp hmem)).1
    rw [timerCallAfter, List.nodup_reverse, (insertBackwards_perm event _).nodup_iff]
    exact List.nodup_cons.mpr ⟨hnew, List.nodup_reverse.mpr h.nodup.1⟩
  known x hx := by
    rcases List.mem_cons.mp hx with rfl | hx
    · exact hid.trans_lt (Nat.lt_succ_self _)
    · exact (h.known x hx).trans (Nat.lt_succ_self _)
  active e he := by
    rcases mem_timerCallAfter_active.mp he with rfl | he
    · simp [timerCallAfter, h.new hid (x := .cancel e) rfl, h.new hid (x := .stale e) rfl,
        fun t => h.new hid (x := .callbk e t) rfl]
    · simpa [timerCallAfter] using ⟨.inr (h.active e he).1, (h.active e he).2⟩
  stale e he := by simpa [timerCallAfter] using h.stale e he
  scanning := h.scanning
  taken now e hproc := by simpa [timerCallAfter] using h.taken now e hproc

theorem CallsOk.callAfter {r : Registry} {event : TimerEvent} (h : CallsOk r) (hr : RegistryOk r)
    (hid : event.id = r.allocated) : CallsOk (timerCallAfter r event) where
  called e t hmem := by
    simpa [timerCallAfter] using h.called e t (by simpa [timerCallAfter] using hmem)
  once e t t' := by simpa [timerCallAfter, List.cons_sublist_cons'] using h.once e t t'
  due e t hmem := h.due e t (by simpa [timerCallAfter] using hmem)
  next e f hlog hf := by
    have hold : [Log.stale e, .callAfter f].Sublist r.log := by
      simpa [timerCallAfter, List.cons_sublist_cons'] using hlog
    refine h.next e f hold ?_
    rcases hf with hf | hf
    · rcases mem_timerCallAfter_active.mp hf with rfl | hf
      · exact absurd (hold.subset (by simp : Log.callAfter f ∈ _)) (hr.new hid rfl)
      · exact .inl hf
    · exact .inr hf
  order e f t hlog := h.order e f t (by simpa [timerCallAfter, List.cons_sublist_cons'] using hlog)

theorem CancelsOk.callAfter {r : Registry} {event : TimerEvent} (h : CancelsOk r) :
    CancelsOk (timerCallAfter r event) where
  taken now e hproc := by simpa [timerCallAfter] using h.taken now e hproc
  late e t := by simpa [timerCallAfter, List.cons_sublist_cons'] using h.late e t

/-! ### `gf_timer_call_cancel` -/

theorem RegistryOk.cancel {r : Registry} {event : TimerEvent} (h : RegistryOk r)
    (hmem : event ∈ r.active ∨ event ∈ r.stale) : RegistryOk (timerCallCancel r event) where
  sorted := h.sorted.sublist List.erase_sublist
  nodup := ⟨h.nodup.1.erase _, h.nodup.2.erase _⟩
  known x hx := by
    rcases List.mem_cons.mp hx with rfl | hx
    · rcases hmem with hmem | hmem
      · exact h.known (.callAfter event) (h.active event hmem).1
      · exact h.known (.stale event) (h.stale event hmem).1
    · exact h.known x hx
  active e he := by
    obtain ⟨hne, he⟩ := h.nodup.1.mem_erase_iff.mp he
    simpa [timerCallCancel, hne] using h.active e he
  stale e he := by
    obtain ⟨hne, he⟩ := h.nodup.2.mem_erase_iff.mp he
    simpa [timerCallCancel, hne] using h.stale e he
  scanning := h.scanning
  taken now e hproc := by simpa [timerCallCancel] using h.taken now e hproc

theorem CallsOk.cancel {r : Registry} {event : TimerEvent} (h : CallsOk r) :
    CallsOk (timerCallCancel r event) where
  called e t hmem := by
    simpa [timerCallCancel] using h.called e t (by simpa [timerCallCancel] using hmem)
  once e t t' := by simpa [timerCallCancel, List.cons_sublist_cons'] using h.once e t t'
  due e t hmem := h.due e t (by simpa [timerCallCancel] using hmem)
  next e f hlog hf := by
    refine h.next e f (by simpa [timerCallCancel, List.cons_sublist_cons'] using hlog) ?_
    exact hf.imp_left List.mem_of_mem_erase
  order e f t hlog := h.order e f t (by simpa [timerCallCancel, List.cons_sublist_cons'] using hlog)

theorem CancelsOk.cancel {r : Registry} {event : TimerEvent} (h : CancelsOk r)
    (hok : CancelOk r (.cancel event)) : CancelsOk (timerCallCancel r event) where
  taken now e hproc := by
    have hne : e ≠ event := by
      rintro rfl
      exact hok now hproc
    simpa [timerCallCancel, hne] using h.taken now e hproc
  late e t := by simpa [timerCallCancel, List.cons_sublist_cons'] using h.late e t

/-! ### The thread -/

/-- The registry after the first event was taken. -/
abbrev takeEvent (r : Registry) (now : ℕ) (event : TimerEvent) (rest : List TimerEvent) :
    Registry :=
  { r with
    active := rest
    stale := r.stale ++ [event]
    proc := .taken now event
    log := .stale event :: r.log }

theorem timerProcTake_cases (r : Registry) (now : ℕ) :
    timerProcTake r now = { r with proc := .asleep } ∨
      ∃ event rest, r.active = event :: rest ∧ ts event.expiry ≤ now ∧
        timerProcTake r now = takeEvent r now event rest := by
  rw [timerProcTake]
  split
  next => exact .inl rfl
  next event rest hactive =>
    split
    next hdue => exact .inr ⟨event, rest, hactive, hdue, rfl⟩
    next => exact .inl rfl

theorem RegistryOk.take {r : Registry} {now : ℕ} {event : TimerEvent} {rest : List TimerEvent}
    (h : RegistryOk r) (hproc : r.proc = .scanning now) (hactive : r.active = event :: rest)
    (hdue : ts event.expiry ≤ now) : RegistryOk (takeEvent r now event rest) where
  sorted := (List.pairwise_cons.mp (hactive ▸ h.sorted)).2
  nodup := by
    refine ⟨(List.nodup_cons.mp (hactive ▸ h.nodup.1)).2, ?_⟩
    have hnot : event ∉ r.stale := fun hmem =>
      (h.active event (hactive ▸ List.mem_cons_self)).2.2.1 (h.stale event hmem).1
    exact List.nodup_append.mpr ⟨h.nodup.2, List.nodup_singleton _, by
      rintro e he f hf rfl
      exact hnot (List.mem_singleton.mp hf ▸ he)⟩
  known x hx := by
    rcases List.mem_cons.mp hx with rfl | hx
    · exact h.known (.callAfter event) (h.active event (hactive ▸ List.mem_cons_self)).1
    · exact h.known x hx
  active e he := by
    have hne : e ≠ event := by
      rintro rfl
      exact (List.nodup_cons.mp (hactive ▸ h.nodup.1)).1 he
    simpa [hne] using h.active e (hactive ▸ List.mem_cons_of_mem _ he)
  stale e he := by
    rcases List.mem_append.mp he with he | he
    · simpa using ⟨.inr (h.stale e he).1, (h.stale e he).2⟩
    · obtain rfl := List.mem_singleton.mp he
      simpa using (h.active e (hactive ▸ List.mem_cons_self)).2.1
  scanning now' hproc' := by cases hproc'
  taken now' e hproc' := by
    obtain ⟨rfl, rfl⟩ := Proc.taken.inj hproc'
    have hfirst := h.active event (hactive ▸ List.mem_cons_self)
    simpa using ⟨hfirst.2.2.2, hdue, h.scanning now hproc⟩

theorem CallsOk.take {r : Registry} {now : ℕ} {event : TimerEvent} {rest : List TimerEvent}
    (h : CallsOk r) (hr : RegistryOk r) (hactive : r.active = event :: rest) :
    CallsOk (takeEvent r now event rest) where
  called e t hmem := List.mem_cons_of_mem _ (h.called e t (by simpa using hmem))
  once e t t' := by simpa [List.cons_sublist_cons'] using h.once e t t'
  due e t hmem := h.due e t (by simpa using hmem)
  next e f hlog hf := by
    have hmem : f ∈ r.active := by
      rcases hf with hf | ⟨now', hproc⟩
      · exact hactive ▸ List.mem_cons_of_mem _ hf
      · obtain ⟨-, rfl⟩ := Proc.taken.inj hproc
        exact hactive ▸ List.mem_cons_self
    rw [List.cons_sublist_cons'] at hlog
    rcases hlog with hlog | ⟨heq, -⟩
    · exact h.next e f hlog (.inl hmem)
    · -- the event that is taken is the first of the sorted list
      obtain rfl := Log.stale.inj heq
      rw [hactive] at hmem
      rcases List.mem_cons.mp hmem with rfl | hmem
      · exact le_rfl
      · exact (List.pairwise_cons.mp (hactive ▸ hr.sorted)).1 f hmem
  order e f t hlog := h.order e f t (by simpa [List.cons_sublist_cons'] using hlog)

theorem CancelsOk.take {r : Registry} {now : ℕ} {event : TimerEvent} {rest : List TimerEvent}
    (h : CancelsOk r) (hr : RegistryOk r) (hactive : r.active = event :: rest) :
    CancelsOk (takeEvent r now event rest) where
  taken now' e hproc := by
    obtain ⟨-, rfl⟩ := Proc.taken.inj hproc
    simpa using (hr.active event (hactive ▸ List.mem_cons_self)).2.1
  late e t := by simpa [List.cons_sublist_cons'] using h.late e t

theorem RegistryOk.call {r : Registry} {now : ℕ} {event : TimerEvent} (h : RegistryOk r)
    (hproc : r.proc = .taken now event) : RegistryOk (timerProcCall r now event) where
  sorted := h.sorted
  nodup := h.nodup
  known x hx := by
    rcases List.mem_cons.mp hx with rfl | hx
    · exact h.known (.stale event) (h.taken now event hproc).1
    · exact h.known x hx
  active e he := by
    have hne : e ≠ event := by
      rintro rfl
      exact (h.active e he).2.2.1 (h.taken now e hproc).1
    simpa [timerProcCall, hne] using h.active e he
  stale e he := by simpa [timerProcCall] using h.stale e he
  scanning now' hproc' := by
    obtain rfl := Proc.scanning.inj hproc'
    exact (h.taken now event hproc).2.2.2
  taken now' e hproc' := by cases hproc'

theorem CallsOk.call {r : Registry} {now : ℕ} {event : TimerEvent} (h : CallsOk r)
    (hr : RegistryOk r) (hproc : r.proc = .taken now event) :
    CallsOk (timerProcCall r now event) where
  called e t hmem := by
    rcases List.mem_cons.mp hmem with heq | hmem
    · obtain ⟨rfl, -⟩ := Log.callbk.inj heq
      exact List.mem_cons_of_mem _ (hr.taken now e hproc).1
    · exact List.mem_cons_of_mem _ (h.called e t hmem)
  once e t t' hlog := by
    rcases List.cons_sublist_cons'.mp hlog with hold | ⟨heq, hold⟩
    · exact h.once e t t' hold
    · obtain ⟨rfl, -⟩ := Log.callbk.inj heq
      exact (hr.taken now e hproc).2.1 t' (List.singleton_sublist.mp hold)
  due e t hmem := by
    rcases List.mem_cons.mp hmem with heq | hmem
    · obtain ⟨rfl, rfl⟩ := Log.callbk.inj heq
      exact (hr.taken now e hproc).2.2.1.trans (hr.taken now e hproc).2.2.2
    · exact h.due e t hmem
  next e f hlog hf := by
    refine h.next e f (by simpa [timerProcCall, List.cons_sublist_cons'] using hlog) (.inl ?_)
    rcases hf with hf | ⟨now', hproc'⟩
    · exact hf
    · cases hproc'
  order e f t hlog := by
    rcases List.cons_sublist_cons'.mp hlog with hold | ⟨heq, hold⟩
    · exact h.order e f t hold
    · obtain ⟨rfl, -⟩ := Log.callbk.inj heq
      exact h.next e f hold (.inr ⟨now, hproc⟩)

theorem CancelsOk.call {r : Registry} {now : ℕ} {event : TimerEvent} (h : CancelsOk r)
    (hproc : r.proc = .taken now event) : CancelsOk (timerProcCall r now event) where
  taken now' e hproc' := by cases hproc'
  late e t hlog := by
    rcases List.cons_sublist_cons'.mp hlog with hold | ⟨heq, hold⟩
    · exact h.late e t hold
    · obtain ⟨rfl, -⟩ := Log.callbk.inj heq
      exact h.taken now e hproc (List.singleton_sublist.mp hold)

/-! ## Every run -/

theorem registryOk_step {r r' : Registry} {a : Action} (h : RegistryOk r ∧ CallsOk r)
    (hstep : timerMachine.step r a = some r') : RegistryOk r' ∧ CallsOk r' := by
  obtain ⟨hr, hc⟩ := h
  cases a with
  | tick clock =>
    obtain ⟨hclock, heq⟩ := Option.ite_none_right_eq_some.mp hstep
    obtain rfl := Option.some.inj heq
    exact ⟨hr.tick hclock, { hc with }⟩
  | callAfter called delta =>
    obtain ⟨-, heq⟩ := Option.ite_none_right_eq_some.mp hstep
    obtain rfl := Option.some.inj heq
    exact ⟨hr.callAfter rfl, hc.callAfter hr rfl⟩
  | cancel event =>
    obtain ⟨hmem, heq⟩ := Option.ite_none_right_eq_some.mp hstep
    obtain rfl := Option.some.inj heq
    exact ⟨hr.cancel hmem, hc.cancel⟩
  | scan =>
    obtain ⟨-, heq⟩ := Option.ite_none_right_eq_some.mp hstep
    obtain rfl := Option.some.inj heq
    refine ⟨hr.setProc (fun now hproc => ?_) (by simp), hc.setProc (by simp)⟩
    exact (Proc.scanning.inj hproc).symm.le
  | take =>
    simp only [timerMachine] at hstep
    split at hstep
    next now hproc =>
      obtain rfl := Option.some.inj hstep
      rcases timerProcTake_cases r now with hnone | ⟨event, rest, hactive, hdue, htake⟩
      · rw [hnone]
        exact ⟨hr.setProc (by simp) (by simp), hc.setProc (by simp)⟩
      · rw [htake]
        exact ⟨hr.take hproc hactive hdue, hc.take hr hactive⟩
    next => cases hstep
  | call =>
    simp only [timerMachine] at hstep
    split at hstep
    next now event hproc =>
      obtain rfl := Option.some.inj hstep
      exact ⟨hr.call hproc, hc.call hr hproc⟩
    next => cases hstep

theorem cancelsOk_step {r r' : Registry} {a : Action} (hr : RegistryOk r) (h : CancelsOk r)
    (hok : CancelOk r a) (hstep : timerMachine.step r a = some r') : CancelsOk r' := by
  cases a with
  | tick clock =>
    obtain ⟨-, heq⟩ := Option.ite_none_right_eq_some.mp hstep
    obtain rfl := Option.some.inj heq
    exact { h with }
  | callAfter called delta =>
    obtain ⟨-, heq⟩ := Option.ite_none_right_eq_some.mp hstep
    obtain rfl := Option.some.inj heq
    exact h.callAfter
  | cancel event =>
    obtain ⟨-, heq⟩ := Option.ite_none_right_eq_some.mp hstep
    obtain rfl := Option.some.inj heq
    exact h.cancel hok
  | scan =>
    obtain ⟨-, heq⟩ := Option.ite_none_right_eq_some.mp hstep
    obtain rfl := Option.some.inj heq
    exact h.setProc (by simp)
  | take =>
    simp only [timerMachine] at hstep
    split at hstep
    next now hproc =>
      obtain rfl := Option.some.inj hstep
      rcases timerProcTake_cases r now with hnone | ⟨event, rest, hactive, -, htake⟩
      · rw [hnone]
        exact h.setProc (by simp)
      · rw [htake]
        exact h.take hr hactive
    next => cases hstep
  | call =>
    simp only [timerMachine] at hstep
    split at hstep
    next now event hproc =>
      obtain rfl := Option.some.inj hstep
      exact h.call hproc
    next => cases hstep

theorem registryOk_of_reachable {r : Registry} (h : timerMachine.Reachable r) :
    RegistryOk r ∧ CallsOk r := by
  refine h.invariant (fun r => RegistryOk r ∧ CallsOk r) ?_ fun r a r' hr => registryOk_step hr
  rintro r ⟨clock, rfl⟩
  refine ⟨⟨List.Pairwise.nil, ⟨List.nodup_nil, List.nodup_nil⟩, ?_, ?_, ?_, ?_, ?_⟩,
    ⟨?_, ?_, ?_, ?_, ?_⟩⟩ <;> simp

theorem cancelsOk_of_reachable {r : Registry} (h : timerMachine.ReachableWhen CancelOk r) :
    CancelsOk r := by
  induction h with
  | start hstart =>
    obtain ⟨clock, rfl⟩ := hstart
    exact ⟨by simp, by simp⟩
  | next hreach hok hstep ih =>
    exact cancelsOk_step (registryOk_of_reachable hreach.reachable).1 ih hok hstep

/-- **The timers are called in order, once and not early**, in every run; and not after they were
cancelled, if no event is cancelled between the critical section that takes it and its call.

`log` has the newest first.  If `f` was there when `e` was taken, and was called later, then it does
not expire earlier. -/
theorem called_in_order_unless_cancelled {r : Registry} (h : timerMachine.Reachable r) :
    Sorted r.active ∧
    (∀ e t t', ¬ [.callbk e t, .callbk e t'].Sublist r.log) ∧
    (∀ e t, .callbk e t ∈ r.log → ts e.expiry ≤ t) ∧
    (∀ e f t, [.callbk f t, .stale e, .callAfter f].Sublist r.log →
      ts e.expiry ≤ ts f.expiry) ∧
    (timerMachine.ReachableWhen CancelOk r → ∀ e t, ¬ [.callbk e t, .cancel e].Sublist r.log) := by
  obtain ⟨hr, hc⟩ := registryOk_of_reachable h
  exact ⟨hr.sorted, hc.once, hc.due, hc.order, fun hwhen => (cancelsOk_of_reachable hwhen).late⟩

/-- The steps of a run with two events: the second is cancelled in time, and the first is called. -/
def twoEvents : List Action :=
  [.callAfter ⟨0, 0⟩ ⟨1, 0⟩, .callAfter ⟨0, 0⟩ ⟨2, 0⟩, .cancel ⟨1, ⟨2, 0⟩⟩, .tick ⟨5, 0⟩, .scan,
    .take, .call, .take]

theorem called_in_order_twoEvents :
    ∃ r, timerMachine.exec ⟨⟨0, 0⟩, [], [], .asleep, 0, []⟩ twoEvents = some r ∧
      .callbk ⟨0, ⟨1, 0⟩⟩ 5000000000 ∈ r.log ∧ .cancel ⟨1, ⟨2, 0⟩⟩ ∈ r.log ∧ Sorted r.active ∧
      ∀ e t, ¬ [.callbk e t, .cancel e].Sublist r.log := by
  have hcall : timerMachine.ReachableWhen CancelOk _ :=
    .exec (.start ⟨⟨0, 0⟩, rfl⟩) (twoEvents.take 2) (by simp [twoEvents, CancelOk]) rfl
  have hcancel := hcall.next (a := .cancel ⟨1, ⟨2, 0⟩⟩) (fun now => by simp [timerCallAfter]) rfl
  have hrest := hcancel.exec (twoEvents.drop 3) (by simp [twoEvents, CancelOk]) rfl
  have hall := called_in_order_unless_cancelled hrest.reachable
  exact ⟨_, rfl, by decide, by decide, hall.1, hall.2.2.2.2 hrest⟩

/-- **An event is called after it was cancelled**: the cancel comes between the critical section
that takes the event and its call. -/
theorem called_after_cancel :
    ∃ r, timerMachine.Reachable r ∧
      [.callbk ⟨0, ⟨0, 0⟩⟩ 0, .cancel ⟨0, ⟨0, 0⟩⟩].Sublist r.log := by
  have hreach : timerMachine.Reachable _ :=
    .exec (.start ⟨⟨0, 0⟩, rfl⟩)
      [.callAfter ⟨0, 0⟩ ⟨0, 0⟩, .scan, .take, .cancel ⟨0, ⟨0, 0⟩⟩, .call] rfl
  exact ⟨_, hreach, by decide⟩

end GlusterFS.Timer
