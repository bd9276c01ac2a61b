import GlusterFS.Lib.Machine

/-!
# Draining file operations before a rollover

Every file operation that will write a record is **coloured** and counted before it is sent to the
child, and counted down when its `changelog_update` is over.  The rollover thread flips the colour
and waits until the operations of the old colour are drained; then it rolls the changelog over.

Three locks are involved.  A colour is assigned and counted under `priv->lock`, and the colour is
flipped under it; the two counters have a mutex each, with a condition variable on which the
rollover thread sleeps.  It is signalled only if `drain_wait_*` is set.  A step of the machine is
one critical section, or the part of `changelog_color_fop_and_inc_cnt` that lies within one of them.

`drained_before_rollover` says for all runs of file operations and rollovers that

* the counters are the numbers of the operations in flight;
* when a drain is over, all operations that were coloured before the flip have been counted down,
  and their records stand before the rollover event in the journal;
* the rollover thread does not sleep while its counter is `0`.

What holds it together is that nothing is coloured but not counted when the colour is flipped
(`Ordered.fresh`), which `priv->lock` gives.  `reconfigure` cancels the rollover thread, also in a
drain.  The next rollover then waits for the other colour only, and overtakes the operations of the
drain that was cancelled (`drain_cancelled`).
-/

namespace GlusterFS.Changelog.Color

/-! ## The model -/

/-- `chlog_fop_color_t`. -/
inductive FopColor where
  | black
  | white
  deriving DecidableEq

def FopColor.other : FopColor → FopColor
  | .black => .white
  | .white => .black

/-- `local->color`, and how often the colour had been flipped when it was assigned. -/
structure Mark where
  color : FopColor
  flip : ℕ
  deriving DecidableEq

/-- Where a file operation is. -/
inductive FopPc where
  | idle
  /-- in `changelog_color_fop_and_inc_cnt`, with `priv->lock` -/
  | locked
  /-- `local->color` has been assigned -/
  | coloured (m : Mark)
  /-- `changelog_inc_fop_cnt` has returned -/
  | counted (m : Mark)
  /-- with the child -/
  | wound (m : Mark)
  /-- before `changelog_dec_fop_cnt` -/
  | updated (m : Mark)
  | done
  deriving DecidableEq

/-- Where the rollover thread is. -/
inductive RolloverPc where
  | select
  /-- before the flip -/
  | flip
  /-- in the drain of a colour, with its mutex -/
  | drain (c : FopColor)
  /-- in `pthread_cond_wait` -/
  | asleep (c : FopColor)
  /-- behind the drain -/
  | passed
  deriving DecidableEq

/-- What is dispatched into the changelog. -/
inductive Event where
  | record (fop : ℕ) (m : Mark)
  /-- the rollover event of the iteration with this flip -/
  | rollover (flip : ℕ)
  deriving DecidableEq

/-- `changelog_priv_t`, the threads, and what has been dispatched, the newest first. -/
structure State where
  currentColor : FopColor
  /-- the operation that holds `priv->lock` -/
  lock : Option ℕ
  fopCnt : FopColor → ℕ
  drainWait : FopColor → Bool
  fops : ℕ → FopPc
  rollover : RolloverPc
  flips : ℕ
  journal : List Event

def State.setFop (s : State) (i : ℕ) (pc : FopPc) : State :=
  { s with fops := Function.update s.fops i pc }

/-- `changelog_inc_fop_cnt`. -/
def changelogIncFopCnt (s : State) (c : FopColor) : State :=
  { s with fopCnt := Function.update s.fopCnt c (s.fopCnt c + 1) }

/-- `pthread_cond_signal`. -/
def condSignal (s : State) (c : FopColor) : State :=
  if s.rollover = .asleep c then { s with rollover := .drain c } else s

/-- `changelog_dec_fop_cnt`. -/
def changelogDecFopCnt (s : State) (c : FopColor) : State :=
  let cnt := s.fopCnt c - 1
  let s := { s with fopCnt := Function.update s.fopCnt c cnt }
  if cnt = 0 ∧ s.drainWait c = true then condSignal s c else s

/-- A round of the loop of a drain. -/
def drainFops (c : FopColor) (s : State) : State :=
  if 0 < s.fopCnt c then
    { s with drainWait := Function.update s.drainWait c true, rollover := .asleep c }
  else { s with drainWait := Function.update s.drainWait c false, rollover := .passed }

def changelogDrainBlackFops : State → State := drainFops .black

def changelogDrainWhiteFops : State → State := drainFops .white

inductive Action where
  /-- `LOCK (&priv->lock)` of a new operation -/
  | lock (i : ℕ)
  | colour (i : ℕ)
  | count (i : ℕ)
  /-- `UNLOCK (&priv->lock)`, and the operation is wound -/
  | wind (i : ℕ)
  /-- the child answers, and `changelog_update` is called if it has not failed -/
  | answer (i : ℕ) (success : Bool)
  | decrement (i : ℕ)
  /-- `select` returns -/
  | wake
  | flip
  | drain
  /-- `pthread_cond_wait` returns without a signal -/
  | spurious
  /-- `changelog_fill_rollover_data` fails -/
  | giveUp
  /-- `changelog_inject_single_event` -/
  | inject
  /-- `reconfigure` ends the thread, rolls over and starts another one -/
  | reconfigure
  deriving DecidableEq

/-- A critical section of a file operation. -/
def fopStep (s : State) (i : ℕ) : Action → Option State
  | .lock _ =>
      if s.fops i = .idle ∧ s.lock = none then some { s.setFop i .locked with lock := some i }
      else none
  | .colour _ =>
      match s.fops i with
      | .locked => some (s.setFop i (.coloured ⟨s.currentColor, s.flips⟩))
      | _ => none
  | .count _ =>
      match s.fops i with
      | .coloured m => some ((changelogIncFopCnt s m.color).setFop i (.counted m))
      | _ => none
  | .wind _ =>
      match s.fops i with
      | .counted m => some { s.setFop i (.wound m) with lock := none }
      | _ => none
  | .answer _ success =>
      match s.fops i with
      | .wound m =>
          some { s.setFop i (.updated m) with
            journal := if success then .record i m :: s.journal else s.journal }
      | _ => none
  | .decrement _ =>
      match s.fops i with
      | .updated m => some ((changelogDecFopCnt s m.color).setFop i .done)
      | _ => none
  | _ => none

/-- `changelog_rollover`. -/
def rolloverStep (s : State) : Action → Option State
  | .wake => if s.rollover = .select then some { s with rollover := .flip } else none
  | .flip =>
      if s.rollover = .flip ∧ s.lock = none then
        some { s with
          currentColor := s.currentColor.other
          flips := s.flips + 1
          rollover := .drain s.currentColor }
      else none
  | .drain =>
      match s.rollover with
      | .drain .black => some (changelogDrainBlackFops s)
      | .drain .white => some (changelogDrainWhiteFops s)
      | _ => none
  | .spurious =>
      match s.rollover with
      | .asleep c => some { s with rollover := .drain c }
      | _ => none
  | .giveUp => if s.rollover = .passed then some { s with rollover := .select } else none
  | .inject =>
      if s.rollover = .passed ∧ s.lock = none then
        some { s with rollover := .select, journal := .rollover s.flips :: s.journal }
      else none
  | .reconfigure =>
      if s.lock = none then
        some { s with rollover := .select, journal := .rollover s.flips :: s.journal }
      else none
  | _ => none

/-- One step; the file operations are those of a finite set. -/
def step (S : Finset ℕ) (s : State) (a : Action) : Option State :=
  match a with
  | .lock i | .colour i | .count i | .wind i | .answer i _ | .decrement i =>
      if i ∈ S then fopStep s i a else none
  | _ => rolloverStep s a

/-- `init`. -/
def initial : State :=
  ⟨.black, none, fun _ => 0, fun _ => false, fun _ => .idle, .select, 0, []⟩

def changelog (S : Finset ℕ) : Machine State Action where
  start s := s = initial
  step := step S

/-- The mark of an operation that has one and is not done. -/
def FopPc.mark : FopPc → Option Mark
  | .coloured m | .counted m | .wound m | .updated m => some m
  | .idle | .locked | .done => none

/-- In flight, with a colour: counted and not counted down. -/
def FopPc.inFlight (c : FopColor) : FopPc → Bool
  | .counted m | .wound m | .updated m => m.color = c
  | .idle | .locked | .coloured _ | .done => false

/-- The number of the operations of a colour that are in flight. -/
def inFlightCount (S : Finset ℕ) (s : State) (c : FopColor) : ℕ :=
  tally S (fun pc => pc.inFlight c = true) s.fops

/-! ## The counters -/

/-- What holds in all runs. -/
structure Counted (S : Finset ℕ) (s : State) : Prop where
  count : ∀ c, s.fopCnt c = inFlightCount S s c
  outside : ∀ i ∉ S, s.fops i = .idle
  asleep : ∀ c, s.rollover = .asleep c → s.drainWait c = true ∧ 0 < s.fopCnt c

variable {S : Finset ℕ} {s s' : State} {i : ℕ}

theorem counted_initial : Counted S initial := by
  refine ⟨fun c => ?_, fun _ _ => rfl, fun c h => by cases h⟩
  exact (tally_eq_zero fun _ _ h => by cases h).symm

/-- One operation moves; the number of a colour follows it. -/
theorem Counted.count_update (h : Counted S s) (hi : i ∈ S) {p : FopPc}
    (hfops : s'.fops = Function.update s.fops i p) (c : FopColor) :
    inFlightCount S s' c + (if (s.fops i).inFlight c = true then 1 else 0)
      = s.fopCnt c + (if p.inFlight c = true then 1 else 0) := by
  rw [h.count c, inFlightCount, hfops]
  exact tally_update s.fops hi p

theorem Counted.outside_update (h : Counted S s) (hi : i ∈ S) {p : FopPc}
    (hfops : s'.fops = Function.update s.fops i p) {j : ℕ} (hj : j ∉ S) : s'.fops j = .idle := by
  have hji : j ≠ i := by
    rintro rfl
    exact hj hi
  rw [hfops, Function.update_of_ne hji]
  exact h.outside j hj

/-- An operation moves and stays in flight, or stays out of it. -/
theorem Counted.move (h : Counted S s) (hi : i ∈ S) {p : FopPc}
    (hsame : ∀ c, (s.fops i).inFlight c = p.inFlight c)
    (hfops : s'.fops = Function.update s.fops i p) (hcnt : s'.fopCnt = s.fopCnt)
    (hwait : s'.drainWait = s.drainWait) (hpc : s'.rollover = s.rollover) : Counted S s' := by
  refine ⟨fun c => ?_, fun j hj => h.outside_update hi hfops hj, fun c hc => ?_⟩
  · have hcount := h.count_update hi hfops c
    rw [hsame c] at hcount
    rw [hcnt]
    omega
  · rw [hpc] at hc
    rw [hwait, hcnt]
    exact h.asleep c hc

theorem Counted.increment (h : Counted S s) (hi : i ∈ S) {m : Mark}
    (hpc : s.fops i = .coloured m) :
    Counted S ((changelogIncFopCnt s m.color).setFop i (.counted m)) := by
  set s' := (changelogIncFopCnt s m.color).setFop i (.counted m)
  have hfops : s'.fops = Function.update s.fops i (.counted m) := rfl
  have hcnt : ∀ c, s'.fopCnt c = s.fopCnt c + (if m.color = c then 1 else 0) := by
    intro c
    change Function.update s.fopCnt m.color (s.fopCnt m.color + 1) c = _
    by_cases hc : m.color = c
    · rw [← hc, Function.update_self, if_pos rfl]
    · rw [Function.update_of_ne (Ne.symm hc), if_neg hc, Nat.add_zero]
  refine ⟨fun c => ?_, fun j hj => h.outside_update hi hfops hj, fun c hc => ?_⟩
  · have hcount := h.count_update hi hfops c
    rw [hpc] at hcount
    simp only [FopPc.inFlight, Bool.false_eq_true, if_false, decide_eq_true_eq] at hcount
    rw [hcnt c]
    omega
  · obtain ⟨hwait, hpos⟩ := h.asleep c hc
    refine ⟨hwait, ?_⟩
    rw [hcnt c]
    omega

theorem changelogDecFopCnt_fopCnt (s : State) (c : FopColor) :
    (changelogDecFopCnt s c).fopCnt = Function.update s.fopCnt c (s.fopCnt c - 1) := by
  simp only [changelogDecFopCnt, condSignal]
  split_ifs <;> rfl

theorem changelogDecFopCnt_drainWait (s : State) (c : FopColor) :
    (changelogDecFopCnt s c).drainWait = s.drainWait := by
  simp only [changelogDecFopCnt, condSignal]
  split_ifs <;> rfl

/-- The thread sleeps on only if there is something left. -/
theorem asleep_of_decrement {c c' : FopColor}
    (hwait : s.rollover = .asleep c → s.drainWait c = true)
    (h : (changelogDecFopCnt s c).rollover = .asleep c') :
    s.rollover = .asleep c' ∧ (c' = c → s.fopCnt c - 1 ≠ 0) := by
  simp only [changelogDecFopCnt, condSignal] at h
  by_cases hzero : s.fopCnt c - 1 = 0 ∧ s.drainWait c = true
  · rw [if_pos hzero] at h
    by_cases hasleep : s.rollover = .asleep c
    · rw [if_pos hasleep] at h
      cases h
    · rw [if_neg hasleep] at h
      refine ⟨h, fun hc => ?_⟩
      rw [hc] at h
      exact absurd h hasleep
  · rw [if_neg hzero] at h
    refine ⟨h, fun hc hcnt => hzero ⟨hcnt, ?_⟩⟩
    rw [hc] at h
    exact hwait h

theorem changelogDecFopCnt_fops (s : State) (c : FopColor) :
    (changelogDecFopCnt s c).fops = s.fops := by
  simp only [changelogDecFopCnt, condSignal]
  split_ifs <;> rfl

theorem Counted.decrement (h : Counted S s) (hi : i ∈ S) {m : Mark}
    (hpc : s.fops i = .updated m) :
    Counted S ((changelogDecFopCnt s m.color).setFop i .done) := by
  set s' := (changelogDecFopCnt s m.color).setFop i .done
  have hfops : s'.fops = Function.update s.fops i .done := by
    change Function.update (changelogDecFopCnt s m.color).fops i .done = _
    rw [changelogDecFopCnt_fops]
  have hcnt : s'.fopCnt = Function.update s.fopCnt m.color (s.fopCnt m.color - 1) :=
    changelogDecFopCnt_fopCnt s m.color
  refine ⟨fun c => ?_, fun j hj => h.outside_update hi hfops hj, fun c hc => ?_⟩
  · have hcount := h.count_update hi hfops c
    rw [hpc] at hcount
    simp only [FopPc.inFlight, Bool.false_eq_true, if_false, decide_eq_true_eq] at hcount
    rw [hcnt]
    by_cases hc : m.color = c
    · subst hc
      rw [Function.update_self]
      rw [if_pos rfl] at hcount
      omega
    · rw [Function.update_of_ne (Ne.symm hc)]
      rw [if_neg hc] at hcount
      omega
  · obtain ⟨hasleep, hleft⟩ := asleep_of_decrement (fun hs => (h.asleep _ hs).1) hc
    obtain ⟨hwait, hpos⟩ := h.asleep c hasleep
    refine ⟨(congrFun (changelogDecFopCnt_drainWait s m.color) c).trans hwait, ?_⟩
    rw [hcnt]
    by_cases hcolor : c = m.color
    · rw [hcolor, Function.update_self]
      exact Nat.pos_of_ne_zero (hleft hcolor)
    · rwa [Function.update_of_ne hcolor]

/-- The rollover thread moves to a place where it does not sleep. -/
theorem Counted.of_rollover (h : Counted S s) (hfops : s'.fops = s.fops)
    (hcnt : s'.fopCnt = s.fopCnt) (hpc : ∀ c, s'.rollover ≠ .asleep c) : Counted S s' := by
  refine ⟨fun c => ?_, fun j hj => ?_, fun c hc => absurd hc (hpc c)⟩
  · rw [hcnt, inFlightCount, hfops]
    exact h.count c
  · rw [hfops]
    exact h.outside j hj

theorem Counted.drainFops (h : Counted S s) (c : FopColor) : Counted S (drainFops c s) := by
  by_cases hpos : 0 < s.fopCnt c
  · rw [Color.drainFops, if_pos hpos]
    refine ⟨h.count, h.outside, fun c' hc' => ?_⟩
    obtain rfl : c = c' := RolloverPc.asleep.inj hc'
    exact ⟨Function.update_self _ _ _, hpos⟩
  · rw [Color.drainFops, if_neg hpos]
    refine h.of_rollover rfl rfl fun c' hc' => ?_
    cases hc'

theorem Counted.fopStep (h : Counted S s) (hi : i ∈ S) {a : Action}
    (hstep : fopStep s i a = some s') : Counted S s' := by
  cases a with
  | lock _ =>
      obtain ⟨⟨hidle, -⟩, hs'⟩ := Option.ite_none_right_eq_some.mp hstep
      obtain rfl := Option.some.inj hs'
      exact h.move (p := .locked) hi (fun c => by rw [hidle]; rfl) rfl rfl rfl rfl
  | colour _ =>
      simp only [Color.fopStep] at hstep
      split at hstep
      · rename_i hpc
        obtain rfl := Option.some.inj hstep
        exact h.move hi (fun c => by rw [hpc]; rfl) rfl rfl rfl rfl
      · cases hstep
  | count _ =>
      simp only [Color.fopStep] at hstep
      split at hstep
      · rename_i m hpc
        obtain rfl := Option.some.inj hstep
        exact h.increment hi hpc
      · cases hstep
  | wind _ =>
      simp only [Color.fopStep] at hstep
      split at hstep
      · rename_i m hpc
        obtain rfl := Option.some.inj hstep
        exact h.move (p := .wound m) hi (fun c => by rw [hpc]; rfl) rfl rfl rfl rfl
      · cases hstep
  | answer _ success =>
      simp only [Color.fopStep] at hstep
      split at hstep
      · rename_i m hpc
        obtain rfl := Option.some.inj hstep
        exact h.move (p := .updated m) hi (fun c => by rw [hpc]; rfl) rfl rfl rfl rfl
      · cases hstep
  | decrement _ =>
      simp only [Color.fopStep] at hstep
      split at hstep
      · rename_i m hpc
        obtain rfl := Option.some.inj hstep
        exact h.decrement hi hpc
      · cases hstep
  | wake | flip | drain | spurious | giveUp | inject | reconfigure => cases hstep

theorem Counted.rolloverStep (h : Counted S s) {a : Action}
    (hstep : rolloverStep s a = some s') : Counted S s' := by
  cases a with
  | drain =>
      simp only [Color.rolloverStep] at hstep
      split at hstep
      · obtain rfl := Option.some.inj hstep
        exact h.drainFops .black
      · obtain rfl := Option.some.inj hstep
        exact h.drainFops .white
      · cases hstep
  | spurious =>
      simp only [Color.rolloverStep] at hstep
      split at hstep
      · obtain rfl := Option.some.inj hstep
        exact h.of_rollover rfl rfl fun c hc => by cases hc
      · cases hstep
  | wake | flip | giveUp | inject | reconfigure =>
      obtain ⟨-, hs'⟩ := Option.ite_none_right_eq_some.mp hstep
      obtain rfl := Option.some.inj hs'
      exact h.of_rollover rfl rfl fun c hc => by cases hc
  | lock _ | colour _ | count _ | wind _ | answer _ _ | decrement _ => cases hstep

/-- A step is one of a file operation, or one of the rollover thread. -/
theorem step_cases {a : Action} (hstep : step S s a = some s') :
    (∃ i ∈ S, fopStep s i a = some s') ∨ rolloverStep s a = some s' := by
  cases a with
  | lock i | colour i | count i | wind i | answer i _ | decrement i =>
      obtain ⟨hi, hs'⟩ := Option.ite_none_right_eq_some.mp hstep
      exact .inl ⟨i, hi, hs'⟩
  | wake | flip | drain | spurious | giveUp | inject | reconfigure => exact .inr hstep

theorem counted_of_reachable (h : (changelog S).Reachable s) : Counted S s := by
  refine Machine.Reachable.invariant (Counted S) ?_ ?_ h
  · rintro s rfl
    exact counted_initial
  · intro s a s' hs hstep
    rcases step_cases hstep with ⟨i, hi, hfop⟩ | hrollover
    · exact hs.fopStep hi hfop
    · exact hs.rolloverStep hrollover

/-! ## The order of the records -/

/-- The colour after a number of flips. -/
def colorAt (flips : ℕ) : FopColor := if flips % 2 = 0 then .black else .white

theorem colorAt_succ (flips : ℕ) : colorAt (flips + 1) = (colorAt flips).other := by
  rcases Nat.mod_two_eq_zero_or_one flips with h | h
  · rw [colorAt, colorAt, if_neg (by omega), if_pos h]
    rfl
  · rw [colorAt, colorAt, if_pos (by omega), if_neg (by omega)]
    rfl

/-- How many flips the oldest operations may be behind. -/
def RolloverPc.behind : RolloverPc → ℕ
  | .drain _ | .asleep _ => 1
  | .select | .flip | .passed => 0

/-- The colour that is being drained. -/
def RolloverPc.draining : RolloverPc → Option FopColor
  | .drain c | .asleep c => some c
  | .select | .flip | .passed => none

/-- The place is within the critical section of `priv->lock`. -/
def FopPc.holdsLock : FopPc → Bool
  | .locked | .coloured _ | .counted _ => true
  | .idle | .wound _ | .updated _ | .done => false

/-- A record stands behind the rollover events of older flips only. -/
def Precedes (later earlier : Event) : Prop :=
  ∀ i m f, later = .record i m → earlier = .rollover f → f ≤ m.flip

/-- What holds in the runs without `reconfigure`. -/
structure Ordered (s : State) : Prop where
  holds : ∀ i, (s.fops i).holdsLock = true → s.lock = some i
  current : s.currentColor = colorAt s.flips
  color : ∀ i m, (s.fops i).mark = some m → m.color = colorAt m.flip
  young : ∀ i m, (s.fops i).mark = some m → s.flips ≤ m.flip + s.rollover.behind
  /-- nothing is coloured and not counted when the colour is flipped -/
  fresh : ∀ i m, s.fops i = .coloured m → m.flip = s.flips
  draining : ∀ c, s.rollover.draining = some c → s.currentColor = c.other ∧ 0 < s.flips
  events : ∀ f, .rollover f ∈ s.journal → f + s.rollover.behind ≤ s.flips
  journal : s.journal.Pairwise Precedes

theorem ordered_initial : Ordered initial := by
  refine ⟨fun i h => ?_, rfl, fun i m h => ?_, fun i m h => ?_, fun i m h => ?_, fun c h => ?_,
    fun f h => ?_, List.Pairwise.nil⟩ <;> cases h

/-- An operation moves to a place with the mark that it had. -/
theorem Ordered.move (h : Ordered s) {p : FopPc} (hfops : s'.fops = Function.update s.fops i p)
    (hlock : ∀ j, (s'.fops j).holdsLock = true → s'.lock = some j)
    (hmark : ∀ m, p.mark = some m → (s.fops i).mark = some m)
    (hfresh : ∀ m, p ≠ .coloured m) (hcurrent : s'.currentColor = s.currentColor)
    (hbehind : s'.rollover.behind = s.rollover.behind)
    (hdraining : s'.rollover.draining = s.rollover.draining) (hflips : s'.flips = s.flips)
    (hevents : ∀ f, .rollover f ∈ s'.journal → .rollover f ∈ s.journal)
    (hjournal : s'.journal.Pairwise Precedes) : Ordered s' := by
  have hback : ∀ j m, (s'.fops j).mark = some m → (s.fops j).mark = some m := by
    intro j m hm
    rw [hfops] at hm
    by_cases hj : j = i
    · subst hj
      rw [Function.update_self] at hm
      exact hmark m hm
    · rwa [Function.update_of_ne hj] at hm
  refine ⟨hlock, ?_, fun j m hm => h.color j m (hback j m hm), fun j m hm => ?_, fun j m hm => ?_,
    fun c hc => ?_, fun f hf => ?_, hjournal⟩
  · rw [hcurrent, hflips]
    exact h.current
  · rw [hflips, hbehind]
    exact h.young j m (hback j m hm)
  · rw [hfops] at hm
    rw [hflips]
    by_cases hj : j = i
    · subst hj
      rw [Function.update_self] at hm
      exact absurd hm (hfresh m)
    · rw [Function.update_of_ne hj] at hm
      exact h.fresh j m hm
  · rw [hdraining] at hc
    rw [hcurrent, hflips]
    exact h.draining c hc
  · rw [hbehind, hflips]
    exact h.events f (hevents f hf)

/-- Where the lock is after a move that keeps it, and after one that gives it back. -/
theorem holds_update (h : Ordered s) {p : FopPc} (hpc : p.holdsLock = true → s.lock = some i)
    {j : ℕ} (hj : (Function.update s.fops i p j).holdsLock = true) : s.lock = some j := by
  by_cases hji : j = i
  · subst hji
    rw [Function.update_self] at hj
    exact hpc hj
  · rw [Function.update_of_ne hji] at hj
    exact h.holds j hj

/-- What else counting down does: at most the thread is woken. -/
theorem changelogDecFopCnt_rest (s : State) (c : FopColor) :
    (changelogDecFopCnt s c).lock = s.lock
      ∧ (changelogDecFopCnt s c).currentColor = s.currentColor
      ∧ (changelogDecFopCnt s c).rollover.behind = s.rollover.behind
      ∧ (changelogDecFopCnt s c).rollover.draining = s.rollover.draining
      ∧ (changelogDecFopCnt s c).flips = s.flips
      ∧ (changelogDecFopCnt s c).journal = s.journal := by
  simp only [changelogDecFopCnt, condSignal]
  split_ifs with hzero hasleep
  · exact ⟨rfl, rfl, by rw [hasleep]; rfl, by rw [hasleep]; rfl, rfl, rfl⟩
  · exact ⟨rfl, rfl, rfl, rfl, rfl, rfl⟩
  · exact ⟨rfl, rfl, rfl, rfl, rfl, rfl⟩

theorem Ordered.fopStep (h : Ordered s) {a : Action} (hstep : fopStep s i a = some s') :
    Ordered s' := by
  cases a with
  | lock _ =>
      obtain ⟨⟨-, hnone⟩, hs'⟩ := Option.ite_none_right_eq_some.mp hstep
      obtain rfl := Option.some.inj hs'
      refine h.move (p := .locked) rfl (fun j hj => ?_) (fun m hm => by cases hm)
        (fun m hm => by cases hm) rfl rfl rfl rfl (fun f hf => hf) h.journal
      by_cases hji : j = i
      · rw [hji]
      · have hother : (s.fops j).holdsLock = true := by
          simpa only [State.setFop, Function.update_of_ne hji] using hj
        rw [h.holds j hother] at hnone
        cases hnone
  | colour _ =>
      simp only [Color.fopStep] at hstep
      split at hstep
      · rename_i hpc
        obtain rfl := Option.some.inj hstep
        have hlock := h.holds i (by rw [hpc]; rfl)
        -- the new mark has the current colour and the number of flips so far
        have hmarked : ∀ j m, ((s.setFop i (.coloured ⟨s.currentColor, s.flips⟩)).fops j).mark
            = some m → m = ⟨s.currentColor, s.flips⟩ ∨ (s.fops j).mark = some m := by
          intro j m hm
          by_cases hj : j = i
          · subst hj
            simp only [State.setFop, Function.update_self] at hm
            exact .inl (Option.some.inj hm).symm
          · simp only [State.setFop, Function.update_of_ne hj] at hm
            exact .inr hm
        refine ⟨fun j hj => holds_update h (fun _ => hlock) hj, h.current, fun j m hm => ?_,
          fun j m hm => ?_, fun j m hm => ?_, h.draining, h.events, h.journal⟩
        · rcases hmarked j m hm with rfl | hm
          · exact h.current
          · exact h.color j m hm
        · rcases hmarked j m hm with rfl | hm
          · exact Nat.le_add_right _ _
          · exact h.young j m hm
        · by_cases hj : j = i
          · subst hj
            simp only [State.setFop, Function.update_self] at hm
            rw [← FopPc.coloured.inj hm]
            rfl
          · simp only [State.setFop, Function.update_of_ne hj] at hm
            exact h.fresh j m hm
      · cases hstep
  | count _ =>
      simp only [Color.fopStep] at hstep
      split at hstep
      · rename_i m hpc
        obtain rfl := Option.some.inj hstep
        have hlock := h.holds i (by rw [hpc]; rfl)
        refine h.move (p := .counted m) rfl (fun j hj => holds_update h (fun _ => hlock) hj)
          (fun m' hm => ?_) (fun m' hm => by cases hm) rfl rfl rfl rfl (fun f hf => hf) h.journal
        rwa [hpc]
      · cases hstep
  | wind _ =>
      simp only [Color.fopStep] at hstep
      split at hstep
      · rename_i m hpc
        obtain rfl := Option.some.inj hstep
        have hlock := h.holds i (by rw [hpc]; rfl)
        refine h.move (p := .wound m) rfl (fun j hj => ?_) (fun m' hm => ?_)
          (fun m' hm => by cases hm) rfl rfl rfl rfl (fun f hf => hf) h.journal
        · by_cases hji : j = i
          · subst hji
            simp [State.setFop, FopPc.holdsLock] at hj
          · have hother := h.holds j (by
              simpa only [State.setFop, Function.update_of_ne hji] using hj)
            rw [hlock] at hother
            exact absurd (Option.some.inj hother).symm hji
        · rwa [hpc]
      · cases hstep
  | answer _ success =>
      simp only [Color.fopStep] at hstep
      split at hstep
      · rename_i m hpc
        obtain rfl := Option.some.inj hstep
        have hmark : (s.fops i).mark = some m := by rw [hpc]; rfl
        refine h.move (p := .updated m) rfl
          (fun j hj => holds_update h (fun hholds => by cases hholds) hj) (fun m' hm => ?_)
          (fun m' hm => by cases hm) rfl rfl rfl rfl (fun f hf => ?_) ?_
        · rwa [hpc]
        · cases success with
          | true =>
              rcases List.mem_cons.mp hf with hf | hf
              · cases hf
              · exact hf
          | false => exact hf
        · cases success with
          | true =>
              refine List.pairwise_cons.mpr ⟨fun e he j m' f hrecord hrollover => ?_, h.journal⟩
              obtain ⟨-, rfl⟩ := Event.record.inj hrecord
              subst hrollover
              have hevent := h.events f he
              have hyoung := h.young i m hmark
              omega
          | false => exact h.journal
      · cases hstep
  | decrement _ =>
      simp only [Color.fopStep] at hstep
      split at hstep
      · rename_i m hpc
        obtain rfl := Option.some.inj hstep
        obtain ⟨hlock, hcurrent, hbehind, hdraining, hflips, hjournal⟩ :=
          changelogDecFopCnt_rest s m.color
        refine h.move (i := i) (p := .done) ?_ (fun j hj => ?_) (fun m' hm => by cases hm)
          (fun m' hm => by cases hm) hcurrent hbehind hdraining hflips (fun f hf => ?_) ?_
        · change Function.update (changelogDecFopCnt s m.color).fops i .done = _
          rw [changelogDecFopCnt_fops]
        · refine hlock.trans
            (holds_update h (i := i) (p := .done) (fun hholds => by cases hholds) ?_)
          rwa [← changelogDecFopCnt_fops s m.color]
        · rwa [← hjournal]
        · exact hjournal ▸ h.journal
      · cases hstep
  | wake | flip | drain | spurious | giveUp | inject | reconfigure => cases hstep

/-- The flip: everything that is marked is one flip behind, and counted. -/
theorem Ordered.flip (h : Ordered s) (hpc : s.rollover = .flip) (hnone : s.lock = none) :
    Ordered { s with
      currentColor := s.currentColor.other
      flips := s.flips + 1
      rollover := .drain s.currentColor } := by
  refine ⟨h.holds, ?_, h.color, fun i m hm => ?_, fun i m hm => ?_, fun c hc => ?_, fun f hf => ?_,
    h.journal⟩
  · change s.currentColor.other = colorAt (s.flips + 1)
    rw [colorAt_succ, h.current]
  · have hyoung := h.young i m hm
    rw [hpc] at hyoung
    exact Nat.succ_le_succ hyoung
  · have hholds := h.holds i (by rw [hm]; rfl)
    rw [hnone] at hholds
    cases hholds
  · obtain rfl : s.currentColor = c := Option.some.inj hc
    exact ⟨rfl, Nat.succ_pos _⟩
  · have hevent := h.events f hf
    rw [hpc] at hevent
    exact Nat.succ_le_succ hevent

/-- **The end of a drain**: what is in flight has been coloured after the flip. -/
theorem Ordered.drained (h : Ordered s) (hcounted : Counted S s) {c : FopColor}
    (hpc : s.rollover = .drain c) (hzero : ¬ 0 < s.fopCnt c) {i : ℕ} {m : Mark}
    (hm : (s.fops i).mark = some m) : s.flips ≤ m.flip := by
  by_contra hold
  obtain ⟨hcurrent, hpos⟩ := h.draining c (by rw [hpc]; rfl)
  have hyoung := h.young i m hm
  rw [hpc] at hyoung
  change s.flips ≤ m.flip + 1 at hyoung
  -- an operation from before the flip has the colour that is drained
  have hcolor : m.color = c := by
    have hother : s.currentColor = m.color.other := by
      rw [h.current, h.color i m hm, ← colorAt_succ]
      congr 1
      omega
    rw [hcurrent] at hother
    cases c <;> cases hmc : m.color <;> rw [hmc] at hother <;> first | rfl | cases hother
  have hflight : (s.fops i).inFlight c = true := by
    cases hfop : s.fops i with
    | coloured m' =>
        rw [hfop] at hm
        obtain rfl := Option.some.inj hm
        have := h.fresh i m' hfop
        omega
    | counted m' | wound m' | updated m' =>
        rw [hfop] at hm
        obtain rfl := Option.some.inj hm
        exact decide_eq_true hcolor
    | idle | locked | done =>
        rw [hfop] at hm
        cases hm
  have hi : i ∈ S := by
    by_contra hi
    rw [hcounted.outside i hi] at hm
    cases hm
  refine hzero ?_
  rw [hcounted.count c]
  exact tally_pos_of_mem hi hflight

theorem Ordered.drainFops (h : Ordered s) (hcounted : Counted S s) {c : FopColor}
    (hpc : s.rollover = .drain c) : Ordered (drainFops c s) := by
  have hyoung := h.young
  have hdraining := h.draining
  have hevents := h.events
  rw [hpc] at hyoung hdraining hevents
  by_cases hpos : 0 < s.fopCnt c
  · rw [Color.drainFops, if_pos hpos]
    exact ⟨h.holds, h.current, h.color, hyoung, h.fresh, hdraining, hevents, h.journal⟩
  · rw [Color.drainFops, if_neg hpos]
    exact ⟨h.holds, h.current, h.color, fun i m hm => h.drained hcounted hpc hpos hm, h.fresh,
      (fun c' hc' => by cases hc'), fun f hf => Nat.le_of_succ_le (hevents f hf), h.journal⟩

/-- The thread moves between places that are not in a drain. -/
theorem Ordered.of_behind (h : Ordered s) {p : RolloverPc} (hpc : s.rollover.behind = 0)
    (hpc' : p.behind = 0) (hnot : p.draining = none) : Ordered { s with rollover := p } := by
  refine ⟨h.holds, h.current, h.color, fun i m hm => ?_, h.fresh, fun c hc => ?_, fun f hf => ?_,
    h.journal⟩
  · have hyoung := h.young i m hm
    rw [hpc] at hyoung
    change s.flips ≤ m.flip + p.behind
    omega
  · change p.draining = some c at hc
    rw [hnot] at hc
    cases hc
  · have hevent := h.events f hf
    rw [hpc] at hevent
    change f + p.behind ≤ s.flips
    omega

theorem Ordered.inject (h : Ordered s) (hpc : s.rollover = .passed) :
    Ordered { s with rollover := .select, journal := .rollover s.flips :: s.journal } := by
  have hselect := h.of_behind (p := .select) (by rw [hpc]; rfl) rfl rfl
  refine ⟨hselect.holds, hselect.current, hselect.color, hselect.young, hselect.fresh,
    hselect.draining, fun f hf => ?_, ?_⟩
  · rcases List.mem_cons.mp hf with hf | hf
    · exact (Event.rollover.inj hf).le
    · exact hselect.events f hf
  · exact List.pairwise_cons.mpr ⟨(fun e _ i m f hrecord => by cases hrecord), h.journal⟩

theorem Ordered.rolloverStep (h : Ordered s) (hcounted : Counted S s) {a : Action}
    (hcancel : a ≠ .reconfigure) (hstep : rolloverStep s a = some s') : Ordered s' := by
  cases a with
  | wake =>
      obtain ⟨hpc, hs'⟩ := Option.ite_none_right_eq_some.mp hstep
      obtain rfl := Option.some.inj hs'
      exact h.of_behind (by rw [hpc]; rfl) rfl rfl
  | flip =>
      obtain ⟨⟨hpc, hnone⟩, hs'⟩ := Option.ite_none_right_eq_some.mp hstep
      obtain rfl := Option.some.inj hs'
      exact h.flip hpc hnone
  | drain =>
      simp only [Color.rolloverStep] at hstep
      split at hstep
      · rename_i hpc
        obtain rfl := Option.some.inj hstep
        exact h.drainFops hcounted hpc
      · rename_i hpc
        obtain rfl := Option.some.inj hstep
        exact h.drainFops hcounted hpc
      · cases hstep
  | spurious =>
      simp only [Color.rolloverStep] at hstep
      split at hstep
      · rename_i c hpc
        obtain rfl := Option.some.inj hstep
        have hyoung := h.young
        have hdraining := h.draining
        have hevents := h.events
        rw [hpc] at hyoung hdraining hevents
        exact ⟨h.holds, h.current, h.color, hyoung, h.fresh, hdraining, hevents, h.journal⟩
      · cases hstep
  | giveUp =>
      obtain ⟨hpc, hs'⟩ := Option.ite_none_right_eq_some.mp hstep
      obtain rfl := Option.some.inj hs'
      exact h.of_behind (by rw [hpc]; rfl) rfl rfl
  | inject =>
      obtain ⟨⟨hpc, -⟩, hs'⟩ := Option.ite_none_right_eq_some.mp hstep
      obtain rfl := Option.some.inj hs'
      exact h.inject hpc
  | reconfigure => exact absurd rfl hcancel
  | lock _ | colour _ | count _ | wind _ | answer _ _ | decrement _ => cases hstep

/-! ## Rollovers -/

/-- The steps of the file operations and of the rollovers. -/
def Uncancelled (_ : State) (a : Action) : Prop := a ≠ .reconfigure

instance (s : State) (a : Action) : Decidable (Uncancelled s a) :=
  inferInstanceAs (Decidable (a ≠ .reconfigure))

theorem ordered_of_reachable (h : (changelog S).ReachableWhen Uncancelled s) : Ordered s := by
  refine (Machine.ReachableWhen.invariant (fun s => Counted S s ∧ Ordered s) ?_ ?_ h).2
  · rintro s rfl
    exact ⟨counted_initial, ordered_initial⟩
  · rintro s a s' ⟨hcounted, hordered⟩ hok hstep
    rcases step_cases hstep with ⟨i, hi, hfop⟩ | hrollover
    · exact ⟨hcounted.fopStep hi hfop, hordered.fopStep hfop⟩
    · exact ⟨hcounted.rolloverStep hrollover, hordered.rolloverStep hcounted hok hrollover⟩

/-- **Draining, in all runs of file operations and rollovers.**  The counters are the numbers of the
operations in flight.  When a drain is over, no operation that was coloured before the flip is left
before its count down, and in the journal no record of such an operation stands behind the rollover
event.  And the thread does not sleep at a counter that is `0`. -/
theorem drained_before_rollover (h : (changelog S).ReachableWhen Uncancelled s) :
    (∀ c, s.fopCnt c = inFlightCount S s c)
      ∧ (s.rollover = .passed → ∀ i m, (s.fops i).mark = some m → s.flips ≤ m.flip)
      ∧ s.journal.Pairwise Precedes
      ∧ ∀ c, s.rollover = .asleep c → 0 < s.fopCnt c := by
  have hcounted := counted_of_reachable h.reachable
  have hordered := ordered_of_reachable h
  refine ⟨hcounted.count, fun hpc i m hm => ?_, hordered.journal,
    fun c hc => (hcounted.asleep c hc).2⟩
  have hyoung := hordered.young i m hm
  rwa [hpc] at hyoung

/-- An operation, from its colour to the child. -/
def windFop (i : ℕ) : List Action := [.lock i, .colour i, .count i, .wind i]

/-- The rest of an operation. -/
def finishFop (i : ℕ) : List Action := [.answer i true, .decrement i]

/-- A rollover waits for an operation from before the flip, and not for one from after it. -/
theorem drained_before_rollover_two :
    ∃ s, (changelog {0, 1}).ReachableWhen Uncancelled s ∧ s.rollover = .passed
      ∧ s.journal = [.record 0 ⟨.black, 0⟩] ∧ s.fops 1 = .wound ⟨.white, 1⟩ ∧ s.fopCnt .white = 1
      ∧ ∀ i m, (s.fops i).mark = some m → s.flips ≤ m.flip := by
  have hrun : ((changelog {0, 1}).execWhen Uncancelled initial (windFop 0 ++ [.wake, .flip, .drain]
      ++ windFop 1 ++ finishFop 0 ++ [.drain])).map (fun s =>
        (s.rollover, s.journal, s.fops 1, s.fopCnt .white))
      = some (.passed, [.record 0 ⟨.black, 0⟩], .wound ⟨.white, 1⟩, 1) := by decide
  obtain ⟨s, hs, hfields⟩ := Option.map_eq_some_iff.mp hrun
  have hreach : (changelog {0, 1}).ReachableWhen Uncancelled s :=
    Machine.ReachableWhen.execWhen (.start rfl) _ hs
  have hpc : s.rollover = .passed := congrArg Prod.fst hfields
  exact ⟨s, hreach, hpc, congrArg (fun p => p.2.1) hfields, congrArg (fun p => p.2.2.1) hfields,
    congrArg (fun p => p.2.2.2) hfields, (drained_before_rollover hreach).2.1 hpc⟩

/-- **A drain that is cancelled is not made up for**: after `reconfigure` the next rollover passes
its drain while an operation from before both flips is with the child. -/
theorem drain_cancelled :
    ∃ s, (changelog {0}).Reachable s ∧ s.rollover = .passed ∧ s.flips = 2
      ∧ s.fops 0 = .wound ⟨.black, 0⟩ := by
  have hrun : ((changelog {0}).exec initial (windFop 0 ++ [.wake, .flip, .drain, .reconfigure,
      .wake, .flip, .drain])).map (fun s => (s.rollover, s.flips, s.fops 0))
      = some (.passed, 2, .wound ⟨.black, 0⟩) := by decide
  obtain ⟨s, hs, hfields⟩ := Option.map_eq_some_iff.mp hrun
  exact ⟨s, Machine.Reachable.exec (.start rfl) _ hs, congrArg Prod.fst hfields,
    congrArg (fun p => p.2.1) hfields, congrArg (fun p => p.2.2) hfields⟩

end GlusterFS.Changelog.Color
