import GlusterFS.Syncop.Waitq

/-!
# `synclock_t` and `syncbarrier_t`

The two users of the loop of `Waitq`.  A lock is blocked while `lock` is set, and passing the loop
sets it; a barrier for `waitfor` wakes is blocked while `count` is below, and passing the loop
starts the count anew.  Both close behind the one who passes, which is what `kept_of_reachable` asks
for.

Nobody but the one who has the lock may unlock it: `__synclock_unlock` compares `owner` with the
caller and does nothing about it.
-/

namespace GlusterFS.Syncop

open Waiters

/-- `synctask_get`: a thread without a task has none. -/
def Caller.synctask : Caller → Option ℕ
  | .task t => some t
  | .thread _ => none

/-! ## The lock -/

/-- `lock` and `owner` of `struct synclock`. -/
structure Synclock where
  lock : Bool
  owner : Option ℕ
  deriving DecidableEq, Repr

/-- `__synclock_lock` and `__synclock_unlock`. -/
def synclockGuard : Guard Synclock where
  blocked d := d.lock
  pass w _ := ⟨true, w.synctask⟩
  release d := { d with lock := false }

/-- A lock after `synclock_init`. -/
def synclockMachine : Machine (Waiters Synclock) WaitAction := machine synclockGuard ⟨false, none⟩

/-- Wakes are paired; who has the lock keeps it until its `synclock_unlock`, and nobody else
unlocks. -/
def lockCalls (s : Waiters Synclock) : WaitAction → Bool
  | .leave _ | .release none _ => false
  | a => s.paired a

/-- The runs. -/
abbrev LockCalls (s : Waiters Synclock) (a : WaitAction) : Prop := lockCalls s a = true

theorem paired_of_lockCalls {s : Waiters Synclock} {a : WaitAction} (h : LockCalls s a) :
    s.paired a = true := by
  cases a with
  | leave w => cases h
  | release w k => rfl
  | _ => exact h

/-- One caller at most is past the loop; `lock` says whether there is one, and `owner` is its
task. -/
def Held (s : Waiters Synclock) : Prop :=
  ∃ holder : Option Caller, (∀ w, s.pc w = .inside ↔ holder = some w) ∧
    s.data.lock = holder.isSome ∧ ∀ w, holder = some w → s.data.owner = w.synctask

section Held

variable {s s' : Waiters Synclock}

/-- Moves that neither enter nor leave the critical section. -/
theorem Held.of_pc (h : Held s) (hpc : ∀ w, s'.pc w = .inside ↔ s.pc w = .inside)
    (hdata : s'.data = s.data) : Held s' := by
  obtain ⟨holder, hin, hlock, howner⟩ := h
  exact ⟨holder, fun w => (hpc w).trans (hin w), hdata ▸ hlock, hdata ▸ howner⟩

theorem inside_update_iff {pc : Caller → Pc} {w : Caller} {p : Pc} (hw : pc w ≠ .inside)
    (hp : p ≠ .inside) (v : Caller) : Function.update pc w p v = .inside ↔ pc v = .inside := by
  by_cases hv : v = w
  · subst hv
    simp [hw, hp]
  · rw [Function.update_of_ne hv]

/-- One turn of the loop: the lock is taken only when nobody has it. -/
theorem Held.turn (h : Held s) {w : Caller} (hw : s.pc w ≠ .inside) :
    Held (s.turn synclockGuard w) := by
  unfold Waiters.turn
  split
  · cases w with
    | task t => exact h.of_pc (inside_update_iff hw (by decide)) rfl
    | thread i => exact h.of_pc (inside_update_iff hw (by decide)) rfl
  · next hfree =>
    obtain ⟨holder, hin, hlock, _⟩ := h
    have hnone : holder = none := by
      rw [← Option.not_isSome_iff_eq_none, ← hlock]
      exact hfree
    refine ⟨some w, fun v => ?_, rfl, fun v hv => by rw [← Option.some.inj hv]; rfl⟩
    by_cases hv : v = w
    · simp [hv]
    · have hout : s.pc v ≠ .inside := fun hp => by simp [hnone] at hin; exact hin v hp
      simp [Function.update_of_ne hv, hout, Ne.symm hv]

/-- `synclock_unlock`. -/
theorem Held.release (h : Held s) (hs : Sound s) {w : Caller} {k : ℕ}
    (hstep : s.step synclockGuard (.release (some w) k) = some s') : Held s' := by
  obtain ⟨hw, hbind⟩ := Option.ite_none_right_eq_some.mp hstep
  simp only [Option.all_some, Bool.and_eq_true, beq_iff_eq] at hw
  obtain ⟨holder, hin, _, _⟩ := h
  have hholder : holder = some w := (hin w).mp hw.1
  have hout := hs.out hw.1 (synclockGuard.release s.data)
  obtain ⟨mid, hsignal, hwake⟩ := Option.bind_eq_some_iff.mp hbind
  obtain ⟨hmid, _, hdata, hpc, _⟩ := hout.signal hsignal
  obtain ⟨_, _, hdata', hpc', _⟩ := hmid.wakeFirst hwake
  refine ⟨none, fun v => ?_, by rw [hdata', hdata]; rfl, by simp⟩
  rw [hpc', hpc]
  by_cases hv : v = w
  · simp [hv]
  · have hne : s.pc v ≠ .inside := fun hp =>
      hv (Option.some.inj (hholder.symm.trans ((hin v).mp hp))).symm
    simp [Function.update_of_ne hv, hne]

theorem Held.step (h : Held s) (hs : Sound s) {a : WaitAction} (ha : LockCalls s a)
    (hstep : s.step synclockGuard a = some s') : Held s' := by
  cases a with
  | env a =>
    obtain ⟨_, hmap⟩ := Option.ite_none_left_eq_some.mp hstep
    obtain ⟨env, _, rfl⟩ := Option.map_eq_some_iff.mp hmap
    exact h.of_pc (fun _ => Iff.rfl) rfl
  | enter w =>
    obtain ⟨⟨hpc, _⟩, heq⟩ := Option.ite_none_right_eq_some.mp hstep
    rw [← Option.some.inj heq]
    exact h.turn (by simp [hpc])
  | attempt w =>
    obtain ⟨⟨hpc, _⟩, heq⟩ := Option.ite_none_right_eq_some.mp hstep
    rw [← Option.some.inj heq]
    split
    · exact h
    · exact h.turn (by simp [hpc])
  | yield t =>
    obtain ⟨hpc, hmap⟩ := Option.ite_none_right_eq_some.mp hstep
    obtain ⟨env, _, rfl⟩ := Option.map_eq_some_iff.mp hmap
    exact h.of_pc (inside_update_iff (by simp [hpc]) (by decide)) rfl
  | spurious i =>
    obtain ⟨_, heq⟩ := Option.ite_none_right_eq_some.mp hstep
    rw [← Option.some.inj heq]
    exact h.of_pc (fun _ => Iff.rfl) rfl
  | again w =>
    obtain ⟨⟨hpc, _⟩, heq⟩ := Option.ite_none_right_eq_some.mp hstep
    rw [← Option.some.inj heq]
    exact h.turn (by simp [hpc])
  | leave w => cases ha
  | release w k =>
    cases w with
    | none => cases ha
    | some w => exact h.release hs hstep

end Held

theorem synclock_pass_blocked (w : Caller) (d : Synclock) :
    synclockGuard.blocked (synclockGuard.pass w d) = true := rfl

theorem synclock_invariant {s : Waiters Synclock} (h : synclockMachine.ReachableWhen LockCalls s) :
    Kept synclockGuard s ∧ Held s := by
  refine Machine.ReachableWhen.invariant (fun s => Kept synclockGuard s ∧ Held s) ?_ ?_ h
  · rintro _ rfl
    exact ⟨kept_of_reachable synclock_pass_blocked (.start rfl), none, by simp, rfl, by simp⟩
  · intro s a s' hs ha hstep
    exact ⟨hs.1.step synclock_pass_blocked (paired_of_lockCalls ha) hstep,
      hs.2.step hs.1.toSound ha hstep⟩

/-- **Mutual exclusion.**  However calls of tasks and threads, wakes and the steps of the processors
follow each other, at most one caller is between its `synclock_lock` and its `synclock_unlock`;
`lock` is set exactly while there is one, and `owner` is the task of that one. -/
theorem synclock_excludes {s : Waiters Synclock}
    (h : synclockMachine.ReachableWhen LockCalls s) :
    (∀ v w, s.pc v = .inside → s.pc w = .inside → v = w) ∧
      (s.data.lock = true ↔ ∃ w, s.pc w = .inside) ∧
      ∀ w, s.pc w = .inside → s.data.owner = w.synctask := by
  obtain ⟨_, holder, hin, hlock, howner⟩ := synclock_invariant h
  refine ⟨fun v w hv hw => ?_, ?_, fun w hw => howner w ((hin w).mp hw)⟩
  · exact Option.some.inj (((hin v).mp hv).symm.trans ((hin w).mp hw))
  · rw [hlock, Option.isSome_iff_exists]
    exact exists_congr fun w => (hin w).symm

/-- Task 0 has the lock, task 1 and a thread wait for it. -/
theorem synclock_excludes_contended :
    ∃ s, synclockMachine.ReachableWhen LockCalls s ∧ s.pc (.task 0) = .inside ∧
      s.waits (.task 1) = true ∧ s.waits (.thread 0) = true ∧ s.data.owner = some 0 := by
  have hrun : (synclockMachine.execWhen LockCalls
      ⟨syncenvNew, ⟨false, none⟩, [], [], fun _ => .outside⟩
      [.env (.create 0 true), .env (.wake 0), .env (.create 1 true), .env (.wake 1), .env .pickUp,
        .env .pickUp, .enter (.task 0), .enter (.task 1), .enter (.thread 0), .yield 1]).map
      (fun s => (s.pc (.task 0), s.waits (.task 1), s.waits (.thread 0)))
      = some (.inside, true, true) := by decide +kernel
  obtain ⟨s, hs, hobs⟩ := Option.map_eq_some_iff.mp hrun
  have hstart : synclockMachine.ReachableWhen LockCalls
      ⟨syncenvNew, ⟨false, none⟩, [], [], fun _ => .outside⟩ := .start rfl
  simp only [Prod.mk.injEq] at hobs
  have hreach := hstart.execWhen _ hs
  exact ⟨s, hreach, hobs.1, hobs.2.1, hobs.2.2, (synclock_excludes hreach).2.2 _ hobs.1⟩

/-- **No wake-up of the lock is lost.**  When the lock is free and somebody is in `synclock_lock`,
then somebody there has been called and will look at `lock` again: a thread that is out of
`pthread_cond_wait`, or a task that has been woken, is off `waitq`, and is on `runq` whenever it is
with no processor.  No task is twice on `waitq`, and none there has ended, so that `synclock_unlock`
never wakes a task that is gone. -/
theorem synclock_hands_on {s : Waiters Synclock}
    (h : synclockMachine.ReachableWhen LockCalls s) :
    (s.data.lock = false → ∀ w, s.waits w = true → ∃ v, s.Coming v ∧
        ∀ t, v = .task t → (s.env.tasks t).phase = .idle → t ∈ s.env.runq) ∧
      s.waitq.Nodup ∧
      ∀ t ∈ s.waitq, (s.env.tasks t).phase ≠ .absent ∧ (s.env.tasks t).phase ≠ .ended ∧
        (s.env.tasks t).phase ≠ .freed := by
  obtain ⟨hkept, _⟩ := synclock_invariant h
  refine ⟨fun hfree w hw => hkept.somebody_called hfree hw, hkept.waitq, fun t ht => ?_⟩
  have hw := hkept.tasks t
  rcases waits_iff.mp (hkept.waits_of_mem ht) with hpc | hpc <;> rw [hpc] at hw
  · simp [hw.1]
  · obtain ⟨_, ⟨hp, _⟩ | ⟨hp | hp | hp, _⟩⟩ := hw <;> simp [hp]

/-- Task 1 is woken between its `list_add_tail` and its `synctask_yield`. -/
theorem synclock_hands_on_before_yield :
    ∃ s, synclockMachine.ReachableWhen LockCalls s ∧ s.data.lock = false ∧
      s.pc (.task 1) = .parked ∧ ∃ v, s.Coming v := by
  have hrun : (synclockMachine.execWhen LockCalls
      ⟨syncenvNew, ⟨false, none⟩, [], [], fun _ => .outside⟩
      [.env (.create 0 true), .env (.wake 0), .env (.create 1 true), .env (.wake 1), .env .pickUp,
        .env .pickUp, .enter (.task 0), .enter (.task 1), .release (some (.task 0)) 0]).map
      (fun s => (s.data.lock, s.pc (.task 1))) = some (false, .parked) := by decide +kernel
  obtain ⟨s, hs, hobs⟩ := Option.map_eq_some_iff.mp hrun
  have hstart : synclockMachine.ReachableWhen LockCalls
      ⟨syncenvNew, ⟨false, none⟩, [], [], fun _ => .outside⟩ := .start rfl
  simp only [Prod.mk.injEq] at hobs
  have hreach := hstart.execWhen _ hs
  obtain ⟨v, hv, _⟩ := (synclock_hands_on hreach).1 hobs.1 (.task 1) (by simp [waits, hobs.2])
  exact ⟨s, hreach, hobs.1, hobs.2, v, hv⟩

/-! ## The barrier -/

/-- `__syncbarrier_wait` for `waitfor` wakes and `__syncbarrier_wake`; the data are `count`, an
`int`. -/
def syncbarrierGuard (waitfor : ℤ) : Guard ℤ where
  blocked count := count < waitfor
  pass _ _ := 0
  release count := Int.bmod (count + 1) (2 ^ 32)

/-- How often the barrier has been woken, and how often it has let somebody pass. -/
structure Tally where
  wakes : ℕ
  passes : ℕ
  deriving DecidableEq, Repr

@[inherit_doc Tally]
def Tally.record (s : Waiters ℤ) (n : Tally) : WaitAction → Waiters ℤ → Tally
  | .release _ _, _ => { n with wakes := n.wakes + 1 }
  | .enter w, s' | .again w, s' =>
    if s'.pc w = .inside ∧ s.pc w ≠ .inside then { n with passes := n.passes + 1 } else n
  | _, _ => n

/-- A barrier after `syncbarrier_init`, with a history. -/
def syncbarrierMachine (waitfor : ℤ) : Machine (Waiters ℤ × Tally) WaitAction :=
  (machine (syncbarrierGuard waitfor) 0).observe ⟨0, 0⟩ (fun _ _ _ => true) Tally.record

/-- Wakes are paired; there is no `trylock`, who wakes the barrier is not one who has passed it, and
`count` is not woken beyond the largest `int`. -/
def barrierCalls (p : Waiters ℤ × Tally) : WaitAction → Bool
  | .attempt _ | .release (some _) _ => false
  | .release none _ => p.1.data < 2 ^ 31 - 1
  | a => p.1.paired a

@[inherit_doc barrierCalls]
abbrev BarrierCalls (p : Waiters ℤ × Tally) (a : WaitAction) : Prop := barrierCalls p a = true

theorem paired_of_barrierCalls {p : Waiters ℤ × Tally} {a : WaitAction} (h : BarrierCalls p a) :
    p.1.paired a = true := by
  cases a with
  | attempt w => cases h
  | release w k => rfl
  | _ => exact h

/-- Each pass has used up `waitfor` wakes at least. -/
def Counted (waitfor : ℤ) (count : ℤ) (n : Tally) : Prop :=
  0 ≤ count ∧ n.passes * waitfor + count ≤ n.wakes

section Barrier

variable {waitfor : ℤ} {s s' : Waiters ℤ} {n : Tally}

theorem Counted.turn (h : Counted waitfor s.data n) {w : Caller} (hw : s.pc w ≠ .inside) :
    Counted waitfor (s.turn (syncbarrierGuard waitfor) w).data
      (if (s.turn (syncbarrierGuard waitfor) w).pc w = .inside ∧ s.pc w ≠ .inside then
        { n with passes := n.passes + 1 } else n) := by
  obtain ⟨hpos, hle⟩ := h
  unfold Waiters.turn
  by_cases hblocked : (syncbarrierGuard waitfor).blocked s.data = true
  · rw [if_pos hblocked]
    cases w <;> simp [Counted, hpos, hle]
  · rw [if_neg hblocked]
    simp only [syncbarrierGuard, decide_eq_true_eq, not_lt] at hblocked
    simp only [Function.update_self, syncbarrierGuard, Counted, ne_eq, hw, not_false_eq_true,
      and_self, if_true]
    push_cast
    exact ⟨trivial, by linarith⟩

theorem Counted.step (h : Counted waitfor s.data n) (hs : Sound s) {a : WaitAction}
    (ha : BarrierCalls (s, n) a) (hstep : s.step (syncbarrierGuard waitfor) a = some s') :
    Counted waitfor s'.data (Tally.record s n a s') := by
  cases a with
  | env a =>
    obtain ⟨_, hmap⟩ := Option.ite_none_left_eq_some.mp hstep
    obtain ⟨env, _, rfl⟩ := Option.map_eq_some_iff.mp hmap
    exact h
  | enter w =>
    obtain ⟨⟨hpc, _⟩, heq⟩ := Option.ite_none_right_eq_some.mp hstep
    rw [← Option.some.inj heq]
    exact h.turn (by simp [hpc])
  | attempt w => cases ha
  | yield t =>
    obtain ⟨_, hmap⟩ := Option.ite_none_right_eq_some.mp hstep
    obtain ⟨env, _, rfl⟩ := Option.map_eq_some_iff.mp hmap
    exact h
  | spurious i =>
    obtain ⟨_, heq⟩ := Option.ite_none_right_eq_some.mp hstep
    rw [← Option.some.inj heq]
    exact h
  | again w =>
    obtain ⟨⟨hpc, _⟩, heq⟩ := Option.ite_none_right_eq_some.mp hstep
    rw [← Option.some.inj heq]
    exact h.turn (by simp [hpc])
  | leave w =>
    obtain ⟨_, heq⟩ := Option.ite_none_right_eq_some.mp hstep
    rw [← Option.some.inj heq]
    exact h
  | release w k =>
    cases w with
    | some w => cases ha
    | none =>
      rw [Waiters.step, Option.all_none, if_pos rfl] at hstep
      have hout : Sound { s with data := (syncbarrierGuard waitfor).release s.data } :=
        ⟨hs.env, hs.tasks, hs.waitq, hs.cond, hs.threads⟩
      obtain ⟨mid, hsignal, hwake⟩ := Option.bind_eq_some_iff.mp hstep
      obtain ⟨hmid, _, hdata, _⟩ := hout.signal hsignal
      obtain ⟨_, _, hdata', _⟩ := hmid.wakeFirst hwake
      obtain ⟨hpos, hle⟩ := h
      have hbound : s.data < 2 ^ 31 - 1 := of_decide_eq_true ha
      have hcount : Int.bmod (s.data + 1) (2 ^ 32) = s.data + 1 :=
        Int.bmod_eq_of_le (by omega) (by omega)
      rw [hdata', hdata]
      simp only [Tally.record, syncbarrierGuard, Counted, hcount]
      push_cast
      constructor <;> linarith

end Barrier

/-- **A barrier for `waitfor` wakes** lets nobody pass before `waitfor` further wakes: in every run
of `BarrierCalls` the passes have used up `waitfor` wakes each, besides those that `count` still
holds.  And when `count` has come to `waitfor` and somebody waits, then somebody there has been
called, and is on `runq` whenever it is a task that is with no processor. -/
theorem syncbarrier_waits_for {waitfor : ℤ} (hpos : 0 < waitfor) {p : Waiters ℤ × Tally}
    (h : (syncbarrierMachine waitfor).ReachableWhen BarrierCalls p) :
    p.2.passes * waitfor + p.1.data ≤ p.2.wakes ∧ 0 ≤ p.1.data ∧
      (waitfor ≤ p.1.data → ∀ w, p.1.waits w = true → ∃ v, p.1.Coming v ∧
        ∀ t, v = .task t → (p.1.env.tasks t).phase = .idle → t ∈ p.1.env.runq) := by
  have hG (w : Caller) (d : ℤ) :
      (syncbarrierGuard waitfor).blocked ((syncbarrierGuard waitfor).pass w d) = true := by
    simpa [syncbarrierGuard] using hpos
  have hinv : Kept (syncbarrierGuard waitfor) p.1 ∧ Counted waitfor p.1.data p.2 := by
    refine Machine.ReachableWhen.invariant
      (fun p => Kept (syncbarrierGuard waitfor) p.1 ∧ Counted waitfor p.1.data p.2) ?_ ?_ h
    · rintro ⟨s, n⟩ ⟨hs, hn⟩
      obtain rfl : s = _ := hs
      obtain rfl : n = _ := hn
      exact ⟨kept_of_reachable hG (.start rfl), by simp [Counted]⟩
    · rintro ⟨s, n⟩ a ⟨s', n'⟩ ⟨hkept, hcount⟩ ha hstep
      obtain ⟨_, hbase, hn⟩ := Machine.observe_step hstep
      refine ⟨hkept.step hG (paired_of_barrierCalls ha) hbase, ?_⟩
      rw [hn]
      exact hcount.step hkept.toSound ha hbase
  obtain ⟨hkept, hcount⟩ := hinv
  refine ⟨hcount.2, hcount.1, fun hfull w hw => ?_⟩
  exact hkept.somebody_called (by simpa [syncbarrierGuard] using hfull) hw

/-- A task that waits for two wakes, of which the second has come while it goes round the loop. -/
theorem syncbarrier_waits_for_two :
    ∃ p, (syncbarrierMachine 2).ReachableWhen BarrierCalls p ∧ p.1.waits (.task 0) = true ∧
      p.2 = ⟨2, 0⟩ ∧ ∃ v, p.1.Coming v := by
  have hrun : ((syncbarrierMachine 2).execWhen BarrierCalls
      (⟨syncenvNew, 0, [], [], fun _ => .outside⟩, ⟨0, 0⟩)
      [.env (.create 0 true), .env (.wake 0), .env .pickUp, .enter (.task 0), .yield 0,
        .env (.swap 0), .env (.switchBack 0), .release none 0, .env .pickUp, .again (.task 0),
        .release none 0]).map
      (fun p => (p.1.waits (.task 0), p.1.data, p.2)) = some (true, 2, ⟨2, 0⟩) := by
    decide +kernel
  obtain ⟨p, hp, hobs⟩ := Option.map_eq_some_iff.mp hrun
  have hstart : (syncbarrierMachine 2).ReachableWhen BarrierCalls
      (⟨syncenvNew, 0, [], [], fun _ => .outside⟩, ⟨0, 0⟩) := .start ⟨rfl, rfl⟩
  simp only [Prod.mk.injEq] at hobs
  have hreach := hstart.execWhen _ hp
  obtain ⟨v, hv, _⟩ := (syncbarrier_waits_for (by decide) hreach).2.2 (by rw [hobs.2.1]) _ hobs.1
  exact ⟨p, hreach, hobs.1, hobs.2.2, v, hv⟩

end GlusterFS.Syncop
