import GlusterFS.Locks.Posix

/-!
# The wake-up of blocked posix locks

After every operation `grant_blocked_locks` looks for blocked locks that can be granted
now.  It selects its candidates with `first_overlap`, which knows neither owners nor
types: a blocked lock that overlaps *any* granted lock is not looked at again.  A lock is
granted with `__is_lock_grantable`, which lets read locks share bytes and ignores the
locks of the same owner.  Between the two a waiter can be left asleep that nothing
stands in the way of.

`WakeSafe` leaves those cases out: a waiter that overlaps a granted lock at all overlaps
one that it conflicts with, and no owner has two waiters (the second one could change
the locks of the owner in the middle of the pass).  Under it every waiter that is left is
held up by a granted lock of another owner.
-/

namespace GlusterFS.Locks

/-- Every lock that waits conflicts with a granted lock of another owner. -/
def NoSleeper (exts : List PosixLock) : Prop :=
  ∀ l ∈ exts, l.blocked = true → isLockGrantable exts l = false

instance (exts : List PosixLock) : Decidable (NoSleeper exts) :=
  inferInstanceAs (Decidable (∀ l ∈ exts, _))

/-- A waiter that overlaps a granted lock overlaps one of another owner with a write lock on
either side; and no two waiters have the same owner. -/
def WakeSafe (s : PosixState) : PosixAct → Prop
  | .grant =>
      (∀ l ∈ s.exts, l.blocked = true →
        (∃ x ∈ s.exts, x.blocked = false ∧ locksOverlap x l = true) →
        ∃ x ∈ s.exts, conflicts x l = true) ∧
      s.exts.Pairwise fun l₁ l₂ => l₁.blocked = true → l₂.blocked = true →
        sameOwner l₁ l₂ = false
  | _ => True

instance (s : PosixState) (a : PosixAct) : Decidable (WakeSafe s a) :=
  match a with
  | .grant => inferInstanceAs (Decidable ((∀ l ∈ s.exts, _) ∧ _))
  | .setlk .. | .deleteFd _ | .deleteOwner .. => isTrue trivial

theorem isLockGrantable_eq_false {exts : List PosixLock} {lock : PosixLock} :
    isLockGrantable exts lock = false ↔ ∃ x ∈ exts, conflicts x lock = true := by
  simp [isLockGrantable]

/-- A lock that overlaps no granted lock of its owner is added as it is. -/
theorem insertAndMerge_append {exts : List PosixLock} {lock : PosixLock}
    (htype : lock.flType ≠ .unlck)
    (hown : ∀ x ∈ exts, x.blocked = false → locksOverlap x lock = true →
      sameOwner x lock = false) : insertAndMerge exts lock = exts ++ [lock] := by
  rw [insertAndMerge, insertAndMergeFuel]
  cases hmeet : meet lock exts with
  | reader => rfl
  | nothing => simp [htype]
  | own conf rest =>
      obtain ⟨hblocked, hoverlap, hsame, before, after, rfl, _⟩ := meet_own hmeet
      rw [hown conf (by simp) hblocked hoverlap] at hsame
      cases hsame

/-- How far the second loop of `__grant_blocked_locks` has come. -/
structure Waking (exts : List PosixLock) (todo cur : List PosixLock) : Prop where
  /-- Every waiter that is left is held up. -/
  held : ∀ l ∈ cur, l.blocked = true → ∃ x ∈ cur, conflicts x l = true
  /-- A granted lock has been granted before, or its waiter has been taken from the list. -/
  granted : ∀ x ∈ cur, x.blocked = false →
    x ∈ exts ∨ ∀ l ∈ todo, sameOwner x l = false

/-- The loop looks at one lock. -/
theorem Waking.step {exts todo cur answered : List PosixLock} {l : PosixLock}
    (h : Waking exts (l :: todo) cur) (htype : l.flType ≠ .unlck)
    (hfree : firstOverlap exts l = none) (hapart : ∀ l' ∈ todo, sameOwner l l' = false) :
    Waking exts todo (grantOne (cur, answered) l).1 := by
  have hfree : ∀ x ∈ exts, x.blocked = false → locksOverlap x l = false := by
    intro x hx hb
    have := List.find?_eq_none.mp hfree x hx
    simpa [hb] using this
  unfold grantOne
  split
  · have hadd : insertAndMerge cur { l with blocked := false }
        = cur ++ [{ l with blocked := false }] := by
      refine insertAndMerge_append htype fun x hx hb hoverlap => ?_
      rcases h.granted x hx hb with hold | hnew
      · exact absurd (hfree x hold hb) (by simpa [locksOverlap] using hoverlap)
      · exact hnew l List.mem_cons_self
    dsimp only
    rw [hadd]
    refine ⟨fun x hx hb => ?_, fun x hx hb => ?_⟩
    · rcases List.mem_append.mp hx with hx | hx
      · obtain ⟨y, hy, hconf⟩ := h.held x hx hb
        exact ⟨y, List.mem_append_left _ hy, hconf⟩
      · rw [List.mem_singleton.mp hx] at hb
        cases hb
    · rcases List.mem_append.mp hx with hx | hx
      · exact (h.granted x hx hb).imp_right fun hnew l' hl' =>
          hnew l' (List.mem_cons_of_mem _ hl')
      · rw [List.mem_singleton.mp hx]
        exact .inr hapart
  · next hnot =>
    obtain ⟨y, hy, hconf⟩ := isLockGrantable_eq_false.mp (Bool.eq_false_of_not_eq_true hnot)
    refine ⟨fun x hx hb => ?_, fun x hx hb => ?_⟩
    · rcases List.mem_append.mp hx with hx | hx
      · obtain ⟨z, hz, hconf'⟩ := h.held x hx hb
        exact ⟨z, List.mem_append_left _ hz, hconf'⟩
      · rw [List.mem_singleton.mp hx]
        exact ⟨y, List.mem_append_left _ hy, hconf⟩
    · rcases List.mem_append.mp hx with hx | hx
      · exact (h.granted x hx hb).imp_right fun hnew l' hl' =>
          hnew l' (List.mem_cons_of_mem _ hl')
      · rw [List.mem_singleton.mp hx] at hb
        cases hb

/-- **A pass that is `WakeSafe` leaves nobody asleep.** -/
theorem grantBlockedLocks_noSleeper {s : PosixState} {lo : ℤ} (hok : ExtsOk lo s.exts)
    (hsafe : WakeSafe s .grant) : NoSleeper (grantBlockedLocks s.exts).1 := by
  obtain ⟨hheld, hapart⟩ := hsafe
  have loop : ∀ (todo : List PosixLock) (state : List PosixLock × List PosixLock),
      (∀ l ∈ todo, l.flType ≠ .unlck ∧ firstOverlap s.exts l = none) →
      todo.Pairwise (fun l₁ l₂ => sameOwner l₁ l₂ = false) → Waking s.exts todo state.1 →
      Waking s.exts [] (todo.foldl grantOne state).1 := by
    intro todo
    induction todo with
    | nil => exact fun _ _ _ h => h
    | cons l todo ih =>
        intro state htodo hpair h
        obtain ⟨hl, hpair⟩ := List.pairwise_cons.mp hpair
        obtain ⟨htype, hfree⟩ := htodo l List.mem_cons_self
        exact ih _ (fun x hx => htodo x (List.mem_cons_of_mem _ hx)) hpair
          (h.step htype hfree hl)
  have hwaking : Waking s.exts [] (grantBlockedLocks s.exts).1 := by
    refine loop _ _ (fun l hl => ?_) ?_ ⟨fun l hl hb => ?_, fun x hx _ => ?_⟩
    · obtain ⟨hl, hsel⟩ := List.mem_filter.mp hl
      simp only [selected, Bool.and_eq_true, Option.isNone_iff_eq_none] at hsel
      exact ⟨hok.typed l hl, hsel.2⟩
    · refine (hapart.sublist List.filter_sublist).imp_of_mem fun h₁ h₂ h => ?_
      have hb : ∀ {l}, l ∈ s.exts.filter (selected s.exts) → l.blocked = true := fun hl => by
        have := (List.mem_filter.mp hl).2
        simp only [selected, Bool.and_eq_true] at this
        exact this.1
      exact h (hb h₁) (hb h₂)
    · -- a waiter that is not selected overlaps a granted lock
      obtain ⟨hl, hsel⟩ := List.mem_filter.mp hl
      have hsome : (firstOverlap s.exts l).isSome = true := by
        simpa [selected, hb] using hsel
      obtain ⟨x, hx⟩ := Option.isSome_iff_exists.mp hsome
      have hxp := List.find?_some hx
      simp only [Bool.and_eq_true, Bool.not_eq_true'] at hxp
      obtain ⟨y, hy, hconf⟩ := hheld l hl hb ⟨x, List.mem_of_find?_eq_some hx, hxp⟩
      refine ⟨y, List.mem_filter.mpr ⟨hy, ?_⟩, hconf⟩
      simp [selected, (conflicts_iff.mp hconf).1]
    · exact .inl (List.mem_of_mem_filter hx)
  intro l hl hb
  exact isLockGrantable_eq_false.mpr (hwaking.held l hl hb)

/-- **In every run whose passes are `WakeSafe`, when all operations have completed every lock
that waits conflicts with a granted lock of another owner.** -/
theorem no_grantable_waiter {s : PosixState} (h : posixLocks.ReachableWhen WakeSafe s)
    (hdone : s.pending = 0) : NoSleeper s.exts := by
  have hall : ExtsOk (-2 ^ 63) s.exts ∧ (s.pending = 0 → NoSleeper s.exts) := by
    refine h.invariant (fun s => ExtsOk (-2 ^ 63) s.exts ∧ (s.pending = 0 → NoSleeper s.exts)) ?_ ?_
    · rintro s rfl
      exact ⟨ExtsOk.nil, fun _ => nofun⟩
    · rintro s a s' ⟨hok, _⟩ hsafe hstep
      refine ⟨posixStep_ok hstep (.inr le_rfl) hok, fun hpending => ?_⟩
      cases a with
      | setlk flock canBlock =>
          simp only [posixLocks, posixStep] at hstep
          split at hstep
          · cases hstep
            cases hpending
          · cases hstep
      | deleteFd | deleteOwner =>
          cases hstep
          cases hpending
      | grant =>
          cases hstep
          exact grantBlockedLocks_noSleeper hok hsafe
  exact hall.2 hdone

/-- Two writers wait for a third one; it unlocks, and the first of them holds up the
second. -/
def writersRun : List PosixAct :=
  [.setlk ⟨.wrlck, 0, 10, 1, 1, 1⟩ false, .grant, .setlk ⟨.wrlck, 5, 10, 2, 1, 2⟩ true, .grant,
    .setlk ⟨.wrlck, 8, 10, 3, 1, 3⟩ true, .grant, .setlk ⟨.unlck, 0, 10, 1, 1, 1⟩ false, .grant]

theorem no_grantable_waiter_writers : ∃ s, posixLocks.ReachableWhen WakeSafe s ∧
    s.exts = [⟨.wrlck, 5, 14, false, 2, 1, 2⟩, ⟨.wrlck, 8, 17, true, 3, 1, 3⟩] ∧
    NoSleeper s.exts := by
  obtain ⟨s, hrun, hpending, hexts⟩ :
      ∃ s, posixLocks.execWhen WakeSafe ⟨[], 0⟩ writersRun = some s ∧ s.pending = 0 ∧
        s.exts = [⟨.wrlck, 5, 14, false, 2, 1, 2⟩, ⟨.wrlck, 8, 17, true, 3, 1, 3⟩] :=
    ⟨_, rfl, by decide, by decide⟩
  have h := Machine.ReachableWhen.execWhen (.start rfl) writersRun hrun
  exact ⟨s, h, hexts, no_grantable_waiter h hpending⟩

/-- **A reader waits for a writer and overlaps another reader; the writer unlocks, and the
reader stays asleep although it is grantable.** -/
theorem reader_left_asleep : ∃ s, posixLocks.Reachable s ∧ s.pending = 0 ∧
    s.exts = [⟨.rdlck, 20, 29, false, 2, 1, 2⟩, ⟨.rdlck, 5, 24, true, 3, 1, 3⟩] ∧
    isLockGrantable s.exts ⟨.rdlck, 5, 24, true, 3, 1, 3⟩ = true ∧ ¬ NoSleeper s.exts := by
  obtain ⟨s, hrun, hrest⟩ :
      ∃ s, posixLocks.exec ⟨[], 0⟩
          [.setlk ⟨.wrlck, 0, 10, 1, 1, 1⟩ false, .grant, .setlk ⟨.rdlck, 20, 10, 2, 1, 2⟩ false,
            .grant, .setlk ⟨.rdlck, 5, 20, 3, 1, 3⟩ true, .grant,
            .setlk ⟨.unlck, 0, 10, 1, 1, 1⟩ false, .grant] = some s ∧ s.pending = 0 ∧
        s.exts = [⟨.rdlck, 20, 29, false, 2, 1, 2⟩, ⟨.rdlck, 5, 24, true, 3, 1, 3⟩] ∧
        isLockGrantable s.exts ⟨.rdlck, 5, 24, true, 3, 1, 3⟩ = true ∧ ¬ NoSleeper s.exts :=
    ⟨_, rfl, by decide, by decide, by decide, by decide⟩
  exact ⟨s, Machine.Reachable.exec (.start rfl) _ hrun, hrest⟩

end GlusterFS.Locks
