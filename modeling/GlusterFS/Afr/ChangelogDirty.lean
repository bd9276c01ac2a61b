import GlusterFS.Afr.ChangelogSteps

/-!
# A dirty mark under every transaction

As long as a transaction on several bricks is at work, each of them should have a dirty mark,
so that a crash leaves a trace of it; and when the transaction fails in a way that cannot be
recorded as an accusation, the mark should stay.  The marks are shared, and who shares a mark
with others may not be the one to clear it.

The accounts of `ChangelogSteps` give the first half: who holds a share has a mark on its
bricks (`ChangelogState.Ok.dirty_pos`).  A transaction is without a share from the moment at
which `afr_changelog_pre_op_uninherit` has told it that somebody else will clear the mark.  This
is the end of it if nothing has failed.  But a transaction that has failed on some of its
bricks has still to accuse them.  Before that `afr_changelog_post_op_safe` may wait for an
fsync, and meanwhile the others may finish and clear the mark.

For the second half, a transaction that ends with an error and had a mark to clear leaves it
behind.  One that was told that somebody else will clear the mark leaves nothing, and somebody
else clears it.
-/

namespace GlusterFS.Afr

open SharedMark

variable {n N : ℕ}

/-! ## Marks and shares -/

section Marks

variable {s : ChangelogState n N} {account : Subvols n → Account}

/-- The marks of one set of bricks are among those of each of the bricks. -/
theorem Follows.marks_le_dirty (h : Follows s account) {D : Subvols n} {k : Fin n} (hk : k ∈ D) :
    (account D).marks ≤ s.dirty k := by
  rw [h.dirty]
  refine Finset.single_le_sum (f := fun D => (account D).marks) (fun D' _ => ?_)
    (Finset.mem_filter.mpr ⟨Finset.mem_univ D, hk⟩)
  exact le_trans (Int.natCast_nonneg _) (h.ok D').kept_le_marks

/-- **Who holds a share has a dirty mark on each of its bricks.** -/
theorem ChangelogState.Ok.dirty_pos (h : s.Ok) {t : Fin N} {c : Share}
    (hshare : (s.threads t).share = some c) {k : Fin n} (hk : k ∈ (s.threads t).preOp) :
    0 < s.dirty k := by
  obtain ⟨account, hfollows⟩ := h.follows
  refine lt_of_lt_of_le ((hfollows.ok (s.threads t).preOp).marks_pos (c := c) ?_)
    (hfollows.marks_le_dirty hk)
  rw [hfollows.held]
  exact tally_pos_of_mem (Finset.mem_univ t) ⟨rfl, hshare⟩

/-- Who leaves a mark behind leaves one on each of its bricks. -/
theorem ChangelogState.Ok.dirty_pos_of_leaves (h : s.Ok) {t : Fin N}
    (hleaves : (s.threads t).Leaves) {k : Fin n} (hk : k ∈ (s.threads t).preOp) :
    0 < s.dirty k := by
  obtain ⟨account, hfollows⟩ := h.follows
  have hkept : (0 : ℤ) < (account (s.threads t).preOp).kept :=
    Int.natCast_pos.mpr (hfollows.leaves t hleaves)
  exact hkept.trans_le ((hfollows.ok _).kept_le_marks.trans (hfollows.marks_le_dirty hk))

end Marks

/-! ## What a step does to its transaction -/

section Steps

variable {priv : AfrPrivate} {s s' : ChangelogState n N} {a : ChangelogAct n N}

/-- A transaction ends with an error although it has failed on some of its bricks only, or not
in the same way on all of them. -/
def Transaction.Lost (x : Transaction n) : Prop :=
  1 < x.preOp.card ∧ x.opRet < 0 ∧ x.failedSubvols.Nonempty

instance (x : Transaction n) : Decidable x.Lost :=
  inferInstanceAs (Decidable (1 < x.preOp.card ∧ x.opRet < 0 ∧ x.failedSubvols.Nonempty))

/-- How a transaction comes to wait for an fsync, and how it ends. -/
structure Outcome (priv : AfrPrivate) (s : ChangelogState n N) (a : ChangelogAct n N)
    (y : Transaction n) : Prop where
  fsync : y.phase = .fsync → (s.threads a.thread).phase = .resumed ∧
    ∃ delay witnessed, a = .postOp a.thread delay witnessed ∧
      y = (afrChangelogPostOp priv s.fd (s.threads a.thread) delay witnessed).2
  done : y.phase = .done → y.Lost →
    a = .finish a.thread ∧ y = { s.threads a.thread with phase := .done }

theorem Outcome.of_phase {y : Transaction n} (hfsync : y.phase ≠ .fsync) (hdone : y.phase ≠ .done) :
    Outcome priv s a y := ⟨fun h => absurd h hfsync, fun h => absurd h hdone⟩

theorem preOp_outcome (t : Fin N) (compat : Bool) (locked : Subvols n) :
    ∃ y, (s.afrChangelogPreOp priv t compat locked).threads = Function.update s.threads t y ∧
      Outcome priv s (.preOp t compat locked) y := by
  rcases ChangelogState.afrChangelogPreOp_cases priv s t compat locked with
    heq | ⟨_, _, ⟨_, _, heq⟩ | ⟨_, heq⟩ | ⟨p, hp, heq⟩⟩
  · rw [heq]
    refine ⟨_, rfl, nofun, fun _ hlost => ?_⟩
    exact absurd hlost.2.2 Finset.not_nonempty_empty
  · rw [heq]
    exact ⟨_, rfl, .of_phase nofun nofun⟩
  · rw [heq]
    exact ⟨_, rfl, .of_phase nofun nofun⟩
  · rw [heq]
    rcases hp with ⟨rfl, _⟩ | ⟨rfl, _⟩ <;> exact ⟨_, rfl, .of_phase nofun nofun⟩

theorem postOp_phase_ne_done (fd : FdCtx n) (x : Transaction n) (delay witnessed : Bool) :
    (afrChangelogPostOp priv fd x delay witnessed).2.phase ≠ .done := by
  unfold afrChangelogPostOp
  split
  · nofun
  · rcases @postOpSafe_cases _ priv fd x witnessed with ⟨_, _, heq⟩ | ⟨_, _, _, heq⟩ <;>
      rw [heq] <;> nofun

theorem step_outcome (hstep : changelogStep priv s a = some s') :
    ∃ y, s'.threads = Function.update s.threads a.thread y ∧ Outcome priv s a y := by
  cases a with
  | preOp t compat locked =>
      obtain ⟨_, heq⟩ := Option.ite_none_right_eq_some.mp hstep
      cases heq
      exact preOp_outcome t compat locked
  | performFop t failed | resume t replies | fsync t failed | wakeUp t =>
      obtain ⟨_, heq⟩ := Option.ite_none_right_eq_some.mp hstep
      cases heq
      exact ⟨_, rfl, .of_phase (by rintro ⟨⟩) (by rintro ⟨⟩)⟩
  | postOp t delay witnessed =>
      obtain ⟨hphase, heq⟩ := Option.ite_none_right_eq_some.mp hstep
      cases heq
      exact ⟨_, rfl, fun _ => ⟨hphase, delay, witnessed, rfl, rfl⟩,
        fun h => absurd h (postOp_phase_ne_done _ _ _ _)⟩
  | finish t =>
      have hthreads : s'.threads = Function.update s.threads t { s.threads t with phase := .done } := by
        simp only [changelogStep] at hstep
        split at hstep
        · cases hstep
          unfold ChangelogState.afrChangelogPostOpSend
          dsimp only
          split
          · rfl
          · split <;> rfl
        · cases hstep
      exact ⟨_, hthreads, (by rintro ⟨⟩), fun _ _ => ⟨rfl, rfl⟩⟩

end Steps

/-! ## While a transaction is at work -/

/-- A transaction is between its pre-op and its post-op: `afr_changelog_post_op_now` has not
been called for it. -/
def Transaction.InFlight (x : Transaction n) : Prop :=
  match x.phase with
  | .preOp | .fop | .resumed | .delayed | .fsync => True
  | .idle | .postOp _ | .done => False

/-- The mark of a transaction is left to others: it is one of several that share a mark on
their bricks, or it had inherited one and the context names other bricks by now. -/
def LeftToOthers (fd : FdCtx n) (x : Transaction n) : Prop :=
  x.noUninherit = false ∧ (x.preOp = fd.preOpDone ∧ 0 < fd.inherited ∨
    x.preOp ≠ fd.preOpDone ∧ x.dirtied = false)

/-- No transaction on several bricks that has failed on one of them waits for an fsync when its
mark is left to others. -/
def NoFsyncUnmarked (priv : AfrPrivate) (s : ChangelogState n N) : ChangelogAct n N → Prop
  | .postOp t _ witnessed =>
      witnessed = true → priv.ensureDurability = true → 1 < (s.threads t).preOp.card →
        (s.threads t).failedSubvols.Nonempty → ¬ LeftToOthers s.fd (s.threads t)
  | _ => True

section InFlight

variable {priv : AfrPrivate} {s s' : ChangelogState n N} {a : ChangelogAct n N}

/-- `afr_changelog_pre_op_uninherit` answers true only when the mark is left to others. -/
theorem leftToOthers_of_uninherit {fd : FdCtx n} {x : Transaction n} (hfd : fd.Ok) (hx : x.Working)
    (huninherit : x.uninherit = none) (hvalue : (afrChangelogPreOpUninherit fd x).2.2 = true) :
    LeftToOthers fd x := by
  rcases uninherit_cases fd x with ⟨_, heq⟩ | ⟨hiso, ⟨found, hfound, _⟩ | ⟨_, heq⟩⟩
  · rw [heq] at hvalue
    cases hvalue
  · exact absurd (huninherit.symm.trans hfound) nofun
  · rw [heq] at hvalue
    refine ⟨hiso, ?_⟩
    rcases fdUninherit_cases hfd hx.nonempty with
      ⟨hne, hcase⟩ | ⟨hdone, _, ⟨hlent, hcase⟩ | ⟨_, hcase⟩⟩
    · rw [hcase] at hvalue
      exact .inr ⟨hne, by simpa [Uninherit.value] using hvalue⟩
    · exact .inl ⟨hdone, hlent⟩
    · rw [hcase] at hvalue
      cases hvalue

/-- After `afr_changelog_pre_op_uninherit` the answer can be read off the transaction. -/
theorem needUndirty_uninherit (fd : FdCtx n) (x : Transaction n) :
    (afrChangelogPreOpUninherit fd x).2.1.needUndirty = !(afrChangelogPreOpUninherit fd x).2.2 := by
  rcases uninherit_cases fd x with ⟨hiso, heq⟩ | ⟨hiso, ⟨found, hfound, heq⟩ | ⟨_, heq⟩⟩
  · simp [heq, Transaction.needUndirty, hiso]
  · simp [heq, Transaction.needUndirty, hiso, hfound]
  · simp [heq, Transaction.needUndirty, hiso]

/-- Who waits for an fsync has a mark to clear. -/
def FsyncMarked (s : ChangelogState n N) : Prop :=
  ∀ t, (s.threads t).phase = .fsync → 1 < (s.threads t).preOp.card →
    (s.threads t).needUndirty = true

theorem FsyncMarked.step (h : FsyncMarked s) (hok : s.Ok) (hcond : NoFsyncUnmarked priv s a)
    (hstep : changelogStep priv s a = some s') : FsyncMarked s' := by
  obtain ⟨y, hthreads, hout⟩ := step_outcome hstep
  intro t hphase hcard
  rw [hthreads] at hphase hcard ⊢
  by_cases ht : t = a.thread
  · subst ht
    rw [Function.update_self] at hphase hcard ⊢
    obtain ⟨hresumed, delay, witnessed, ha, rfl⟩ := hout.fsync hphase
    have hx : (s.threads a.thread).Working :=
      hok.working (by rw [hresumed]; nofun) (by rw [hresumed]; nofun)
    have huninherit : (s.threads a.thread).uninherit = none := by simpa [hresumed] using hx.phase
    have hpreOp := (@postOp_ran _ _ _ priv hok.fd hx hresumed delay witnessed).preOp
    rw [ha] at hcond
    unfold afrChangelogPostOp at hphase ⊢
    split at hphase
    · cases hphase
    · next hdelay =>
      rw [if_neg hdelay]
      rcases @postOpSafe_cases _ priv s.fd (s.threads a.thread) witnessed with
        ⟨_, _, heq⟩ | ⟨hfailed, hwitnessed, hdurable, heq⟩
      · rw [heq] at hphase
        cases hphase
      · rw [heq]
        refine (needUndirty_uninherit s.fd (s.threads a.thread)).trans ?_
        cases hvalue : (afrChangelogPreOpUninherit s.fd (s.threads a.thread)).2.2 with
        | false => rfl
        | true =>
            exact absurd (leftToOthers_of_uninherit hok.fd hx huninherit hvalue)
              (hcond hwitnessed hdurable (hpreOp ▸ hcard) (hfailed hvalue))
  · rw [Function.update_of_ne ht] at hphase hcard ⊢
    exact h t hphase hcard

/-- A transaction on several bricks that is in flight holds a share. -/
theorem Transaction.Working.share_inFlight {x : Transaction n} (hx : x.Working) (h : x.InFlight)
    (hcard : 1 < x.preOp.card) (hfsync : x.phase = .fsync → x.needUndirty = true) :
    ∃ c, x.share = some c := by
  have hphase := hx.phase
  have hform : x.share = if x.noUninherit then some .isolated
      else if x.uninherit.isSome then if x.needUndirty then some .due else none
      else if x.inherited then some .borrower
      else if x.dirtied then some (if x.beforeUpdate then .fresh else .settled)
      else none := by
    unfold Transaction.InFlight at h
    unfold Transaction.share
    cases hp : x.phase <;> rw [hp] at h <;> first | rfl | exact h.elim
  rw [hform]
  by_cases hiso : x.noUninherit = true
  · exact ⟨_, if_pos hiso⟩
  rw [if_neg hiso]
  by_cases hfound : x.uninherit.isSome = true
  · -- only who waits for an fsync has called `afr_changelog_pre_op_uninherit`
    have hp : x.phase = .fsync := by
      unfold Transaction.InFlight at h
      cases hp : x.phase <;> rw [hp] at h hphase <;> simp_all
    exact ⟨.due, by rw [if_pos hfound, if_pos (hfsync hp)]⟩
  rw [if_neg hfound]
  by_cases hinherited : x.inherited = true
  · exact ⟨_, if_pos hinherited⟩
  · exact ⟨_, by rw [if_neg hinherited, if_pos ((hx.shared.mp hcard).resolve_right hinherited)]⟩

/-- **A transaction on several bricks that is between its pre-op and its post-op has a dirty mark
on each of them**, when nobody waits for an fsync while its mark is left to others. -/
theorem dirty_while_in_flight
    (h : (changelogMachine priv n N).ReachableWhen (NoFsyncUnmarked priv) s) {t : Fin N}
    (ht : (s.threads t).InFlight) (hcard : 1 < (s.threads t).preOp.card) {k : Fin n}
    (hk : k ∈ (s.threads t).preOp) : 1 ≤ s.dirty k := by
  have hok := changelog_ok h.reachable
  have hmarked : s.Ok ∧ FsyncMarked s := by
    refine h.invariant (fun s => s.Ok ∧ FsyncMarked s) ?_ ?_
    · rintro s rfl
      exact ⟨ChangelogState.initial_ok, nofun⟩
    · intro s a s' hs hcond hstep
      exact ⟨hs.1.step hstep, hs.2.step hs.1 hcond hstep⟩
  have hx : (s.threads t).Working := by
    refine hok.working ?_ ?_ <;> intro hphase <;> simp [Transaction.InFlight, hphase] at ht
  obtain ⟨c, hshare⟩ := hx.share_inFlight ht hcard fun hphase => hmarked.2 t hphase hcard
  exact hok.dirty_pos hshare hk

end InFlight

/-- Brick 0 has written ten bytes, and brick 1 too, unless it fails with `EIO`. -/
def tenBytes (fails : Bool) (i : Fin 2) : FopReply := if fails ∧ i = 1 then ⟨-1, 5⟩ else ⟨10, 0⟩

/-- The second of two transactions inherits the mark of the first one. -/
def inheriting : List (ChangelogAct 2 2) :=
  [.preOp 0 true bothBricks, .performFop 0 ∅, .preOp 1 true bothBricks]

theorem dirty_while_in_flight_inherited : ∃ s : ChangelogState 2 2,
    (s.threads 1).inherited = true ∧ (s.threads 1).dirtied = false ∧ 1 ≤ s.dirty 0 := by
  have hresult : ((changelogMachine ⟨0, true⟩ 2 2).exec .initial inheriting).map
      (fun s => ((s.threads 1).inherited, (s.threads 1).dirtied, (s.threads 1).phase,
        (s.threads 1).preOp)) = some (true, false, .fop, bothBricks) := by decide +kernel
  obtain ⟨s, hrun, heq⟩ := Option.map_eq_some_iff.mp hresult
  simp only [Prod.mk.injEq] at heq
  obtain ⟨hinherited, hdirtied, hphase, hpreOp⟩ := heq
  refine ⟨s, hinherited, hdirtied, ?_⟩
  have hreachable : (changelogMachine ⟨0, true⟩ 2 2).ReachableWhen (NoFsyncUnmarked ⟨0, true⟩) s :=
    Machine.ReachableWhen.exec (.start rfl) inheriting
      (fun a ha s => by
        simp only [inheriting, List.mem_cons, List.not_mem_nil, or_false] at ha
        rcases ha with rfl | rfl | rfl <;> trivial) hrun
  have hflight : (s.threads 1).InFlight := by
    rw [Transaction.InFlight, hphase]
    trivial
  exact dirty_while_in_flight hreachable hflight (by rw [hpreOp]; decide) (by rw [hpreOp]; decide)

/-- The second transaction fails on brick 1, gives its inherited mark back and waits for an
fsync.  The first one ends meanwhile and clears the marks: the second one has still to accuse
brick 1, and nothing on the bricks says so. -/
theorem mark_cleared_during_fsync : ∃ s : ChangelogState 2 2,
    (changelogMachine ⟨0, true⟩ 2 2).Reachable s ∧ (s.threads 1).InFlight ∧
      1 < (s.threads 1).preOp.card ∧ 0 ≤ (s.threads 1).opRet ∧ (1 : Fin 2) ∈ (s.threads 1).failedSubvols ∧
      (0 : Fin 2) ∈ (s.threads 1).preOp ∧ s.dirty 0 = 0 ∧ s.accusations 0 1 = 0 := by
  have hresult : ((changelogMachine ⟨0, true⟩ 2 2).exec .initial (inheriting ++
      [.resume 1 (tenBytes true), .postOp 1 false true, .resume 0 (tenBytes false),
        .postOp 0 false true, .fsync 0 ∅, .finish 0])).map
      (fun s => ((s.threads 1).phase, (s.threads 1).preOp, (s.threads 1).opRet,
        (s.threads 1).failedSubvols, s.dirty 0, s.accusations 0 1)) =
      some (.fsync, bothBricks, 10, {1}, 0, 0) := by decide +kernel
  obtain ⟨s, hrun, heq⟩ := Option.map_eq_some_iff.mp hresult
  simp only [Prod.mk.injEq] at heq
  obtain ⟨hphase, hpreOp, hopRet, hfailed, hdirty, haccusations⟩ := heq
  refine ⟨s, Machine.Reachable.exec (.start rfl) _ hrun, ?_, ?_, ?_, ?_, ?_, hdirty, haccusations⟩
  · rw [Transaction.InFlight, hphase]
    trivial
  · rw [hpreOp]
    decide
  · rw [hopRet]
    decide
  · rw [hfailed]
    decide
  · rw [hpreOp]
    decide

/-! ## After a transaction has failed -/

/-- No transaction that is lost has given back an inherited mark. -/
def LostKeepsMark (s : ChangelogState n N) : ChangelogAct n N → Prop
  | .finish t => (s.threads t).Lost → (s.threads t).uninherit ≠ some .inherited
  | _ => True

section Lost

variable {priv : AfrPrivate} {s s' : ChangelogState n N} {a : ChangelogAct n N}

/-- The lost transactions that have ended. -/
def LostKept (s : ChangelogState n N) : Prop :=
  ∀ t, (s.threads t).phase = .done → (s.threads t).Lost →
    (s.threads t).uninherit ≠ some .inherited

theorem LostKept.step (h : LostKept s) (hcond : LostKeepsMark s a)
    (hstep : changelogStep priv s a = some s') : LostKept s' := by
  obtain ⟨y, hthreads, hout⟩ := step_outcome hstep
  intro t hdone hlost
  rw [hthreads] at hdone hlost ⊢
  by_cases ht : t = a.thread
  · subst ht
    rw [Function.update_self] at hdone hlost ⊢
    obtain ⟨ha, rfl⟩ := hout.done hdone hlost
    rw [ha] at hcond
    exact hcond hlost
  · rw [Function.update_of_ne ht] at hdone hlost ⊢
    exact h t hdone hlost

/-- A lost transaction that has not given back an inherited mark leaves one behind. -/
theorem Transaction.Working.leaves {x : Transaction n} (hx : x.Working) (hdone : x.phase = .done)
    (hlost : x.Lost) (hfound : x.uninherit ≠ some .inherited) : x.Leaves := by
  by_cases hneed : x.needUndirty = true
  · exact .inr ⟨hdone, hlost.2.1, hneed⟩
  · have hphase := hx.phase
    rw [hdone] at hphase
    have hiso : x.noUninherit = false :=
      Bool.eq_false_of_not_eq_true fun h => hneed (by simp [Transaction.needUndirty, h])
    obtain ⟨found, hsome⟩ := Option.isSome_iff_exists.mp (hphase.resolve_left (by simp [hiso]))
    have hvalue : found.value x.dirtied = true := by
      simpa [Transaction.needUndirty, hiso, hsome] using hneed
    cases found with
    | mismatch =>
        have hdirtied : x.dirtied = false := by simpa [Uninherit.value] using hvalue
        refine .inl ⟨hsome, (hx.shared.mp hlost.1).resolve_left (by simp [hdirtied])⟩
    | inherited => exact absurd hsome hfound
    | onDisk => cases hvalue
    | nothing => cases hvalue

/-- **A transaction that has failed without an accusation leaves a dirty mark on each of its
bricks**, when no such transaction has given back an inherited mark.  The mark is there from the
end of the transaction on. -/
theorem dirty_after_lost
    (h : (changelogMachine priv n N).ReachableWhen LostKeepsMark s) {t : Fin N}
    (hdone : (s.threads t).phase = .done) (hlost : (s.threads t).Lost) {k : Fin n}
    (hk : k ∈ (s.threads t).preOp) : 0 < s.dirty k := by
  have hok := changelog_ok h.reachable
  have hkept : LostKept s := by
    refine h.invariant LostKept ?_ fun s a s' hs hcond hstep => hs.step hcond hstep
    rintro s rfl
    exact nofun
  have hx : (s.threads t).Working := by
    rcases hok.threads t with heq | ⟨_, _, heq⟩ | hworking
    · rw [heq] at hdone
      cases hdone
    · rw [heq] at hlost
      exact absurd hlost.2.2 Finset.not_nonempty_empty
    · exact hworking
  exact hok.dirty_pos_of_leaves (hx.leaves hdone hlost (hkept t hdone hlost)) hk

end Lost

/-- A transaction with a mark of its own loses its quorum: the mark stays. -/
theorem dirty_after_lost_own : ∃ s : ChangelogState 2 1,
    (s.threads 0).phase = .done ∧ (s.threads 0).Lost ∧ 0 < s.dirty 0 := by
  have hresult : ((changelogMachine ⟨2, true⟩ 2 1).exec .initial
      [.preOp 0 true bothBricks, .performFop 0 ∅, .resume 0 (tenBytes true),
        .postOp 0 false false]).map (fun s => ((s.threads 0).uninherit,
        ((changelogMachine ⟨2, true⟩ 2 1).step s (.finish 0)).map fun s' =>
          ((s'.threads 0).phase, (s'.threads 0).preOp, decide (s'.threads 0).Lost))) =
      some (some .onDisk, some (.done, bothBricks, true)) := by decide +kernel
  obtain ⟨s, hrun, heq⟩ := Option.map_eq_some_iff.mp hresult
  obtain ⟨hfound, hfinish⟩ := Prod.mk.injEq _ _ _ _ ▸ heq
  obtain ⟨s', hstep, heq'⟩ := Option.map_eq_some_iff.mp hfinish
  simp only [Prod.mk.injEq, decide_eq_true_eq] at heq'
  obtain ⟨hdone, hpreOp, hlost⟩ := heq'
  have hreachable : (changelogMachine ⟨2, true⟩ 2 1).ReachableWhen LostKeepsMark s :=
    Machine.ReachableWhen.exec (.start rfl) _
      (fun a ha s => by
        simp only [List.mem_cons, List.not_mem_nil, or_false] at ha
        rcases ha with rfl | rfl | rfl | rfl <;> trivial) hrun
  have hcond : LostKeepsMark s (.finish 0) := fun _ => by
    rw [hfound]
    nofun
  exact ⟨s', hdone, hlost,
    dirty_after_lost (hreachable.next hcond hstep) hdone hlost (by rw [hpreOp]; decide)⟩

/-- The second transaction writes brick 0 but not brick 1, and so loses its quorum; it gives back
the inherited mark.  The first one ends and clears the marks: both bricks are clean and differ. -/
theorem lost_mark_cleared_by_another : ∃ s : ChangelogState 2 2,
    (changelogMachine ⟨2, true⟩ 2 2).Reachable s ∧ (∀ t, (s.threads t).phase = .done) ∧
      (s.threads 1).Lost ∧ (∀ k, k ∈ (s.threads 1).preOp) ∧ (∀ k, s.dirty k = 0) ∧
      ∀ k j, s.accusations k j = 0 := by
  have hresult : ((changelogMachine ⟨2, true⟩ 2 2).exec .initial (inheriting ++
      [.resume 1 (tenBytes true), .postOp 1 false false, .finish 1, .resume 0 (tenBytes false),
        .postOp 0 false false, .finish 0])).map
      (fun s => (decide (∀ t, (s.threads t).phase = .done), decide (s.threads 1).Lost,
        (s.threads 1).preOp, decide (∀ k, s.dirty k = 0),
        decide (∀ k j, s.accusations k j = 0))) =
      some (true, true, bothBricks, true, true) := by decide +kernel
  obtain ⟨s, hrun, heq⟩ := Option.map_eq_some_iff.mp hresult
  simp only [Prod.mk.injEq, decide_eq_true_eq] at heq
  obtain ⟨hdone, hlost, hpreOp, hdirty, haccusations⟩ := heq
  refine ⟨s, Machine.Reachable.exec (.start rfl) _ hrun, hdone, hlost, fun k => ?_, hdirty,
    haccusations⟩
  rw [hpreOp]
  exact Finset.mem_univ k

end GlusterFS.Afr
