import GlusterFS.Afr.Changelog

/-!
# The accounts of the changelog in every run

One lemma for each function of the changelog says what it does to the descriptor's context and
to the transaction it is called for (`Ran`): the transaction stays well formed, the context
changes for the bricks of the transaction only, and the change is an entry in the account of
these bricks.

* `update_ran`: `afr_changelog_pre_op_update` counts a fresh mark, lets it pass or isolates it.
* `release_ran`: the first call of `afr_changelog_pre_op_uninherit` gives back a lent mark, or
  takes a counted one that is then due to be cleared; when `pre_op_done` names other bricks, a
  transaction with a mark of its own clears it, and one that had inherited a mark leaves it.
* `uninherit_uninherit`: a second call changes nothing and has the same answer.  The call in
  `afr_changelog_post_op_safe` so decides what `afr_changelog_post_op_now` will do, perhaps
  after an fsync.

`changelog_ok` puts them together: in every reachable state the books are in order.
-/

namespace GlusterFS.Afr

open SharedMark

variable {n N : ℕ}

/-! ## One lemma for each function

`Ran` says what a function does to the context and to the transaction it is called for. -/

/-- A transaction has run from `x` to `y`. -/
structure Ran (fd fd' : FdCtx n) (x y : Transaction n) : Prop where
  ok : fd'.Ok
  preOp : y.preOp = x.preOp
  working : y.Working
  same : fd.SameBut fd' y.preOp
  entry : Entry fd fd' x y 0

section Functions

variable {fd : FdCtx n} {x y : Transaction n}

theorem FdCtx.SameBut.refl (fd : FdCtx n) (D : Subvols n) : fd.SameBut fd D :=
  fun _ _ => ⟨rfl, rfl⟩

/-- The share does not change. -/
theorem Entry.same (hshare : y.share = x.share) (hleaves : y.Leaves → x.Leaves) :
    Entry fd fd x y 0 := by
  intro a held hcounted hlent hmoves
  rw [hshare] at hmoves
  exact ⟨a, .inl rfl, hmoves.eq.symm, hcounted, hlent, (add_zero _).symm, fun h => .inl (hleaves h)⟩

/-- Before `afr_changelog_pre_op_update` a mark of its own is fresh. -/
theorem Transaction.Working.before (hx : x.Working) (hbefore : x.beforeUpdate = true) :
    x.uninherit = none ∧ x.noUninherit = false ∧
      x.share = if x.inherited then some .borrower else if x.dirtied then some .fresh else none := by
  have hphase := hx.phase
  have hflags : x.uninherit = none ∧ x.noUninherit = false := by
    simp only [Transaction.beforeUpdate, Bool.or_eq_true, Bool.and_eq_true, decide_eq_true_eq,
      Bool.not_eq_true'] at hbefore
    rcases hbefore with hp | ⟨hp, hcompat⟩
    · rw [hp] at hphase
      exact hphase.2.2
    · rw [hp] at hphase
      refine ⟨hphase.1, Bool.eq_false_of_not_eq_true fun hiso => ?_⟩
      exact absurd (hphase.2 hiso) (by simp [hcompat])
  refine ⟨hflags.1, hflags.2, ?_⟩
  have hstage : x.phase = .preOp ∨ x.phase = .fop := by
    simp only [Transaction.beforeUpdate, Bool.or_eq_true, Bool.and_eq_true, decide_eq_true_eq] at hbefore
    exact hbefore.imp_right And.left
  rcases hstage with hp | hp <;>
    simp [Transaction.share, hp, hflags.1, hflags.2, hbefore]

/-- After `afr_changelog_pre_op_update` it is settled or isolated. -/
theorem Transaction.share_after (hphase : x.phase = .fop ∨ x.phase = .resumed ∨ x.phase = .delayed)
    (huninherit : x.uninherit = none) (hbefore : x.beforeUpdate = false) :
    x.share = if x.noUninherit then some .isolated else if x.inherited then some .borrower
      else if x.dirtied then some .settled else none := by
  rcases hphase with hp | hp | hp <;> simp [Transaction.share, hp, huninherit, hbefore]

/-- What `afr_changelog_pre_op_update` can do. -/
theorem update_cases (fd : FdCtx n) (x : Transaction n) :
    afrChangelogPreOpUpdate fd x = (fd, x) ∨
    x.inherited = false ∧ x.dirtied = true ∧
      (fd.onDisk = 0 ∧
          afrChangelogPreOpUpdate fd x = ({ fd with preOpDone := x.preOp, onDisk := 1 }, x) ∨
        0 < fd.onDisk ∧ fd.preOpDone ≠ x.preOp ∧
          afrChangelogPreOpUpdate fd x = (fd, { x with noUninherit := true }) ∨
        0 < fd.onDisk ∧ fd.preOpDone = x.preOp ∧
          afrChangelogPreOpUpdate fd x = ({ fd with onDisk := fd.onDisk + 1 }, x)) := by
  unfold afrChangelogPreOpUpdate
  split
  · exact .inl rfl
  · next hcounts =>
    simp only [not_or, Bool.not_eq_true, Bool.not_eq_false] at hcounts
    refine .inr ⟨hcounts.1, hcounts.2.1, ?_⟩
    split
    · next h => exact .inl ⟨h, by rw [h]⟩
    · next h =>
      split
      · next hne => exact .inr (.inl ⟨Nat.pos_of_ne_zero h, hne, rfl⟩)
      · next heq => exact .inr (.inr ⟨Nat.pos_of_ne_zero h, not_not.mp heq, rfl⟩)

/-- A transaction that has called `afr_changelog_pre_op_update` and waits. -/
def Transaction.updated (x : Transaction n) (failed : Subvols n) (opRet : ℤ) (isolated : Bool)
    (p : Phase) : Transaction n :=
  { x with failedSubvols := failed, opRet := opRet, noUninherit := isolated, phase := p }

section Updated

variable {failed : Subvols n} {opRet : ℤ} {p : Phase}

/-- It waits for the answers to the write or has got them. -/
def Transaction.Passed (x : Transaction n) (p : Phase) : Prop :=
  p = .resumed ∨ p = .fop ∧ x.preOpCompat = true

theorem Transaction.Working.updated (hx : x.Working) (huninherit : x.uninherit = none)
    (hp : x.Passed p) {isolated : Bool} (hisolated : isolated = true → x.dirtied = true) :
    (x.updated failed opRet isolated p).Working := by
  refine ⟨hx.nonempty, hx.shared, hx.exclusive, fun h => ⟨hisolated h, huninherit⟩, ?_⟩
  rcases hp with rfl | ⟨rfl, hcompat⟩
  · exact huninherit
  · exact ⟨huninherit, fun _ => hcompat⟩

theorem Transaction.share_updated (huninherit : x.uninherit = none) (hp : x.Passed p)
    {isolated : Bool} : (x.updated failed opRet isolated p).share =
      if isolated then some .isolated else if x.inherited then some .borrower
        else if x.dirtied then some .settled else none := by
  refine Transaction.share_after ?_ huninherit ?_
  · rcases hp with rfl | ⟨rfl, _⟩
    · exact .inr (.inl rfl)
    · exact .inl rfl
  · rcases hp with rfl | ⟨rfl, hcompat⟩
    · rfl
    · simp [Transaction.updated, Transaction.beforeUpdate, hcompat]

theorem Transaction.not_leaves_updated (huninherit : x.uninherit = none) (hp : x.Passed p)
    {isolated : Bool} : ¬ (x.updated failed opRet isolated p).Leaves := by
  rintro (⟨h, _⟩ | ⟨h, _⟩)
  · exact absurd (huninherit.symm.trans h) nofun
  · rcases hp with rfl | ⟨rfl, _⟩ <;> cases h

/-- `afr_changelog_pre_op_update`: the mark is counted, is not, or is isolated. -/
theorem update_ran (hfd : fd.Ok) (hx : x.Working) (hbefore : x.beforeUpdate = true)
    (hp : x.Passed p) :
    Ran fd (afrChangelogPreOpUpdate fd { x with failedSubvols := failed, opRet := opRet }).1 x
      { (afrChangelogPreOpUpdate fd { x with failedSubvols := failed, opRet := opRet }).2 with
        phase := p } := by
  obtain ⟨huninherit, hnoUninherit, hshare⟩ := hx.before hbefore
  have hplain : ({ x with failedSubvols := failed, opRet := opRet, phase := p } : Transaction n) =
      x.updated failed opRet false p := by
    rw [Transaction.updated, ← hnoUninherit]
  rcases update_cases fd { x with failedSubvols := failed, opRet := opRet } with
    heq | ⟨hinherited, hdirtied, hcases⟩
  · rw [heq]
    simp only [hplain]
    refine ⟨hfd, rfl, hx.updated huninherit hp nofun, .refl _ _, ?_⟩
    by_cases hfresh : x.inherited = false ∧ x.dirtied = true
    · intro a held hcounted hlent hmoves
      rw [hshare, Transaction.share_updated huninherit hp] at hmoves
      simp only [hfresh.1, hfresh.2, if_true, Bool.false_eq_true, if_false] at hmoves
      exact ⟨_, .inr (.pass hmoves), rfl, hcounted, hlent, (add_zero _).symm,
        fun h => absurd h (Transaction.not_leaves_updated huninherit hp)⟩
    · refine Entry.same ?_ fun h => absurd h (Transaction.not_leaves_updated huninherit hp)
      rw [hshare, Transaction.share_updated huninherit hp]
      by_cases hinherited : x.inherited = true
      · simp [hinherited]
      · simp_all
  · have hseveral : 1 < x.preOp.card := hx.shared.mpr (.inl hdirtied)
    rw [hinherited, hdirtied] at hshare
    rcases hcases with ⟨hzero, heq⟩ | ⟨_, _, heq⟩ | ⟨hpos, hdone, heq⟩
    · obtain ⟨hlent, hdone⟩ := hfd.drained hzero
      rw [heq]
      simp only [hplain]
      refine ⟨⟨nofun, fun _ => hseveral⟩, rfl, hx.updated huninherit hp nofun, ?_, ?_⟩
      · intro D hD
        have hD' : D ≠ x.preOp := hD
        simp [FdCtx.counted, FdCtx.lent, hD', hzero, hlent]
      · intro a held hcounted hlent' hmoves
        rw [hshare, Transaction.share_updated huninherit hp, hinherited, hdirtied] at hmoves
        refine ⟨_, .inr (.register hmoves), rfl, ?_, ?_, (add_zero _).symm,
          fun h => absurd h (Transaction.not_leaves_updated huninherit hp)⟩
        · simp [hcounted, FdCtx.counted, hzero, Transaction.updated]
        · simp [hlent', FdCtx.lent, hlent]
    · rw [heq]
      change Ran fd fd x (x.updated failed opRet true p)
      refine ⟨hfd, rfl, hx.updated huninherit hp fun _ => hdirtied, .refl _ _, ?_⟩
      intro a held hcounted hlent hmoves
      rw [hshare, Transaction.share_updated huninherit hp] at hmoves
      exact ⟨_, .inr (.isolate hmoves), rfl, hcounted, hlent, (add_zero _).symm,
        fun h => absurd h (Transaction.not_leaves_updated huninherit hp)⟩
    · have hdone : fd.preOpDone = x.preOp := hdone
      rw [heq]
      simp only [hplain]
      refine ⟨⟨nofun, fun _ => hdone ▸ hseveral⟩, rfl, hx.updated huninherit hp nofun, ?_, ?_⟩
      · intro D hD
        have hD' : D ≠ fd.preOpDone := hdone ▸ hD
        simp [FdCtx.counted, FdCtx.lent, hD']
      · intro a held hcounted hlent hmoves
        rw [hshare, Transaction.share_updated huninherit hp, hinherited, hdirtied] at hmoves
        refine ⟨_, .inr (.register hmoves), rfl, ?_, hlent, (add_zero _).symm,
          fun h => absurd h (Transaction.not_leaves_updated huninherit hp)⟩
        simp [hcounted, FdCtx.counted, hdone, Transaction.updated]

end Updated

/-- The transaction is on its way to `afr_changelog_post_op_now`. -/
def Transaction.Leaving (x : Transaction n) : Prop :=
  x.phase = .resumed ∨ x.phase = .delayed ∨ x.phase = .fsync

/-- What the locked part of `afr_changelog_pre_op_uninherit` can do. -/
theorem fdUninherit_cases (hfd : fd.Ok) {preOp : Subvols n} (hpreOp : preOp.Nonempty) :
    preOp ≠ fd.preOpDone ∧ fd.uninherit preOp = (fd, .mismatch) ∨
    preOp = fd.preOpDone ∧ 0 < fd.onDisk ∧
      (0 < fd.inherited ∧
          fd.uninherit preOp = ({ fd with inherited := fd.inherited - 1 }, .inherited) ∨
        fd.inherited = 0 ∧ fd.uninherit preOp =
          (({ fd with onDisk := fd.onDisk - 1 } : FdCtx n).reset, .onDisk)) := by
  by_cases hdone : preOp = fd.preOpDone
  · have hpos : 0 < fd.onDisk := by
      refine Nat.pos_of_ne_zero fun hzero => ?_
      rw [hdone, (hfd.drained hzero).2] at hpreOp
      exact absurd hpreOp Finset.not_nonempty_empty
    refine .inr ⟨hdone, hpos, ?_⟩
    by_cases hlent : fd.inherited = 0
    · exact .inr ⟨hlent, by simp [FdCtx.uninherit, hdone, hlent, hpos.ne']⟩
    · exact .inl ⟨Nat.pos_of_ne_zero hlent, by
        simp [FdCtx.uninherit, FdCtx.reset, hdone, hlent, hpos.ne']⟩
  · exact .inl ⟨hdone, by simp [FdCtx.uninherit, hdone]⟩

/-- A mark is taken from those on disk; with the last one `pre_op_done` is cleared. -/
theorem FdCtx.Ok.takeBack (hfd : fd.Ok) (hpos : 0 < fd.onDisk) (hlent : fd.inherited = 0)
    {D : Subvols n} (hdone : D = fd.preOpDone) :
    let fd' := ({ fd with onDisk := fd.onDisk - 1 } : FdCtx n).reset
    fd'.Ok ∧ fd.SameBut fd' D ∧ fd'.counted D = fd.onDisk - 1 ∧ fd'.lent D = 0 := by
  subst hdone
  by_cases hlast : fd.onDisk - 1 = 0
  · have hreset : ({ fd with onDisk := fd.onDisk - 1 } : FdCtx n).reset = ⟨∅, 0, 0⟩ := by
      simp [FdCtx.reset, hlent, hlast]
    simp only [hreset]
    refine ⟨⟨fun _ => ⟨rfl, rfl⟩, nofun⟩, fun D hD => ?_, ?_, ?_⟩
    · simp [FdCtx.counted, FdCtx.lent, hD]
    · simp [FdCtx.counted, hlast]
    · simp [FdCtx.lent]
  · have hreset : ({ fd with onDisk := fd.onDisk - 1 } : FdCtx n).reset =
        { fd with onDisk := fd.onDisk - 1 } := by
      simp [FdCtx.reset, hlast]
    simp only [hreset]
    refine ⟨⟨fun h => absurd h hlast, fun _ => hfd.several hpos⟩, fun D hD => ?_, ?_, ?_⟩
    · simp [FdCtx.counted, FdCtx.lent, hD]
    · simp [FdCtx.counted]
    · simp [FdCtx.lent, hlent]

/-- What `afr_changelog_pre_op_uninherit` can do. -/
theorem uninherit_cases (fd : FdCtx n) (x : Transaction n) :
    x.noUninherit = true ∧ afrChangelogPreOpUninherit fd x = (fd, x, false) ∨
    x.noUninherit = false ∧
      ((∃ found, x.uninherit = some found ∧
          afrChangelogPreOpUninherit fd x = (fd, x, found.value x.dirtied)) ∨
        x.uninherit = none ∧ afrChangelogPreOpUninherit fd x =
          ((fd.uninherit x.preOp).1, { x with uninherit := some (fd.uninherit x.preOp).2 },
            (fd.uninherit x.preOp).2.value x.dirtied)) := by
  by_cases hiso : x.noUninherit = true
  · exact .inl ⟨hiso, by simp [afrChangelogPreOpUninherit, hiso]⟩
  · have hiso := Bool.eq_false_of_not_eq_true hiso
    refine .inr ⟨hiso, ?_⟩
    cases hfound : x.uninherit with
    | some found => exact .inl ⟨found, rfl, by simp [afrChangelogPreOpUninherit, hiso, hfound]⟩
    | none => exact .inr ⟨rfl, by simp [afrChangelogPreOpUninherit, hiso, hfound]⟩

section Released

variable {failed : Subvols n} {opRet : ℤ} {p : Phase} {fd' : FdCtx n} {x' : Transaction n}
  {value : Bool}

/-- A transaction that has called `afr_changelog_pre_op_uninherit`. -/
def Transaction.released (x : Transaction n) (found : Option Uninherit) (failed : Subvols n)
    (opRet : ℤ) (p : Phase) : Transaction n :=
  { x with uninherit := found, failedSubvols := failed, opRet := opRet, phase := p }

theorem Transaction.Working.share_leaving (hx : x.Working) (hphase : x.Leaving)
    (hiso : x.noUninherit = false) (huninherit : x.uninherit = none) :
    x.share = if x.inherited then some .borrower else if x.dirtied then some .settled else none := by
  have hfsync := hx.phase
  rcases hphase with hp | hp | hp
  · simp [Transaction.share, Transaction.beforeUpdate, hp, hiso, huninherit]
  · simp [Transaction.share, Transaction.beforeUpdate, hp, hiso, huninherit]
  · rw [hp] at hfsync
    simp [hiso, huninherit] at hfsync

/-- Who has marks on several bricks holds one of its own or a borrowed one. -/
theorem Transaction.Working.share_several (hx : x.Working) (hphase : x.Leaving)
    (hiso : x.noUninherit = false) (huninherit : x.uninherit = none) (h : 1 < x.preOp.card) :
    ∃ c : Share, (c = .settled ∨ c = .borrower) ∧ x.share = some c := by
  rw [hx.share_leaving hphase hiso huninherit]
  by_cases hinherited : x.inherited = true
  · exact ⟨_, .inr rfl, if_pos hinherited⟩
  · have hdirtied := (hx.shared.mp h).resolve_right hinherited
    exact ⟨_, .inl rfl, by simp [hinherited, hdirtied]⟩

theorem Transaction.Working.released (hx : x.Working) (hiso : x.noUninherit = false)
    (found : Uninherit) (hp : p = .fsync ∨ p = .postOp !found.value x.dirtied) :
    (x.released (some found) failed opRet p).Working := by
  refine ⟨hx.nonempty, hx.shared, hx.exclusive, fun h => absurd (hiso.symm.trans h) nofun, ?_⟩
  rcases hp with rfl | rfl
  · exact .inr rfl
  · refine ⟨.inr rfl, ?_⟩
    simp [Transaction.released, Transaction.needUndirty, hiso]

theorem Transaction.share_released (hiso : x.noUninherit = false) (found : Uninherit)
    (hp : p = .fsync ∨ p = .postOp !found.value x.dirtied) :
    (x.released (some found) failed opRet p).share =
      if found.value x.dirtied then none else some .due := by
  cases hvalue : found.value x.dirtied <;> rcases hp with rfl | rfl <;>
    simp [Transaction.share, Transaction.released, Transaction.needUndirty, hiso, hvalue]

/-- Only who finds other bricks in `pre_op_done` leaves an inherited mark behind. -/
theorem Transaction.leaves_released {found : Uninherit}
    (hp : p = .fsync ∨ p = .postOp !found.value x.dirtied)
    (h : (x.released (some found) failed opRet p).Leaves) :
    found = .mismatch ∧ x.inherited = true := by
  rcases h with ⟨hfound, hinherited⟩ | ⟨hdone, _⟩
  · exact ⟨Option.some.inj hfound, hinherited⟩
  · rcases hp with rfl | rfl <;> cases hdone

/-- The first call of `afr_changelog_pre_op_uninherit`. -/
theorem release_ran (hfd : fd.Ok) (hx : x.Working) (hphase : x.Leaving)
    (hiso : x.noUninherit = false) (huninherit : x.uninherit = none)
    (hp : p = .fsync ∨ p = .postOp !(fd.uninherit x.preOp).2.value x.dirtied) :
    Ran fd (fd.uninherit x.preOp).1 x
      (x.released (some (fd.uninherit x.preOp).2) failed opRet p) := by
  have hshare := hx.share_leaving hphase hiso huninherit
  have hworking := @Transaction.Working.released _ _ failed opRet p hx hiso _ hp
  have hshare' := @Transaction.share_released _ x failed opRet p hiso _ hp
  have hleaves := @Transaction.leaves_released _ x failed opRet p _ hp
  rcases fdUninherit_cases hfd hx.nonempty with
    ⟨hne, heq⟩ | ⟨hdone, hpos, ⟨hlent, heq⟩ | ⟨hlent, heq⟩⟩
  · rw [heq] at hworking hshare' hleaves ⊢
    refine ⟨hfd, rfl, hworking, .refl _ _, ?_⟩
    intro a held hcounted hlent hmoves
    rw [hshare, hshare'] at hmoves
    have hzero : a.counted = 0 := hcounted.trans (if_neg hne)
    by_cases hinherited : x.inherited = true
    · have hdirtied : x.dirtied = false :=
        Bool.eq_false_of_not_eq_true fun h => absurd (hx.exclusive h) (by simp [hinherited])
      simp only [hinherited, hdirtied, if_true, Uninherit.value, Bool.not_false] at hmoves
      exact ⟨_, .inr (.forget hzero hmoves), rfl, hcounted, hlent, (add_zero _).symm,
        fun _ => .inr (Nat.succ_pos _)⟩
    · have hnot : ¬ (x.released (some .mismatch) failed opRet p).Leaves :=
        fun h => hinherited (hleaves h).2
      by_cases hdirtied : x.dirtied = true
      · simp only [hinherited, hdirtied, if_true, Uninherit.value, Bool.not_true,
          Bool.false_eq_true, if_false] at hmoves
        exact ⟨_, .inr (.late hzero hmoves), rfl, hcounted, hlent, (add_zero _).symm,
          fun h => absurd h hnot⟩
      · simp only [hinherited, hdirtied, if_true, Uninherit.value, Bool.not_false,
          Bool.false_eq_true, if_false] at hmoves
        exact ⟨a, .inl rfl, hmoves.eq.symm, hcounted, hlent, (add_zero _).symm,
          fun h => absurd h hnot⟩
  · obtain ⟨c, hc, hshare⟩ := hx.share_several hphase hiso huninherit (hdone ▸ hfd.several hpos)
    rw [heq] at hworking hshare' hleaves ⊢
    refine ⟨⟨fun h => absurd h hpos.ne', hfd.several⟩, rfl, hworking, ?_, ?_⟩
    · intro D hD
      have hD' : D ≠ fd.preOpDone := hdone ▸ hD
      exact ⟨rfl, by simp [FdCtx.lent, hD']⟩
    · intro a held hcounted hlent' hmoves
      rw [hshare, hshare'] at hmoves
      have hlent' : a.lent = fd.inherited := hlent'.trans (if_pos hdone)
      refine ⟨_, .inr (.repay hc (hlent' ▸ hlent) hmoves), rfl, hcounted, ?_, (add_zero _).symm,
        fun h => absurd (hleaves h).1 nofun⟩
      exact (congrArg (· - 1) hlent').trans (if_pos hdone).symm
  · obtain ⟨c, hc, hshare⟩ := hx.share_several hphase hiso huninherit (hdone ▸ hfd.several hpos)
    rw [heq] at hworking hshare' hleaves ⊢
    obtain ⟨hok, hsame, hcounted', hlent'⟩ := hfd.takeBack hpos hlent hdone
    refine ⟨hok, rfl, hworking, hsame, ?_⟩
    intro a held hcounted ha hmoves
    rw [hshare, hshare'] at hmoves
    have hcounted : a.counted = fd.onDisk := hcounted.trans (if_pos hdone)
    have hzero : a.lent = 0 := ha.trans ((if_pos hdone).trans hlent)
    refine ⟨_, .inr (.withdraw hc hzero (hcounted ▸ hpos) hmoves), rfl, ?_, ?_,
      (add_zero _).symm, fun h => absurd (hleaves h).1 nofun⟩
    · exact (congrArg (· - 1) hcounted).trans hcounted'.symm
    · exact hzero.trans hlent'.symm

/-- `afr_changelog_pre_op_uninherit`, whether it is called for the first time or not. -/
theorem uninherit_ran (hfd : fd.Ok) (hx : x.Working) (hphase : x.Leaving)
    (hrun : afrChangelogPreOpUninherit fd x = (fd', x', value))
    (hp : p = .fsync ∨ p = .postOp !value) :
    Ran fd fd' x { x' with failedSubvols := failed, opRet := opRet, phase := p } := by
  have hnotDone : ∀ y : Transaction n, y.phase = p → y.phase ≠ .done := by
    rintro y hy hdone
    rcases hp with rfl | rfl <;> exact absurd (hy.symm.trans hdone) nofun
  rcases uninherit_cases fd x with ⟨hiso, heq⟩ | ⟨hiso, ⟨found, hfound, heq⟩ | ⟨hnone, heq⟩⟩
  · rw [heq] at hrun
    cases hrun
    obtain ⟨hdirtied, huninherit⟩ := hx.isolated hiso
    have hshare : x.share = some .isolated := by
      rcases hphase with h | h | h <;> simp [Transaction.share, h, hiso]
    have hleaves : ∀ y : Transaction n, y.phase = p → y.uninherit = none → ¬ y.Leaves := by
      rintro y hy hu (⟨h, _⟩ | ⟨h, _⟩)
      · exact absurd (hu.symm.trans h) nofun
      · exact hnotDone y hy h
    refine ⟨hfd, rfl, ⟨hx.nonempty, hx.shared, hx.exclusive, hx.isolated, ?_⟩, .refl _ _, ?_⟩
    · rcases hp with rfl | rfl
      · exact .inl hiso
      · exact ⟨.inl hiso, by simp [Transaction.needUndirty, hiso]⟩
    · rcases hp with rfl | rfl
      · refine Entry.same ?_ fun h => absurd h (hleaves _ rfl huninherit)
        rw [hshare]
        simp [Transaction.share, hiso]
      · intro a held hcounted hlent hmoves
        have hdue : ({ x with failedSubvols := failed, opRet := opRet, phase := .postOp !false } :
            Transaction n).share = some .due := by
          simp [Transaction.share, Transaction.needUndirty, hiso]
        rw [hshare, hdue] at hmoves
        exact ⟨_, .inr (.own hmoves), rfl, hcounted, hlent, (add_zero _).symm,
          fun h => absurd h (hleaves _ rfl huninherit)⟩
  · rw [heq] at hrun
    cases hrun
    have hy : ({ x with failedSubvols := failed, opRet := opRet, phase := p } : Transaction n) =
        x.released (some found) failed opRet p := by
      rw [Transaction.released, ← hfound]
    rw [hy]
    refine ⟨hfd, rfl, hx.released hiso found hp, .refl _ _, Entry.same ?_ fun h => .inl ?_⟩
    · rw [Transaction.share_released hiso found hp]
      cases hvalue : found.value x.dirtied <;> rcases hphase with h | h | h <;>
        simp [Transaction.share, Transaction.needUndirty, h, hiso, hfound, hvalue]
    · obtain ⟨rfl, hinherited⟩ := Transaction.leaves_released hp h
      exact ⟨hfound, hinherited⟩
  · rw [heq] at hrun
    cases hrun
    exact release_ran hfd hx hphase hiso hnone hp

end Released

/-- `afr_changelog_pre_op_uninherit` neither reads nor writes what has failed. -/
theorem uninherit_with (fd : FdCtx n) (x : Transaction n) (failed : Subvols n) (opRet : ℤ) :
    afrChangelogPreOpUninherit fd { x with failedSubvols := failed, opRet := opRet } =
      ((afrChangelogPreOpUninherit fd x).1,
        { (afrChangelogPreOpUninherit fd x).2.1 with failedSubvols := failed, opRet := opRet },
        (afrChangelogPreOpUninherit fd x).2.2) := by
  obtain ⟨_, _, _, _, _, _, _, isolated, found, _⟩ := x
  cases isolated <;> cases found <;> rfl

/-- A second call changes nothing and has the same answer. -/
theorem uninherit_uninherit (fd : FdCtx n) (x : Transaction n) :
    afrChangelogPreOpUninherit (afrChangelogPreOpUninherit fd x).1
      (afrChangelogPreOpUninherit fd x).2.1 = afrChangelogPreOpUninherit fd x := by
  rcases uninherit_cases fd x with ⟨hiso, heq⟩ | ⟨hiso, ⟨found, hfound, heq⟩ | ⟨hnone, heq⟩⟩
  · rw [heq, heq]
  · rw [heq, heq]
  · rw [heq]
    simp [afrChangelogPreOpUninherit, hiso]

/-- `afr_handle_quorum` changes only what has failed. -/
theorem afrHandleQuorum_eq (priv : AfrPrivate) (x : Transaction n) :
    ∃ failed opRet, afrHandleQuorum priv x = { x with failedSubvols := failed, opRet := opRet } := by
  unfold afrHandleQuorum
  split
  · exact ⟨x.failedSubvols, x.opRet, rfl⟩
  · exact ⟨_, _, rfl⟩

variable {priv : AfrPrivate}

theorem postOpNow_ran (hfd : fd.Ok) (hx : x.Working) (hphase : x.Leaving) (failed : Subvols n)
    (opRet : ℤ) :
    Ran fd (afrChangelogPostOpNow priv fd { x with failedSubvols := failed, opRet := opRet }).1 x
      (afrChangelogPostOpNow priv fd { x with failedSubvols := failed, opRet := opRet }).2 := by
  obtain ⟨failed', opRet', hquorum⟩ :=
    afrHandleQuorum_eq priv { x with failedSubvols := failed, opRet := opRet }
  unfold afrChangelogPostOpNow
  rw [hquorum]
  change Ran fd (afrChangelogPreOpUninherit fd
    { x with failedSubvols := failed', opRet := opRet' }).1 x _
  rw [uninherit_with]
  exact @uninherit_ran _ _ _ _ _ _ _ (afrChangelogPreOpUninherit fd x).2.1 _ hfd hx hphase rfl
    (.inr rfl)

/-- `afr_changelog_post_op_safe` waits for an fsync or calls `afr_changelog_post_op_now`. -/
theorem postOpSafe_cases (fd : FdCtx n) (x : Transaction n) (witnessed : Bool) :
    (∃ failed opRet, afrChangelogPostOpSafe priv fd x witnessed =
      ((afrChangelogPreOpUninherit fd x).1,
        { (afrChangelogPreOpUninherit fd x).2.1 with
          failedSubvols := failed, opRet := opRet,
          phase := .postOp !(afrChangelogPreOpUninherit fd x).2.2 })) ∨
    (((afrChangelogPreOpUninherit fd x).2.2 = true → x.failedSubvols.Nonempty) ∧
      witnessed = true ∧ priv.ensureDurability = true ∧
      afrChangelogPostOpSafe priv fd x witnessed =
        ((afrChangelogPreOpUninherit fd x).1,
          { (afrChangelogPreOpUninherit fd x).2.1 with phase := .fsync })) := by
  have hagain := uninherit_uninherit fd x
  have hfailed : (afrChangelogPreOpUninherit fd x).2.1.failedSubvols = x.failedSubvols :=
    congrArg (fun u => u.2.1.failedSubvols) (uninherit_with fd x x.failedSubvols x.opRet)
  unfold afrChangelogPostOpSafe
  generalize afrChangelogPreOpUninherit fd x = u at *
  obtain ⟨fd₁, x₁, value⟩ := u
  simp only at hagain hfailed ⊢
  split
  · obtain ⟨failed, opRet, hquorum⟩ := afrHandleQuorum_eq priv x₁
    refine .inl ⟨failed, opRet, ?_⟩
    rw [afrChangelogPostOpNow, hquorum, uninherit_with, hagain]
  · next hwait =>
    simp only [not_or, not_and, Bool.not_eq_true, Bool.not_eq_false, afrTxnNothingFailed,
      decide_eq_false_iff_not, hfailed] at hwait
    exact .inr ⟨fun h => Finset.nonempty_iff_ne_empty.mpr (hwait.1 h), hwait.2.1, hwait.2.2, rfl⟩

theorem postOp_ran (hfd : fd.Ok) (hx : x.Working) (hphase : x.phase = .resumed)
    (delay witnessed : Bool) :
    Ran fd (afrChangelogPostOp priv fd x delay witnessed).1 x
      (afrChangelogPostOp priv fd x delay witnessed).2 := by
  unfold afrChangelogPostOp
  have huninherit : x.uninherit = none := by simpa [hphase] using hx.phase
  split
  · refine ⟨hfd, rfl, ⟨hx.nonempty, hx.shared, hx.exclusive, hx.isolated, huninherit⟩,
      .refl _ _, Entry.same ?_ ?_⟩
    · have hshare := Transaction.share_after (.inr (.inl hphase)) huninherit (by
        simp [Transaction.beforeUpdate, hphase])
      exact (@Transaction.share_after _ { x with phase := .delayed } (.inr (.inr rfl)) huninherit
        rfl).trans hshare.symm
    · rintro (⟨h, _⟩ | ⟨h, _⟩)
      · exact absurd (huninherit.symm.trans h) nofun
      · cases h
  · rcases @postOpSafe_cases _ priv fd x witnessed with ⟨failed, opRet, heq⟩ | ⟨_, _, _, heq⟩
    · rw [heq]
      exact @uninherit_ran _ _ _ _ _ _ _ (afrChangelogPreOpUninherit fd x).2.1 _ hfd hx
        (.inl hphase) rfl (.inr rfl)
    · rw [heq]
      exact @uninherit_ran _ _ _ (afrChangelogPreOpUninherit fd x).2.1.failedSubvols
        (afrChangelogPreOpUninherit fd x).2.1.opRet _ _ (afrChangelogPreOpUninherit fd x).2.1 _
        hfd hx (.inl hphase) rfl (.inl rfl)

theorem performFop_ran (hfd : fd.Ok) (hx : x.Working) (hphase : x.phase = .preOp)
    (failed : Subvols n) :
    Ran fd (afrTransactionPerformFop fd (x.fopFailed failed)).1 x
      (afrTransactionPerformFop fd (x.fopFailed failed)).2 := by
  have hcompat : x.preOpCompat = true := by
    have := hx.phase
    rw [hphase] at this
    exact this.1
  have hrun : afrTransactionPerformFop fd (x.fopFailed failed) =
      ((afrChangelogPreOpUpdate fd (x.fopFailed failed)).1,
        { (afrChangelogPreOpUpdate fd (x.fopFailed failed)).2 with phase := .fop }) := by
    simp [afrTransactionPerformFop, Transaction.fopFailed, hcompat]
  rw [hrun]
  exact update_ran hfd hx (by simp [Transaction.beforeUpdate, hphase]) (.inr ⟨rfl, hcompat⟩)

/-- The answers to the write say only what has failed. -/
theorem resume_eq (x : Transaction n) (replies : Fin n → FopReply) :
    ∃ failed opRet, afrHandleSymmetricErrors (afrWritevWindCbk x replies) replies =
      { x with failedSubvols := failed, opRet := opRet } := by
  unfold afrHandleSymmetricErrors
  split <;> exact ⟨_, _, rfl⟩

theorem resume_ran (hfd : fd.Ok) (hx : x.Working) (hphase : x.phase = .fop)
    (replies : Fin n → FopReply) :
    Ran fd (afrTransactionResume x replies fd).1 x (afrTransactionResume x replies fd).2 := by
  obtain ⟨failed, opRet, heq⟩ := resume_eq x replies
  unfold afrTransactionResume
  rw [heq]
  dsimp only
  by_cases hcompat : x.preOpCompat = true
  · rw [if_pos hcompat]
    have hphase' := hx.phase
    rw [hphase] at hphase'
    refine ⟨hfd, rfl, ⟨hx.nonempty, hx.shared, hx.exclusive, hx.isolated, hphase'.1⟩,
      .refl _ _, Entry.same ?_ ?_⟩
    · have hshare := Transaction.share_after (.inl hphase) hphase'.1 (by
        simp [Transaction.beforeUpdate, hphase, hcompat])
      exact (@Transaction.share_after _
        { x with failedSubvols := failed, opRet := opRet, phase := .resumed } (.inr (.inl rfl))
        hphase'.1 rfl).trans hshare.symm
    · rintro (⟨h, _⟩ | ⟨h, _⟩)
      · exact absurd (hphase'.1.symm.trans h) nofun
      · cases h
  · rw [if_neg hcompat]
    exact update_ran hfd hx (by simp [Transaction.beforeUpdate, hphase, hcompat]) (.inl rfl)

/-- Nothing is counted for a transaction that has inherited its marks or needs none. -/
theorem performFop_eq (h : x.inherited = true ∨ x.dirtied = false ∨ x.preOpCompat = false) :
    afrTransactionPerformFop fd x = (fd, { x with phase := .fop }) := by
  unfold afrTransactionPerformFop afrChangelogPreOpUpdate
  rcases h with h | h | h <;> simp [h]

end Functions

/-! ## All steps -/

/-- The transaction that an action runs. -/
def ChangelogAct.thread : ChangelogAct n N → Fin N
  | .preOp t _ _ | .performFop t _ | .resume t _ | .postOp t _ _ | .fsync t _ | .wakeUp t
  | .finish t => t

/-- The invariant of all runs. -/
structure ChangelogState.Ok (s : ChangelogState n N) : Prop where
  fd : s.fd.Ok
  threads : ∀ t, (s.threads t).Ok
  follows : ∃ account, Follows s account

namespace ChangelogState

variable {s : ChangelogState n N} {priv : AfrPrivate} {t : Fin N}

theorem Ok.working (h : s.Ok) (hidle : (s.threads t).phase ≠ .idle)
    (hdone : (s.threads t).phase ≠ .done) : (s.threads t).Working := by
  rcases h.threads t with heq | ⟨_, _, heq⟩ | hworking
  · exact absurd (congrArg Transaction.phase heq) hidle
  · exact absurd (congrArg Transaction.phase heq) hdone
  · exact hworking

/-- One transaction and the context change, and marks are added on its bricks. -/
structure Advanced (s s' : ChangelogState n N) (t : Fin N) (y : Transaction n) (added : ℤ) :
    Prop where
  fd : s'.fd.Ok
  threads : s'.threads = Function.update s.threads t y
  ok : y.Ok
  origin : s.threads t = .new false ∅ ∨ (s.threads t).preOp = y.preOp
  same : s.fd.SameBut s'.fd y.preOp
  entry : Entry s.fd s'.fd (s.threads t) y added
  dirty : ∀ k, s'.dirty k = s.dirty k + if k ∈ y.preOp then added else 0

theorem Advanced.share {y : Transaction n} {added : ℤ} {s' : ChangelogState n N}
    (h : Advanced s s' t y added) :
    (s.threads t).share = none ∨ (s.threads t).preOp = y.preOp :=
  h.origin.imp_left fun hnew => by rw [hnew]; rfl

theorem Ok.advance (h : s.Ok) {y : Transaction n} {added : ℤ} {s' : ChangelogState n N}
    (hadv : Advanced s s' t y added) : s'.Ok := by
  obtain ⟨account, hfollows⟩ := h.follows
  have hleaves : (s.threads t).Leaves → (s.threads t).preOp = y.preOp := by
    rcases hadv.origin with hnew | hsame
    · rw [hnew]
      rintro (⟨h, _⟩ | ⟨h, _⟩) <;> cases h
    · exact fun _ => hsame
  refine ⟨hadv.fd, fun t' => ?_, hfollows.advance hadv.share hleaves hadv.same hadv.entry s' rfl
    hadv.threads hadv.dirty⟩
  rw [hadv.threads]
  by_cases ht : t' = t
  · subst ht
    rw [Function.update_self]
    exact hadv.ok
  · rw [Function.update_of_ne ht]
    exact h.threads t'

theorem run_advanced {result : FdCtx n × Transaction n}
    (hran : Ran s.fd result.1 (s.threads t) result.2) : Advanced s (s.run t result) t result.2 0 :=
  ⟨hran.ok, rfl, .inr (.inr hran.working), .inr hran.preOp.symm, hran.same, hran.entry,
    fun k => by simp [ChangelogState.run]⟩

theorem Ok.idle (h : s.Ok) (hidle : (s.threads t).phase = .idle) :
    s.threads t = .new false ∅ := by
  rcases h.threads t with heq | ⟨_, _, heq⟩ | hworking
  · exact heq
  · exact absurd ((congrArg Transaction.phase heq).symm.trans hidle) nofun
  · have := hworking.phase
    rw [hidle] at this
    exact this.elim

/-- A transaction begins. -/
theorem Ok.begin (h : s.Ok) (hidle : (s.threads t).phase = .idle) {y : Transaction n}
    (added : ℤ) (s' : ChangelogState n N) (hfd : s'.fd.Ok)
    (hthreads : s'.threads = Function.update s.threads t y) (hy : y.Ok)
    (hsame : s.fd.SameBut s'.fd y.preOp)
    (hentry : ∀ x : Transaction n, x.share = none → Entry s.fd s'.fd x y added)
    (hdirty : ∀ k, s'.dirty k = s.dirty k + if k ∈ y.preOp then added else 0) :
    ∃ y added, Advanced s s' t y added := by
  have hnew := h.idle hidle
  refine ⟨y, added, hfd, hthreads, hy, .inl hnew, hsame, hentry _ ?_, hdirty⟩
  rw [hnew]
  rfl

/-- A transaction that has just begun leaves nothing behind. -/
theorem not_leaves_of_begun {y : Transaction n} (huninherit : y.uninherit = none)
    (hiso : y.noUninherit = false) : ¬ y.Leaves := by
  rintro (⟨h, _⟩ | ⟨_, _, h⟩)
  · exact absurd (huninherit.symm.trans h) nofun
  · simp [Transaction.needUndirty, huninherit, hiso] at h

/-- A transaction that marks its bricks itself, if they are several. -/
def marking (compat : Bool) (locked : Subvols n) (p : Phase) : Transaction n :=
  { Transaction.new compat locked with
    dirtied := decide (1 < locked.card), pending := lockedᶜ, phase := p }

theorem marking_working {compat : Bool} {locked : Subvols n} (hlocked : locked.Nonempty)
    {p : Phase} (hp : p = .fop ∨ p = .preOp ∧ compat = true) :
    (marking compat locked p).Working := by
  refine ⟨hlocked, by simp [marking, Transaction.new], fun _ => rfl, nofun, ?_⟩
  rcases hp with rfl | ⟨rfl, hcompat⟩
  · exact ⟨rfl, nofun⟩
  · exact ⟨hcompat, rfl, rfl, rfl⟩

/-- A transaction begins and sets its marks. -/
theorem Ok.mark (h : s.Ok) (hidle : (s.threads t).phase = .idle) {compat : Bool}
    {locked : Subvols n} (hlocked : locked.Nonempty) {p : Phase}
    (hp : p = .fop ∧ compat = false ∨ p = .preOp ∧ compat = true) :
    ∃ y added, Advanced s
      ((s.afrChangelogDo locked (if 1 < locked.card then 1 else 0) lockedᶜ).run t
        (s.fd, marking compat locked p)) t y added := by
  refine h.begin hidle (if 1 < locked.card then 1 else 0) _ h.fd rfl
    (.inr (.inr (marking_working hlocked (hp.imp_left And.left)))) (.refl _ _) ?_ fun k => rfl
  intro x hx
  have hleaves : ¬ (marking compat locked p).Leaves := not_leaves_of_begun rfl rfl
  have hshare : (marking compat locked p).share = if 1 < locked.card then some .fresh else none := by
    rcases hp with ⟨rfl, hcompat⟩ | ⟨rfl, _⟩ <;>
      simp_all [marking, Transaction.share, Transaction.new, Transaction.beforeUpdate]
  by_cases hcard : 1 < locked.card
  · intro a held hcounted hlent hmoves
    rw [hx, hshare, if_pos hcard] at hmoves
    rw [if_pos hcard]
    exact ⟨_, .inr (.set hmoves), rfl, hcounted, hlent, rfl, fun h => absurd h hleaves⟩
  · rw [if_neg hcard] at hshare ⊢
    exact Entry.same (hshare.trans hx.symm) fun h => absurd h hleaves

/-- A transaction begins and has nothing to mark. -/
theorem Ok.unmarked (h : s.Ok) (hidle : (s.threads t).phase = .idle) {compat : Bool}
    {locked : Subvols n} (hlocked : locked.Nonempty) (hcard : ¬ 1 < locked.card) :
    ∃ y added, Advanced s (s.run t (s.fd, marking compat locked .fop)) t y added := by
  refine h.begin hidle 0 _ h.fd rfl
    (.inr (.inr (marking_working hlocked (.inl rfl)))) (.refl _ _) ?_
    fun k => by simp [ChangelogState.run]
  intro x hx
  refine Entry.same ?_ fun h => absurd h (not_leaves_of_begun rfl rfl)
  rw [hx]
  simp [marking, Transaction.share, Transaction.new, hcard]

/-- What `afr_changelog_pre_op` can do: it refuses the transaction, lets it inherit the marks, has
nothing to mark, or sends the marks. -/
theorem afrChangelogPreOp_cases (priv : AfrPrivate) (s : ChangelogState n N) (t : Fin N)
    (compat : Bool) (locked : Subvols n) :
    s.afrChangelogPreOp priv t compat locked =
      s.run t (s.fd, { Transaction.new compat locked with opRet := -1, phase := .done }) ∨
    locked.Nonempty ∧ (priv.quorumCount = 0 ∨ afrHasQuorum priv locked = true) ∧
      (0 < s.fd.onDisk ∧ locked = s.fd.preOpDone ∧ s.afrChangelogPreOp priv t compat locked =
          s.run t ({ s.fd with inherited := s.fd.inherited + 1 },
            { Transaction.new compat locked with inherited := true, phase := .fop }) ∨
        ¬ 1 < locked.card ∧ s.afrChangelogPreOp priv t compat locked =
          s.run t (s.fd, marking compat locked .fop) ∨
        ∃ p, (p = .fop ∧ compat = false ∨ p = .preOp ∧ compat = true) ∧
          s.afrChangelogPreOp priv t compat locked =
            (s.afrChangelogDo locked (if 1 < locked.card then 1 else 0) lockedᶜ).run t
              (s.fd, marking compat locked p)) := by
  unfold afrChangelogPreOp
  dsimp only
  split
  · exact .inl rfl
  · next hlocked =>
    have hnonempty : locked.Nonempty := Finset.nonempty_iff_ne_empty.mpr fun h => hlocked (.inr h)
    have hquorum : priv.quorumCount = 0 ∨ afrHasQuorum priv locked = true := by
      by_contra hnot
      exact hlocked (.inl (not_or.mp hnot))
    refine .inr ⟨hnonempty, hquorum, ?_⟩
    unfold afrChangelogPreOpInherit
    by_cases hinherit : s.fd.onDisk = 0 ∨ (Transaction.new compat locked).preOp ≠ s.fd.preOpDone
    · rw [if_pos hinherit]
      dsimp only
      split
      · next hnop =>
        have hcard : ¬ 1 < locked.card := fun hcard => hnop.2 (decide_eq_true hcard)
        rw [performFop_eq (.inr (.inl (decide_eq_false hcard)))]
        exact .inr (.inl ⟨hcard, rfl⟩)
      · simp only [decide_eq_true_eq]
        refine .inr (.inr ?_)
        by_cases hcompat : compat = true
        · rw [if_pos hcompat]
          exact ⟨_, .inr ⟨rfl, hcompat⟩, rfl⟩
        · have hcompat' := Bool.eq_false_of_not_eq_true hcompat
          rw [if_neg hcompat, performFop_eq (.inr (.inr hcompat'))]
          exact ⟨_, .inl ⟨rfl, hcompat'⟩, rfl⟩
    · obtain ⟨hpos, hdone⟩ := not_or.mp hinherit
      rw [if_neg hinherit]
      dsimp only
      rw [performFop_eq (.inl rfl)]
      exact .inl ⟨Nat.pos_of_ne_zero hpos, not_not.mp hdone, rfl⟩

theorem Ok.preOp (h : s.Ok) (hidle : (s.threads t).phase = .idle) (compat : Bool)
    (locked : Subvols n) :
    ∃ y added, Advanced s (s.afrChangelogPreOp priv t compat locked) t y added := by
  rcases afrChangelogPreOp_cases priv s t compat locked with
    heq | ⟨hnonempty, -, ⟨hpos, hdone, heq⟩ | ⟨hcard, heq⟩ | ⟨p, hp, heq⟩⟩
  · rw [heq]
    refine h.begin hidle 0 _ h.fd rfl (.inr (.inl ⟨compat, locked, rfl⟩)) (.refl _ _)
      (fun x hx => ?_) fun k => by simp [ChangelogState.run]
    exact Entry.same hx.symm fun h => absurd h (not_leaves_of_begun rfl rfl)
  · rw [heq]
    have hworking : ({ Transaction.new compat locked with inherited := true, phase := .fop } :
        Transaction n).Working :=
      ⟨hnonempty, iff_of_true (hdone ▸ h.fd.several hpos) (.inr rfl), nofun, nofun, rfl, nofun⟩
    refine h.begin hidle 0 _ ⟨fun hzero => absurd hzero hpos.ne', h.fd.several⟩ rfl
      (.inr (.inr hworking)) (fun D hD => ⟨rfl, ?_⟩) ?_ fun k => by simp [ChangelogState.run]
    · have hD' : D ≠ s.fd.preOpDone := hdone ▸ hD
      simp [ChangelogState.run, FdCtx.lent, hD']
    · intro x hx a held hcounted hlent hmoves
      rw [hx] at hmoves
      have hcounted' : a.counted = s.fd.onDisk := hcounted.trans (if_pos hdone)
      refine ⟨_, .inr (.borrow (hcounted' ▸ hpos) hmoves), rfl, hcounted, ?_,
        (add_zero _).symm, fun h => absurd h (not_leaves_of_begun rfl rfl)⟩
      simp [hlent, FdCtx.lent, ChangelogState.run, Transaction.new, hdone]
  · rw [heq]
    exact h.unmarked hidle hnonempty hcard
  · rw [heq]
    exact h.mark hidle hnonempty hp

/-- The end of a transaction: it sends that it clears a mark, or not. -/
theorem Ok.done (h : s.Ok) {needUndirty : Bool}
    (hphase : (s.threads t).phase = .postOp needUndirty) (s' : ChangelogState n N)
    (hfd : s'.fd = s.fd)
    (hthreads : s'.threads = Function.update s.threads t { s.threads t with phase := .done })
    (hdirty : ∀ k, s'.dirty k = s.dirty k + if k ∈ (s.threads t).preOp then
      if needUndirty = true ∧ 0 ≤ (s.threads t).opRet then -1 else 0 else 0) :
    Advanced s s' t { s.threads t with phase := .done }
      (if needUndirty = true ∧ 0 ≤ (s.threads t).opRet then -1 else 0) := by
  have hx : (s.threads t).Working := h.working (by rw [hphase]; nofun) (by rw [hphase]; nofun)
  have hworking := hx.phase
  rw [hphase] at hworking
  obtain ⟨hreleased, hneed⟩ := hworking
  have hshare : (s.threads t).share = if needUndirty then some .due else none := by
    simp [Transaction.share, hphase, hneed]
  refine ⟨hfd ▸ h.fd, hthreads,
    .inr (.inr ⟨hx.nonempty, hx.shared, hx.exclusive, hx.isolated, hreleased⟩), .inr rfl,
    hfd ▸ .refl _ _, ?_, hdirty⟩
  rw [hfd]
  by_cases hundirty : needUndirty = true
  · intro a held hcounted hlent hmoves
    rw [hshare, if_pos hundirty] at hmoves
    by_cases hret : 0 ≤ (s.threads t).opRet
    · rw [if_pos ⟨hundirty, hret⟩]
      refine ⟨_, .inr (.clear hmoves), rfl, hcounted, hlent, rfl, ?_⟩
      rintro (hmismatch | ⟨_, hneg, _⟩)
      · exact .inl (.inl hmismatch)
      · exact absurd hret (not_le.mpr hneg)
    · rw [if_neg fun h => hret h.2]
      exact ⟨_, .inr (.keep hmoves), rfl, hcounted, hlent, (add_zero _).symm,
        fun _ => .inr (Nat.succ_pos _)⟩
  · rw [if_neg fun h => hundirty h.1]
    refine Entry.same ?_ ?_
    · rw [hshare, if_neg hundirty]
      rfl
    · rintro (hmismatch | ⟨_, _, h⟩)
      · exact .inl hmismatch
      · exact absurd (hneed.trans h) hundirty

theorem Ok.finish (h : s.Ok) {needUndirty : Bool}
    (hphase : (s.threads t).phase = .postOp needUndirty) :
    Advanced s (s.afrChangelogPostOpSend t needUndirty) t { s.threads t with phase := .done }
      (if needUndirty = true ∧ 0 ≤ (s.threads t).opRet then -1 else 0) := by
  unfold afrChangelogPostOpSend
  dsimp only
  split
  · next hret =>
    exact h.done hphase _ rfl rfl fun k => by simp [ChangelogState.run, not_le.mpr hret]
  · next hret =>
    split
    · next hnothing => exact h.done hphase _ rfl rfl fun k => by simp [ChangelogState.run, hnothing.2]
    · exact h.done hphase _ rfl rfl fun k => by
        simp [ChangelogState.run, afrChangelogDo, not_lt.mp hret]

/-- What a step does. -/
theorem Ok.advanced (h : s.Ok) {a : ChangelogAct n N} {s' : ChangelogState n N}
    (hstep : changelogStep priv s a = some s') : ∃ y added, Advanced s s' a.thread y added := by
  cases a with
  | preOp t compat locked =>
      obtain ⟨hphase, heq⟩ := Option.ite_none_right_eq_some.mp hstep
      cases heq
      exact h.preOp hphase compat locked
  | performFop t failed =>
      obtain ⟨hphase, heq⟩ := Option.ite_none_right_eq_some.mp hstep
      cases heq
      have hx : (s.threads t).Working := h.working (by rw [hphase]; nofun) (by rw [hphase]; nofun)
      exact ⟨_, _, run_advanced (performFop_ran h.fd hx hphase failed)⟩
  | resume t replies =>
      obtain ⟨hphase, heq⟩ := Option.ite_none_right_eq_some.mp hstep
      cases heq
      have hx : (s.threads t).Working := h.working (by rw [hphase]; nofun) (by rw [hphase]; nofun)
      exact ⟨_, _, run_advanced (resume_ran h.fd hx hphase replies)⟩
  | postOp t delay witnessed =>
      obtain ⟨hphase, heq⟩ := Option.ite_none_right_eq_some.mp hstep
      cases heq
      have hx : (s.threads t).Working := h.working (by rw [hphase]; nofun) (by rw [hphase]; nofun)
      exact ⟨_, _, run_advanced (postOp_ran h.fd hx hphase delay witnessed)⟩
  | fsync t failed =>
      obtain ⟨hphase, heq⟩ := Option.ite_none_right_eq_some.mp hstep
      cases heq
      have hx : (s.threads t).Working := h.working (by rw [hphase]; nofun) (by rw [hphase]; nofun)
      exact ⟨_, _, run_advanced (postOpNow_ran h.fd hx (.inr (.inr hphase)) _ _)⟩
  | wakeUp t =>
      obtain ⟨hphase, heq⟩ := Option.ite_none_right_eq_some.mp hstep
      cases heq
      have hx : (s.threads t).Working := h.working (by rw [hphase]; nofun) (by rw [hphase]; nofun)
      exact ⟨_, _, run_advanced (postOpNow_ran h.fd hx (.inr (.inl hphase)) _ _)⟩
  | finish t =>
      simp only [changelogStep] at hstep
      split at hstep
      · next hphase =>
        cases hstep
        exact ⟨_, _, h.finish hphase⟩
      · cases hstep

/-- **Every step keeps the invariant.** -/
theorem Ok.step (h : s.Ok) {a : ChangelogAct n N} {s' : ChangelogState n N}
    (hstep : changelogStep priv s a = some s') : s'.Ok := by
  obtain ⟨y, added, hadv⟩ := h.advanced hstep
  exact h.advance hadv

end ChangelogState

theorem ChangelogState.initial_ok : (ChangelogState.initial : ChangelogState n N).Ok := by
  refine ⟨⟨fun _ => ⟨rfl, rfl⟩, nofun⟩, fun _ => .inl rfl, fun _ => ⟨fun _ => 0, 0, 0, 0, 0⟩, ?_⟩
  constructor
  · intro D
    funext c
    exact (tally_eq_zero fun t _ h => absurd h.2 nofun).symm
  · exact fun D => (ite_self 0).symm
  · exact fun D => (ite_self 0).symm
  · exact fun k => Finset.sum_const_zero.symm
  · rintro t (⟨h, _⟩ | ⟨h, _⟩) <;> cases h
  · exact fun D => ⟨rfl, le_rfl, nofun⟩

/-- **Every reachable state has accounts in order.** -/
theorem changelog_ok {priv : AfrPrivate} {s : ChangelogState n N}
    (h : (changelogMachine priv n N).Reachable s) : s.Ok := by
  refine h.invariant _ ?_ fun s a s' hs hstep => hs.step hstep
  rintro s rfl
  exact ChangelogState.initial_ok

end GlusterFS.Afr
