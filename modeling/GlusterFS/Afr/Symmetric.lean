import GlusterFS.Afr.ChangelogSteps

/-!
# Transactions that end in the same way on all bricks

A write that has failed with the same error on every brick leaves the bricks as they were, all
of them, and there is nothing to heal: `afr_handle_symmetric_errors` takes the failures back.
So after transactions that all succeed or fail in this way the dirty counts should be back at
what they were.

They are, but for the marks of some that fail.  `afr_changelog_post_op_now` ends a transaction
with a negative `op_ret` before it sends anything, and when `afr_changelog_pre_op_uninherit`
has told this transaction to clear the mark, nobody else will (`Transaction.Uncleared`).  The
exact count is `dirty_after_symmetric`; it is zero when no step is the end of such a transaction
(`Clears`).

In such runs nothing has ever failed (`Transaction.Clean`), so every mark of its own is counted
by `afr_changelog_pre_op_update`, and the counters of the descriptor agree with the
transactions that share its marks (`Balanced`).  The entries of `ChangelogSteps` then leave no
choice (`Entry.balance`).
-/

namespace GlusterFS.Afr

open SharedMark

variable {n N : ℕ}

/-! ## The answers -/

/-- All bricks have written the same number of bytes, or have failed with the same error, and
the connection to none of them is lost. -/
def Uniform (preOp : Subvols n) (replies : Fin n → FopReply) : Prop :=
  (∃ r, 0 ≤ r ∧ ∀ i ∈ preOp, (replies i).opRet = r) ∨
    ∃ e, e ≠ enotconn ∧ ∀ i ∈ preOp, replies i = ⟨-1, e⟩

/-- The bricks of a transaction answer in the same way. -/
def Symmetric (s : ChangelogState n N) : ChangelogAct n N → Prop
  | .performFop t failed | .fsync t failed => (s.threads t).preOp ∩ failed = ∅
  | .resume t replies => Uniform (s.threads t).preOp replies
  | .preOp _ _ _ | .postOp _ _ _ | .wakeUp _ | .finish _ => True

/-- A transaction that has ended with an error and was told to clear the mark on its bricks. -/
def Transaction.Uncleared (x : Transaction n) : Prop :=
  x.phase = .done ∧ x.opRet < 0 ∧ x.needUndirty = true

instance (x : Transaction n) : Decidable x.Uncleared :=
  inferInstanceAs (Decidable (x.phase = .done ∧ x.opRet < 0 ∧ x.needUndirty = true))

/-- The transaction that ends has not failed, or was not told to clear the mark. -/
def Clears (s : ChangelogState n N) : ChangelogAct n N → Prop
  | .finish t => 0 ≤ (s.threads t).opRet ∨ (s.threads t).needUndirty = false
  | .preOp _ _ _ | .performFop _ _ | .resume _ _ | .postOp _ _ _ | .fsync _ _ | .wakeUp _ => True

theorem finalize_le (x : Transaction n) (replies : Fin n → FopReply) {r : ℤ} (hr : 0 ≤ r)
    (h : ∀ i ∈ x.preOp, (replies i).opRet = r) : afrInodeWriteFinalize x replies ≤ r := by
  unfold afrInodeWriteFinalize
  suffices hfold : ∀ (l : List (Fin n)) (opRet : ℤ), opRet ≤ r →
      l.foldl (fun opRet i =>
        if i ∈ x.preOp ∧ 0 ≤ (replies i).opRet ∧ opRet < (replies i).opRet then (replies i).opRet
        else opRet) opRet ≤ r from hfold _ _ (by omega)
  intro l
  induction l with
  | nil => exact fun _ h => h
  | cons i l ih =>
      intro opRet hle
      rw [List.foldl_cons]
      refine ih _ ?_
      split
      · next hi => exact (h i hi.1).le
      · exact hle

theorem matchingErrors_of_same {e opErrno : ℕ} (he : e ≠ enotconn) (l : List FopReply)
    (hl : ∀ reply ∈ l, reply = ⟨-1, e⟩) (h : opErrno = 0 ∨ opErrno = e) :
    matchingErrors opErrno l = true := by
  induction l generalizing opErrno with
  | nil => rfl
  | cons reply l ih =>
      obtain rfl := hl reply List.mem_cons_self
      have hrest : ∀ reply ∈ l, reply = ⟨-1, e⟩ := fun r hr => hl r (List.mem_cons_of_mem _ hr)
      rcases h with rfl | rfl
      · simp [matchingErrors, he, ih hrest (.inr rfl)]
      · simp [matchingErrors, he, ih hrest (.inr rfl)]

/-- Answers that are the same leave nothing that has failed. -/
theorem failedSubvols_of_uniform {x : Transaction n} {replies : Fin n → FopReply}
    (hx : x.failedSubvols = ∅) (h : Uniform x.preOp replies) :
    (afrHandleSymmetricErrors (afrWritevWindCbk x replies) replies).failedSubvols = ∅ := by
  unfold afrHandleSymmetricErrors
  split
  · rfl
  · next hmatch =>
    rcases h with ⟨r, hr, hret⟩ | ⟨e, he, hreply⟩
    · have hle := finalize_le x replies hr hret
      change x.failedSubvols ∪ _ = ∅
      rw [hx, Finset.empty_union, Finset.filter_eq_empty_iff]
      intro i hi
      rw [hret i hi]
      omega
    · refine absurd (matchingErrors_of_same he _ (fun reply hreply' => ?_) (.inl rfl)) hmatch
      obtain ⟨i, hi, rfl⟩ := List.mem_map.mp hreply'
      exact hreply i (by simpa [afrWritevWindCbk] using (List.mem_filter.mp hi).2)

/-! ## The invariant -/

/-- A transaction nothing of which has failed. -/
structure Transaction.Clean (priv : AfrPrivate) (x : Transaction n) : Prop where
  failed : x.failedSubvols = ∅
  pending : Disjoint x.pending x.preOp
  quorum : x.phase = .idle ∨ x.phase = .done ∨ priv.quorumCount = 0 ∨
    afrHasQuorum priv x.preOp = true

/-- The transaction has a mark on its bricks, of its own or an inherited one, or has left one. -/
def Transaction.Marked (x : Transaction n) : Prop := x.share.isSome = true ∨ x.Uncleared

instance (x : Transaction n) : Decidable x.Marked :=
  inferInstanceAs (Decidable (x.share.isSome = true ∨ x.Uncleared))

/-- The counters of the descriptor and the dirty counts of the bricks agree with the
transactions, and bricks are accused only by transactions that were not sent to them. -/
structure Balanced (priv : AfrPrivate) (s : ChangelogState n N) : Prop where
  clean : ∀ t, (s.threads t).Clean priv
  covered : ∀ D, s.fd.counted D + s.fd.lent D =
    tally Finset.univ (fun x : Transaction n => x.preOp = D ∧ Sharing x.share) s.threads
  dirty : ∀ k, s.dirty k + ∑ D with k ∈ D, (s.fd.lent D : ℤ) =
    tally Finset.univ (fun x : Transaction n => k ∈ x.preOp ∧ x.Marked) s.threads
  accused : ∀ k j, s.accusations k j ≠ 0 → ∃ t, k ∈ (s.threads t).preOp ∧ j ∉ (s.threads t).preOp

section Advance

variable {priv : AfrPrivate} {s s' : ChangelogState n N} {t : Fin N} {y : Transaction n} {added : ℤ}

/-- Who shares a mark finds one that is counted. -/
theorem Balanced.counted_pos (h : Balanced priv s) (hok : s.Ok)
    (hshare : Sharing (s.threads t).share) : 0 < s.fd.counted (s.threads t).preOp := by
  have hpos := h.covered (s.threads t).preOp ▸
    tally_pos_of_mem (p := fun x : Transaction n => x.preOp = (s.threads t).preOp ∧ Sharing x.share)
      (Finset.mem_univ t) ⟨rfl, hshare⟩
  unfold FdCtx.counted FdCtx.lent at hpos
  unfold FdCtx.counted
  split at hpos
  · next hD =>
    rw [if_pos hD]
    refine Nat.pos_of_ne_zero fun hzero => ?_
    have := (hok.fd.drained hzero).1
    omega
  · omega

/-- What lies at one set of bricks changes the sum over the sets that have a brick in common. -/
theorem sum_of_same_but {f g : Subvols n → ℤ} {D : Subvols n} (h : ∀ D', D' ≠ D → g D' = f D')
    (k : Fin n) :
    ∑ D' with k ∈ D', g D' = (∑ D' with k ∈ D', f D') + if k ∈ D then g D - f D else 0 := by
  by_cases hk : k ∈ D
  · have hmem : D ∈ Finset.univ.filter fun D' : Subvols n => k ∈ D' := by simpa using hk
    rw [← Finset.add_sum_erase _ _ hmem, ← Finset.add_sum_erase _ _ hmem, if_pos hk,
      Finset.sum_congr rfl fun D' hD' => h D' (Finset.ne_of_mem_erase hD')]
    ring
  · rw [if_neg hk, add_zero]
    refine Finset.sum_congr rfl fun D' hD' => h D' ?_
    rintro rfl
    exact hk (Finset.mem_filter.mp hD').2

/-- The balance of one step, read off its entry. -/
theorem Balanced.entry (h : Balanced priv s) (hok : s.Ok) (hadv : s.Advanced s' t y added)
    (hcounts : (s.threads t).share = some .fresh → y.share = some .settled →
      s'.fd.counted y.preOp ≠ s.fd.counted y.preOp) :
    s'.fd.counted y.preOp + s'.fd.lent y.preOp + (if Sharing (s.threads t).share then 1 else 0) =
        s.fd.counted y.preOp + s.fd.lent y.preOp + (if Sharing y.share then 1 else 0) ∧
      added + s'.fd.lent y.preOp + (if (s.threads t).share.isSome then 1 else 0) =
        s.fd.lent y.preOp + (if y.share.isSome then 1 else 0) +
          (if (s.threads t).share = some .due ∧ y.share = none ∧ added = 0 then 1 else 0) := by
  obtain ⟨b, hstep, hheld, hcounted, hlent, hmarks, -⟩ :=
    hadv.entry ⟨single (s.threads t).share, s.fd.counted y.preOp, s.fd.lent y.preOp, 0, 0⟩
      (single y.share) rfl rfl (moves_single _ _)
  rw [← hcounted, ← hlent]
  rw [← hcounted] at hcounts
  have hpos : Sharing (s.threads t).share → 0 < s.fd.counted y.preOp := fun hshare => by
    rcases hadv.share with hnone | hsame
    · rw [hnone] at hshare
      rcases hshare with hshare | hshare <;> cases hshare
    · exact hsame ▸ h.counted_pos hok hshare
  rcases hstep with rfl | hstep
  · have hsame : (s.threads t).share = y.share := single_injective hheld
    have hnot : ¬ (y.share = some .due ∧ y.share = none ∧ added = 0) := by
      rintro ⟨hdue, hnone, _⟩
      cases hdue.symm.trans hnone
    dsimp only at hmarks ⊢
    rw [hsame, if_neg hnot]
    exact ⟨rfl, by omega⟩
  · obtain ⟨hshared, hbalance⟩ := hstep.balance rfl hheld hpos hcounts
    simp only [hmarks, zero_add] at hbalance
    exact ⟨hshared, hbalance⟩

/-- What counts for a transaction with certain bricks changes with one transaction. -/
theorem tally_advance (R : Subvols n → Prop) [DecidablePred R] (Q : Transaction n → Prop)
    [DecidablePred Q] (threads : Fin N → Transaction n) (t : Fin N) (y : Transaction n)
    (hx : Q (threads t) → (threads t).preOp = y.preOp) :
    tally Finset.univ (fun x : Transaction n => R x.preOp ∧ Q x) (Function.update threads t y) +
        (if R y.preOp ∧ Q (threads t) then 1 else 0) =
      tally Finset.univ (fun x : Transaction n => R x.preOp ∧ Q x) threads +
        (if R y.preOp ∧ Q y then 1 else 0) := by
  have hold : R y.preOp ∧ Q (threads t) ↔ R (threads t).preOp ∧ Q (threads t) :=
    and_congr_left fun h => by rw [hx h]
  simp only [hold]
  exact tally_update threads (Finset.mem_univ t) y

/-- **One step keeps the balance.** -/
theorem Balanced.advance (h : Balanced priv s) (hok : s.Ok) (hadv : s.Advanced s' t y added)
    (hclean : y.Clean priv)
    (hcounts : (s.threads t).share = some .fresh → y.share = some .settled →
      s'.fd.counted y.preOp ≠ s.fd.counted y.preOp)
    (hx : (s.threads t).phase ≠ .done)
    (hy : y.Uncleared ↔ (s.threads t).share = some .due ∧ y.share = none ∧ added = 0)
    (haccused : ∀ k j, s'.accusations k j ≠ s.accusations k j → k ∈ y.preOp ∧ j ∉ y.preOp) :
    Balanced priv s' := by
  obtain ⟨hshared, hbalance⟩ := h.entry hok hadv hcounts
  have hnotx : ¬ (s.threads t).Uncleared := fun h => hx h.1
  have hmarked : added + s'.fd.lent y.preOp + (if (s.threads t).Marked then 1 else 0) =
      s.fd.lent y.preOp + (if y.Marked then 1 else 0) := by
    simp only [Transaction.Marked, hnotx, or_false, hbalance, ← hy]
    by_cases huncleared : y.Uncleared
    · simp [huncleared, (hy.mp huncleared).2.1]
    · simp [huncleared]
  have hsharing : Sharing (s.threads t).share → (s.threads t).preOp = y.preOp := fun hshare =>
    hadv.share.resolve_left fun hnone => by simp [Sharing, hnone] at hshare
  have hmark : (s.threads t).Marked → (s.threads t).preOp = y.preOp := fun hmark =>
    hadv.share.resolve_left fun hnone => by simp [Transaction.Marked, hnone, hnotx] at hmark
  refine ⟨fun t' => ?_, fun D => ?_, fun k => ?_, fun k j hne => ?_⟩
  · rw [hadv.threads]
    by_cases ht : t' = t
    · rw [ht, Function.update_self]
      exact hclean
    · rw [Function.update_of_ne ht]
      exact h.clean t'
  · have htally := tally_advance (· = D) (fun x => Sharing x.share) s.threads t y hsharing
    rw [hadv.threads]
    by_cases hD : y.preOp = D
    · subst hD
      simp only [true_and] at htally
      have := h.covered y.preOp
      omega
    · simp only [hD, false_and, if_false, add_zero] at htally
      rw [htally, ← h.covered, (hadv.same D (Ne.symm hD)).1, (hadv.same D (Ne.symm hD)).2]
  · have htally := tally_advance (k ∈ ·) Transaction.Marked s.threads t y hmark
    have hsum := sum_of_same_but (f := fun D => (s.fd.lent D : ℤ))
      (g := fun D => (s'.fd.lent D : ℤ)) (fun D hD => congrArg Nat.cast (hadv.same D hD).2) k
    have hdirty := h.dirty k
    rw [hadv.threads, hsum, hadv.dirty]
    by_cases hk : k ∈ y.preOp
    · simp only [hk, true_and, if_true] at htally ⊢
      have : ((tally Finset.univ (fun x : Transaction n => k ∈ x.preOp ∧ x.Marked)
          (Function.update s.threads t y) : ℕ) : ℤ) + (if (s.threads t).Marked then 1 else 0) =
          tally Finset.univ (fun x : Transaction n => k ∈ x.preOp ∧ x.Marked) s.threads +
            (if y.Marked then 1 else 0) := by exact_mod_cast htally
      linarith
    · simp only [hk, false_and, if_false, add_zero] at htally ⊢
      rw [htally, hdirty]
  · rw [hadv.threads]
    by_cases hold : s'.accusations k j = s.accusations k j
    · obtain ⟨t', hk, hj⟩ := h.accused k j (hold ▸ hne)
      refine ⟨t', ?_⟩
      by_cases ht : t' = t
      · subst ht
        rw [Function.update_self]
        rcases hadv.origin with hnew | hsame
        · rw [hnew] at hk
          exact absurd hk (Finset.notMem_empty k)
        · exact hsame ▸ ⟨hk, hj⟩
      · rw [Function.update_of_ne ht]
        exact ⟨hk, hj⟩
    · refine ⟨t, ?_⟩
      rw [Function.update_self]
      exact haccused k j hold

end Advance

/-! ## The functions -/

/-- What the changelog does not touch when nothing fails. -/
structure Keeps (x y : Transaction n) : Prop where
  failed : y.failedSubvols = x.failedSubvols
  pending : y.pending = x.pending
  preOp : y.preOp = x.preOp

section Functions

variable {priv : AfrPrivate} {fd : FdCtx n} {x y z : Transaction n}

theorem Keeps.refl (x : Transaction n) : Keeps x x := ⟨rfl, rfl, rfl⟩

theorem Keeps.trans (hxy : Keeps x y) (hyz : Keeps y z) : Keeps x z :=
  ⟨hyz.failed.trans hxy.failed, hyz.pending.trans hxy.pending, hyz.preOp.trans hxy.preOp⟩

theorem Keeps.phase (h : Keeps x y) (p : Phase) : Keeps x { y with phase := p } :=
  ⟨h.failed, h.pending, h.preOp⟩

theorem Transaction.Clean.keeps (h : x.Clean priv) (hidle : x.phase ≠ .idle)
    (hdone : x.phase ≠ .done) (hkeeps : Keeps x y) : y.Clean priv := by
  refine ⟨hkeeps.failed.trans h.failed, ?_, .inr (.inr ?_)⟩
  · rw [hkeeps.pending, hkeeps.preOp]
    exact h.pending
  · rw [hkeeps.preOp]
    exact (h.quorum.resolve_left hidle).resolve_left hdone

theorem update_keeps (fd : FdCtx n) (x : Transaction n) :
    Keeps x (afrChangelogPreOpUpdate fd x).2 := by
  rcases update_cases fd x with heq | ⟨_, _, ⟨_, heq⟩ | ⟨_, _, heq⟩ | ⟨_, _, heq⟩⟩ <;> rw [heq] <;>
    exact ⟨rfl, rfl, rfl⟩

theorem uninherit_keeps (fd : FdCtx n) (x : Transaction n) :
    Keeps x (afrChangelogPreOpUninherit fd x).2.1 ∧
      (afrChangelogPreOpUninherit fd x).2.1.phase = x.phase := by
  rcases uninherit_cases fd x with ⟨_, heq⟩ | ⟨_, ⟨_, _, heq⟩ | ⟨_, heq⟩⟩ <;> rw [heq] <;>
    exact ⟨⟨rfl, rfl, rfl⟩, rfl⟩

/-- A transaction nothing of which has failed keeps its quorum. -/
theorem handleQuorum_of_clean (h : x.Clean priv) (hidle : x.phase ≠ .idle)
    (hdone : x.phase ≠ .done) : afrHandleQuorum priv x = x := by
  have hquorum := (h.quorum.resolve_left hidle).resolve_left hdone
  simp [afrHandleQuorum, h.failed, hquorum]

theorem postOpNow_keeps (h : x.Clean priv) (hidle : x.phase ≠ .idle) (hdone : x.phase ≠ .done) :
    Keeps x (afrChangelogPostOpNow priv fd x).2 := by
  unfold afrChangelogPostOpNow
  rw [handleQuorum_of_clean h hidle hdone]
  exact (uninherit_keeps fd x).1.phase _

theorem postOp_keeps (h : x.Clean priv) (hphase : x.phase = .resumed) (delay witnessed : Bool) :
    Keeps x (afrChangelogPostOp priv fd x delay witnessed).2 := by
  unfold afrChangelogPostOp
  split
  · exact (Keeps.refl x).phase _
  · obtain ⟨hkeeps, hphase'⟩ := uninherit_keeps fd x
    have hidle : x.phase ≠ .idle := by simp [hphase]
    have hdone : x.phase ≠ .done := by simp [hphase]
    unfold afrChangelogPostOpSafe
    dsimp only
    split
    · refine hkeeps.trans (postOpNow_keeps (h.keeps hidle hdone hkeeps) ?_ ?_)
      · exact hphase'.trans_ne hidle
      · exact hphase'.trans_ne hdone
    · exact hkeeps.phase _

theorem fopFailed_of_disjoint {failed : Subvols n} (h : x.preOp ∩ failed = ∅) :
    x.fopFailed failed = x := by
  rw [Transaction.fopFailed, h, Finset.union_empty]

/-- A mark of its own is counted, unless the transaction is isolated. -/
theorem update_counts (hfailed : x.failedSubvols = ∅) (hinherited : x.inherited = false)
    (hdirtied : x.dirtied = true) (hiso : (afrChangelogPreOpUpdate fd x).2.noUninherit = false) :
    (afrChangelogPreOpUpdate fd x).1.counted x.preOp ≠ fd.counted x.preOp := by
  have hcounts : ¬ (x.inherited ∨ ¬ x.dirtied ∨ ¬ afrTxnNothingFailed x) := by
    simp [hinherited, hdirtied, afrTxnNothingFailed, hfailed]
  unfold afrChangelogPreOpUpdate at hiso ⊢
  rw [if_neg hcounts] at hiso ⊢
  split
  · next hzero => simp [FdCtx.counted, hzero]
  · next hpos =>
    rw [if_neg hpos] at hiso
    split
    · next hne =>
      rw [if_pos hne] at hiso
      cases hiso
    · next heq => simp [FdCtx.counted, not_not.mp heq]

/-- The share says where a transaction stands. -/
theorem Transaction.of_share_fresh (h : x.share = some .fresh) :
    x.beforeUpdate = true ∧ x.inherited = false ∧ x.dirtied = true := by
  grind [Transaction.share]

theorem Transaction.noUninherit_of_settled (h : x.share = some .settled) :
    x.noUninherit = false := by
  grind [Transaction.share]

theorem Transaction.of_share_due (h : x.share = some .due) :
    x.needUndirty = true ∧ (x.noUninherit = false ∧ x.uninherit.isSome = true ∨
      ∃ b, x.phase = .postOp b) := by
  grind [Transaction.share]

end Functions

/-! ## The steps -/

section Steps

variable {priv : AfrPrivate} {s s' : ChangelogState n N} {t : Fin N}

/-- A transaction runs, and sends nothing. -/
theorem Balanced.run (h : Balanced priv s) (hok : s.Ok) {result : FdCtx n × Transaction n}
    (hran : Ran s.fd result.1 (s.threads t) result.2) (hkeeps : Keeps (s.threads t) result.2)
    (hcounts : (s.threads t).share = some .fresh → result.2.share = some .settled →
      result.1.counted (s.threads t).preOp ≠ s.fd.counted (s.threads t).preOp)
    (hidle : (s.threads t).phase ≠ .idle) (hdone : (s.threads t).phase ≠ .done)
    (hy : result.2.phase ≠ .done)
    (hdue : (s.threads t).share = some .due → result.2.share ≠ none) :
    Balanced priv (s.run t result) := by
  refine h.advance hok (ChangelogState.run_advanced hran) ((h.clean t).keeps hidle hdone hkeeps) ?_
    hdone ?_ fun k j hne => absurd rfl hne
  · rw [hran.preOp]
    exact hcounts
  · exact iff_of_false (fun h => hy h.1) fun h => hdue h.1 h.2.1

/-- A transaction that is due has called `afr_changelog_pre_op_uninherit` before. -/
theorem not_due {x : Transaction n} (huninherit : x.uninherit = none)
    (hphase : ∀ b, x.phase ≠ .postOp b) : x.share ≠ some .due := by
  intro hdue
  rcases (Transaction.of_share_due hdue).2 with ⟨_, hsome⟩ | ⟨b, hp⟩
  · rw [huninherit] at hsome
    cases hsome
  · exact hphase b hp

theorem not_fresh {x : Transaction n} (hbefore : x.beforeUpdate = false) :
    x.share ≠ some .fresh := fun hfresh =>
  absurd (Transaction.of_share_fresh hfresh).1 (Bool.eq_false_iff.mp hbefore)

/-- Who waits for an fsync and is due stays due. -/
theorem postOpNow_due {fd : FdCtx n} {x : Transaction n} (hclean : x.Clean priv)
    (hphase : x.phase = .fsync) (hdue : x.share = some .due) :
    (afrChangelogPostOpNow priv fd x).2.share ≠ none := by
  obtain ⟨hneed, ⟨hiso, hsome⟩ | ⟨b, hp⟩⟩ := Transaction.of_share_due hdue
  · obtain ⟨found, hfound⟩ := Option.isSome_iff_exists.mp hsome
    unfold afrChangelogPostOpNow
    rw [handleQuorum_of_clean hclean (by simp [hphase]) (by simp [hphase])]
    simp_all [afrChangelogPreOpUninherit, Transaction.share, Transaction.needUndirty]
  · cases hphase.symm.trans hp

theorem Balanced.performFop (h : Balanced priv s) (hok : s.Ok)
    (hphase : (s.threads t).phase = .preOp) {failed : Subvols n}
    (hfailed : (s.threads t).preOp ∩ failed = ∅) :
    Balanced priv (s.run t (afrTransactionPerformFop s.fd ((s.threads t).fopFailed failed))) := by
  have hidle : (s.threads t).phase ≠ .idle := by simp [hphase]
  have hdone : (s.threads t).phase ≠ .done := by simp [hphase]
  have hx := hok.working hidle hdone
  have hran := performFop_ran hok.fd hx hphase failed
  have hflags := hx.phase
  rw [hphase] at hflags
  rw [fopFailed_of_disjoint hfailed] at hran ⊢
  have hrun : afrTransactionPerformFop s.fd (s.threads t) =
      ((afrChangelogPreOpUpdate s.fd (s.threads t)).1,
        { (afrChangelogPreOpUpdate s.fd (s.threads t)).2 with phase := .fop }) := by
    simp [afrTransactionPerformFop, hflags.1]
  rw [hrun] at hran ⊢
  refine h.run hok hran ((update_keeps _ _).phase _) (fun hfresh hsettled => ?_) hidle hdone
    (fun h => by cases h) fun hdue => absurd hdue (not_due hflags.2.2.1 (by simp [hphase]))
  obtain ⟨_, hinherited, hdirtied⟩ := Transaction.of_share_fresh hfresh
  have hiso := Transaction.noUninherit_of_settled hsettled
  exact update_counts (h.clean t).failed hinherited hdirtied hiso

theorem Balanced.resume (h : Balanced priv s) (hok : s.Ok)
    (hphase : (s.threads t).phase = .fop) {replies : Fin n → FopReply}
    (huniform : Uniform (s.threads t).preOp replies) :
    Balanced priv (s.run t (afrTransactionResume (s.threads t) replies s.fd)) := by
  have hidle : (s.threads t).phase ≠ .idle := by simp [hphase]
  have hdone : (s.threads t).phase ≠ .done := by simp [hphase]
  have hx := hok.working hidle hdone
  have hran := resume_ran hok.fd hx hphase replies
  have hflags := hx.phase
  rw [hphase] at hflags
  have hnotDue := not_due hflags.1 (by simp [hphase])
  have hfailed := failedSubvols_of_uniform (h.clean t).failed huniform
  obtain ⟨failed, opRet, heq⟩ := resume_eq (s.threads t) replies
  rw [heq] at hfailed
  obtain rfl : failed = ∅ := hfailed
  have hkeeps : Keeps (s.threads t) { s.threads t with failedSubvols := ∅, opRet := opRet } :=
    ⟨(h.clean t).failed.symm, rfl, rfl⟩
  unfold afrTransactionResume at hran ⊢
  rw [heq] at hran ⊢
  dsimp only at hran ⊢
  by_cases hcompat : (s.threads t).preOpCompat = true
  · rw [if_pos hcompat] at hran ⊢
    refine h.run hok hran (hkeeps.phase _) (fun hfresh => absurd hfresh (not_fresh ?_)) hidle hdone
      (fun h => by cases h) fun hdue => absurd hdue hnotDue
    simp [Transaction.beforeUpdate, hphase, hcompat]
  · rw [if_neg hcompat] at hran ⊢
    refine h.run hok hran ((hkeeps.trans (update_keeps _ _)).phase _) (fun hfresh hsettled => ?_)
      hidle hdone (fun h => by cases h) fun hdue => absurd hdue hnotDue
    obtain ⟨_, hinherited, hdirtied⟩ := Transaction.of_share_fresh hfresh
    have hiso := Transaction.noUninherit_of_settled hsettled
    exact @update_counts _ s.fd { s.threads t with failedSubvols := ∅, opRet := opRet } rfl
      hinherited hdirtied hiso

theorem Balanced.postOp (h : Balanced priv s) (hok : s.Ok)
    (hphase : (s.threads t).phase = .resumed) (delay witnessed : Bool) :
    Balanced priv (s.run t (afrChangelogPostOp priv s.fd (s.threads t) delay witnessed)) := by
  have hidle : (s.threads t).phase ≠ .idle := by simp [hphase]
  have hdone : (s.threads t).phase ≠ .done := by simp [hphase]
  have hx := hok.working hidle hdone
  have huninherit : (s.threads t).uninherit = none := by simpa [hphase] using hx.phase
  refine h.run hok (postOp_ran hok.fd hx hphase delay witnessed)
    (postOp_keeps (h.clean t) hphase delay witnessed)
    (fun hfresh => absurd hfresh (not_fresh (by simp [Transaction.beforeUpdate, hphase])))
    hidle hdone ?_ fun hdue => absurd hdue (not_due huninherit (by simp [hphase]))
  unfold afrChangelogPostOp
  split
  · exact fun h => by cases h
  · rcases @postOpSafe_cases _ priv s.fd (s.threads t) witnessed with
      ⟨_, _, heq⟩ | ⟨_, _, _, heq⟩ <;> rw [heq] <;> exact fun h => by cases h

theorem Balanced.postOpNow (h : Balanced priv s) (hok : s.Ok)
    (hphase : (s.threads t).phase = .delayed ∨ (s.threads t).phase = .fsync) :
    Balanced priv (s.run t (afrChangelogPostOpNow priv s.fd (s.threads t))) := by
  have hidle : (s.threads t).phase ≠ .idle := by rcases hphase with h | h <;> simp [h]
  have hdone : (s.threads t).phase ≠ .done := by rcases hphase with h | h <;> simp [h]
  have hx := hok.working hidle hdone
  refine h.run hok (postOpNow_ran hok.fd hx (.inr hphase) _ _)
    (postOpNow_keeps (h.clean t) hidle hdone) (fun hfresh => absurd hfresh (not_fresh ?_)) hidle
    hdone (fun h => by cases h) fun hdue => ?_
  · rcases hphase with h | h <;> simp [Transaction.beforeUpdate, h]
  · rcases hphase with hp | hp
    · have huninherit : (s.threads t).uninherit = none := by simpa [hp] using hx.phase
      exact absurd hdue (not_due huninherit (by simp [hp]))
    · exact postOpNow_due (h.clean t) hp hdue

/-- What a new transaction looks like, and whom it accuses. -/
theorem preOp_begun (priv : AfrPrivate) (s : ChangelogState n N) (t : Fin N) (compat : Bool)
    (locked : Subvols n) :
    ∃ y : Transaction n,
      (s.afrChangelogPreOp priv t compat locked).threads = Function.update s.threads t y ∧
      y.preOp = locked ∧ y.Clean priv ∧ y.needUndirty = false ∧
      ∀ k j, (s.afrChangelogPreOp priv t compat locked).accusations k j ≠ s.accusations k j →
        k ∈ locked ∧ j ∉ locked := by
  rcases ChangelogState.afrChangelogPreOp_cases priv s t compat locked with
    heq | ⟨_, hquorum, ⟨_, _, heq⟩ | ⟨_, heq⟩ | ⟨p, _, heq⟩⟩
  · rw [heq]
    exact ⟨_, rfl, rfl, ⟨rfl, Finset.disjoint_empty_left _, .inr (.inl rfl)⟩, rfl,
      fun k j h => absurd rfl h⟩
  · rw [heq]
    exact ⟨_, rfl, rfl, ⟨rfl, Finset.disjoint_empty_left _, .inr (.inr hquorum)⟩, rfl,
      fun k j h => absurd rfl h⟩
  · rw [heq]
    exact ⟨_, rfl, rfl, ⟨rfl, disjoint_compl_left, .inr (.inr hquorum)⟩, rfl,
      fun k j h => absurd rfl h⟩
  · rw [heq]
    refine ⟨_, rfl, rfl, ⟨rfl, disjoint_compl_left, .inr (.inr hquorum)⟩, rfl, fun k j h => ?_⟩
    by_contra hnot
    refine h ?_
    simp only [ChangelogState.run, ChangelogState.afrChangelogDo, Finset.mem_compl, if_neg hnot,
      add_zero]

theorem Balanced.preOp (h : Balanced priv s) (hok : s.Ok) (hidle : (s.threads t).phase = .idle)
    (compat : Bool) (locked : Subvols n) :
    Balanced priv (s.afrChangelogPreOp priv t compat locked) := by
  obtain ⟨y, added, hadv⟩ := @ChangelogState.Ok.preOp _ _ _ priv _ hok hidle compat locked
  obtain ⟨y', hthreads, hpreOp, hclean, hneed, haccused⟩ := preOp_begun priv s t compat locked
  obtain rfl : y = y' := by
    simpa using congrFun (hadv.threads.symm.trans hthreads) t
  have hshare : (s.threads t).share = none := by
    rw [hok.idle hidle]
    rfl
  refine h.advance hok hadv hclean (by simp [hshare]) (by simp [hidle]) ?_ ?_
  · refine iff_of_false (fun h => ?_) fun h => ?_
    · cases hneed.symm.trans h.2.2
    · cases hshare.symm.trans h.1
  · rw [hpreOp]
    exact haccused

/-- The end of a transaction accuses those it was not sent to. -/
theorem finish_accused (s : ChangelogState n N) (t : Fin N) (needUndirty : Bool)
    (hclean : (s.threads t).Clean priv) (k j : Fin n)
    (h : (s.afrChangelogPostOpSend t needUndirty).accusations k j ≠ s.accusations k j) :
    k ∈ (s.threads t).preOp ∧ j ∉ (s.threads t).preOp := by
  unfold ChangelogState.afrChangelogPostOpSend at h
  dsimp only at h
  split at h
  · exact absurd rfl h
  · split at h
    · exact absurd rfl h
    · by_contra hnot
      refine h ?_
      have hpending : ¬ (k ∈ (s.threads t).preOp ∧ j ∈ (s.threads t).pending) := fun hpending =>
        hnot ⟨hpending.1, Finset.disjoint_left.mp hclean.pending hpending.2⟩
      simp only [ChangelogState.run, ChangelogState.afrChangelogDo, hclean.failed,
        Finset.union_empty, if_neg hpending, add_zero]

theorem Balanced.finish (h : Balanced priv s) (hok : s.Ok) {needUndirty : Bool}
    (hphase : (s.threads t).phase = .postOp needUndirty) :
    Balanced priv (s.afrChangelogPostOpSend t needUndirty) := by
  have hidle : (s.threads t).phase ≠ .idle := by simp [hphase]
  have hdone : (s.threads t).phase ≠ .done := by simp [hphase]
  have hx := (hok.working hidle hdone).phase
  rw [hphase] at hx
  have hshare : (s.threads t).share = if needUndirty then some .due else none := by
    simp [Transaction.share, hphase, hx.2]
  refine h.advance hok (hok.finish hphase)
    ((h.clean t).keeps hidle hdone ((Keeps.refl _).phase _)) ?_ hdone ?_
    (finish_accused s t needUndirty (h.clean t))
  · rw [hshare]
    cases needUndirty <;> exact fun h => by cases h
  · have hnone : ({ s.threads t with phase := .done } : Transaction n).share = none := rfl
    have huncleared : ({ s.threads t with phase := .done } : Transaction n).Uncleared ↔
        (s.threads t).opRet < 0 ∧ needUndirty = true := by
      rw [hx.2]
      exact ⟨fun h => h.2, fun h => ⟨rfl, h⟩⟩
    rw [huncleared, hshare, hnone]
    cases needUndirty <;> simp

/-- **Every step in which the bricks answer in the same way keeps the balance.** -/
theorem Balanced.step (h : Balanced priv s) (hok : s.Ok) {a : ChangelogAct n N}
    (hsymmetric : Symmetric s a) (hstep : changelogStep priv s a = some s') : Balanced priv s' := by
  cases a with
  | preOp t compat locked =>
      obtain ⟨hphase, heq⟩ := Option.ite_none_right_eq_some.mp hstep
      cases heq
      exact h.preOp hok hphase compat locked
  | performFop t failed =>
      obtain ⟨hphase, heq⟩ := Option.ite_none_right_eq_some.mp hstep
      cases heq
      exact h.performFop hok hphase hsymmetric
  | resume t replies =>
      obtain ⟨hphase, heq⟩ := Option.ite_none_right_eq_some.mp hstep
      cases heq
      exact h.resume hok hphase hsymmetric
  | postOp t delay witnessed =>
      obtain ⟨hphase, heq⟩ := Option.ite_none_right_eq_some.mp hstep
      cases heq
      exact h.postOp hok hphase delay witnessed
  | fsync t failed =>
      obtain ⟨hphase, heq⟩ := Option.ite_none_right_eq_some.mp hstep
      cases heq
      rw [fopFailed_of_disjoint hsymmetric]
      exact h.postOpNow hok (.inr hphase)
  | wakeUp t =>
      obtain ⟨hphase, heq⟩ := Option.ite_none_right_eq_some.mp hstep
      cases heq
      exact h.postOpNow hok (.inl hphase)
  | finish t =>
      simp only [changelogStep] at hstep
      split at hstep
      · next hphase =>
        cases hstep
        exact h.finish hok hphase
      · cases hstep

theorem Balanced.initial : Balanced priv (ChangelogState.initial : ChangelogState n N) := by
  refine ⟨fun t => ⟨rfl, Finset.disjoint_empty_left _, .inl rfl⟩, fun D => ?_, fun k => ?_, ?_⟩
  · rw [tally_eq_zero fun t _ h => by rcases h.2 with h | h <;> cases h]
    exact congrArg₂ (· + ·) (ite_self 0) (ite_self 0)
  · have hlent : ∀ D, (ChangelogState.initial : ChangelogState n N).fd.lent D = 0 :=
      fun D => ite_self 0
    rw [tally_eq_zero fun t _ h => absurd h.1 (Finset.notMem_empty k),
      Finset.sum_eq_zero fun D _ => congrArg Nat.cast (hlent D)]
    rfl
  · exact fun k j h => absurd rfl h

end Steps

/-! ## The result -/

section Result

variable {priv : AfrPrivate} {s : ChangelogState n N}

/-- A mark that was not cleared is on some brick. -/
theorem ChangelogState.Ok.nonempty_of_uncleared (h : s.Ok) {t : Fin N}
    (huncleared : (s.threads t).Uncleared) : (s.threads t).preOp.Nonempty := by
  obtain ⟨hphase, -, hneed⟩ := huncleared
  rcases h.threads t with heq | ⟨_, _, heq⟩ | hworking
  · rw [heq] at hphase
    cases hphase
  · rw [heq] at hneed
    cases hneed
  · exact hworking.nonempty

theorem balanced_of_reachable (h : (changelogMachine priv n N).ReachableWhen Symmetric s) :
    Balanced priv s := by
  have hinv : s.Ok ∧ Balanced priv s := by
    refine h.invariant (fun s => s.Ok ∧ Balanced priv s) ?_ ?_
    · rintro s rfl
      exact ⟨ChangelogState.initial_ok, .initial⟩
    · intro s a s' hs hsymmetric hstep
      exact ⟨hs.1.step hstep, hs.2.step hs.1 hsymmetric hstep⟩
  exact hinv.2

/-- One transaction has run. -/
theorem run_not_uncleared {result : FdCtx n × Transaction n} (h : ∀ t, ¬ (s.threads t).Uncleared)
    (t : Fin N) (hresult : ¬ result.2.Uncleared) : ∀ t', ¬ ((s.run t result).threads t').Uncleared := by
  intro t'
  by_cases ht : t' = t
  · subst ht
    simp only [ChangelogState.run, Function.update_self]
    exact hresult
  · simp only [ChangelogState.run, Function.update_of_ne ht]
    exact h t'

theorem not_uncleared_of_phase {x : Transaction n} {p : Phase} (h : x.phase = p) (hp : p ≠ .done) :
    ¬ x.Uncleared :=
  fun huncleared => hp (h.symm.trans huncleared.1)

theorem Clears.step {s' : ChangelogState n N} {a : ChangelogAct n N} (hclears : Clears s a)
    (h : ∀ t, ¬ (s.threads t).Uncleared) (hstep : changelogStep priv s a = some s') :
    ∀ t, ¬ (s'.threads t).Uncleared := by
  cases a with
  | preOp t compat locked =>
      obtain ⟨-, heq⟩ := Option.ite_none_right_eq_some.mp hstep
      cases heq
      rcases s.afrChangelogPreOp_cases priv t compat locked with
        heq | ⟨-, -, ⟨-, -, heq⟩ | ⟨-, heq⟩ | ⟨p, hp, heq⟩⟩
      · rw [heq]
        exact run_not_uncleared h t fun huncleared => by cases huncleared.2.2
      · rw [heq]
        exact run_not_uncleared h t (not_uncleared_of_phase (p := .fop) rfl (by simp))
      · rw [heq]
        exact run_not_uncleared h t (not_uncleared_of_phase (p := .fop) rfl (by simp))
      · rw [heq]
        refine run_not_uncleared (s := s.afrChangelogDo _ _ _) h t
          (not_uncleared_of_phase (p := p) rfl ?_)
        rcases hp with ⟨rfl, -⟩ | ⟨rfl, -⟩ <;> simp
  | performFop t failed =>
      obtain ⟨-, heq⟩ := Option.ite_none_right_eq_some.mp hstep
      cases heq
      exact run_not_uncleared h t (not_uncleared_of_phase (p := .fop) rfl (by simp))
  | resume t replies =>
      obtain ⟨-, heq⟩ := Option.ite_none_right_eq_some.mp hstep
      cases heq
      exact run_not_uncleared h t (not_uncleared_of_phase (p := .resumed) rfl (by simp))
  | postOp t delay witnessed =>
      obtain ⟨-, heq⟩ := Option.ite_none_right_eq_some.mp hstep
      cases heq
      refine run_not_uncleared h t ?_
      rw [afrChangelogPostOp]
      split
      · exact not_uncleared_of_phase (p := .delayed) rfl (by simp)
      · rcases @postOpSafe_cases _ priv s.fd (s.threads t) witnessed with
          ⟨failed, opRet, heq⟩ | ⟨-, -, -, heq⟩
        · rw [heq]
          exact not_uncleared_of_phase (p := .postOp _) rfl (by simp)
        · rw [heq]
          exact not_uncleared_of_phase (p := .fsync) rfl (by simp)
  | fsync t failed =>
      obtain ⟨-, heq⟩ := Option.ite_none_right_eq_some.mp hstep
      cases heq
      exact run_not_uncleared h t (not_uncleared_of_phase (p := .postOp _) rfl (by simp))
  | wakeUp t =>
      obtain ⟨-, heq⟩ := Option.ite_none_right_eq_some.mp hstep
      cases heq
      exact run_not_uncleared h t (not_uncleared_of_phase (p := .postOp _) rfl (by simp))
  | finish t =>
      have hdone : ¬ ({ s.threads t with phase := .done } : Transaction n).Uncleared := by
        rintro ⟨-, hfailed, hneed⟩
        rcases hclears with hret | hclean
        · exact absurd hfailed (not_lt.mpr hret)
        · exact Bool.noConfusion (hclean.symm.trans hneed)
      simp only [changelogStep] at hstep
      split at hstep
      · cases hstep
        unfold ChangelogState.afrChangelogPostOpSend
        dsimp only
        split
        · exact run_not_uncleared h t hdone
        · split
          · exact run_not_uncleared h t hdone
          · exact run_not_uncleared (s := s.afrChangelogDo _ _ _) h t hdone
      · cases hstep

/-- **The dirty counts after transactions that have ended in the same way on all their bricks.**
A brick has one mark for every transaction that has failed and was told to clear the mark; so the
counts are back at zero when there is none, and only then.  A brick is accused only by
transactions that were not sent to it.  When no step of the run is the end of a transaction that has
failed and was told to clear the mark, all counts are zero. -/
theorem dirty_after_symmetric (h : (changelogMachine priv n N).ReachableWhen Symmetric s)
    (hdone : ∀ t, (s.threads t).phase = .idle ∨ (s.threads t).phase = .done) :
    (∀ k, s.dirty k = (Finset.univ.filter fun t =>
        k ∈ (s.threads t).preOp ∧ (s.threads t).Uncleared).card) ∧
      ((∀ k, s.dirty k = 0) ↔ ∀ t, ¬ (s.threads t).Uncleared) ∧
      (∀ k j, s.accusations k j ≠ 0 → ∃ t, k ∈ (s.threads t).preOp ∧ j ∉ (s.threads t).preOp) ∧
      ((changelogMachine priv n N).ReachableWhen (fun s a => Symmetric s a ∧ Clears s a) s →
        ∀ k, s.dirty k = 0) := by
  have hbalanced := balanced_of_reachable h
  have hshare : ∀ t, (s.threads t).share = none := fun t => by
    rcases hdone t with hphase | hphase <;> simp [Transaction.share, hphase]
  -- nobody shares a mark any more, so none is lent
  have hlent : ∀ D, s.fd.lent D = 0 := fun D => by
    have hcovered := hbalanced.covered D
    rw [tally_eq_zero fun t _ hsharing => by
      rw [hshare t] at hsharing
      rcases hsharing.2 with h | h <;> cases h] at hcovered
    omega
  have hcount : ∀ k, s.dirty k = (Finset.univ.filter fun t =>
      k ∈ (s.threads t).preOp ∧ (s.threads t).Uncleared).card := fun k => by
    have hdirty := hbalanced.dirty k
    simpa only [hlent, Nat.cast_zero, Finset.sum_const_zero, add_zero, tally, Transaction.Marked,
      hshare, Option.isSome_none, Bool.false_eq_true, false_or] using hdirty
  have hzero : (∀ t, ¬ (s.threads t).Uncleared) → ∀ k, s.dirty k = 0 := fun hnone k => by
    rw [hcount k, Nat.cast_eq_zero, Finset.card_eq_zero, Finset.filter_eq_empty_iff]
    exact fun t _ h => hnone t h.2
  refine ⟨hcount, ⟨fun hzero t huncleared => ?_, hzero⟩, hbalanced.accused, fun hclears => hzero ?_⟩
  · obtain ⟨k, hk⟩ := (changelog_ok h.reachable).nonempty_of_uncleared huncleared
    have hcard := (hcount k).symm.trans (hzero k)
    rw [Nat.cast_eq_zero, Finset.card_eq_zero, Finset.filter_eq_empty_iff] at hcard
    exact hcard (Finset.mem_univ t) ⟨hk, huncleared⟩
  · refine hclears.invariant (fun s => ∀ t, ¬ (s.threads t).Uncleared) ?_ ?_
    · rintro s rfl t huncleared
      cases huncleared.1
    · exact fun s a s' hs hok hstep => hok.2.step hs hstep

end Result

/-- The second of two transactions inherits the mark of the first one, fails on both bricks with
`ENOSPC` and ends; then the first one ends. -/
def failingBorrower : List (ChangelogAct 2 2) :=
  [.preOp 0 true bothBricks, .performFop 0 ∅, .preOp 1 true bothBricks,
    .resume 1 fun _ => ⟨-1, 28⟩, .postOp 1 false false, .finish 1,
    .resume 0 fun _ => ⟨10, 0⟩, .postOp 0 false false, .finish 0]

theorem dirty_after_symmetric_borrower : ∃ s : ChangelogState 2 2,
    (s.threads 1).opRet = -1 ∧ (s.threads 0).opRet = 10 ∧ ∀ k, s.dirty k = 0 := by
  have hresult : ((changelogMachine ⟨0, true⟩ 2 2).exec .initial failingBorrower).map
      (fun s => ((s.threads 0).opRet, (s.threads 0).phase, (s.threads 1).opRet,
        (s.threads 1).phase, (s.threads 1).needUndirty)) =
      some (10, .done, -1, .done, false) := by decide +kernel
  obtain ⟨s, hrun, heq⟩ := Option.map_eq_some_iff.mp hresult
  simp only [Prod.mk.injEq] at heq
  obtain ⟨hret₀, hphase₀, hret₁, hphase₁, hneed⟩ := heq
  have hreachable : (changelogMachine ⟨0, true⟩ 2 2).ReachableWhen Symmetric s :=
    Machine.ReachableWhen.exec (.start rfl) failingBorrower
      (fun a ha s => by
        simp only [failingBorrower, List.mem_cons, List.not_mem_nil, or_false] at ha
        rcases ha with rfl | rfl | rfl | rfl | rfl | rfl | rfl | rfl | rfl
        · trivial
        · exact Finset.inter_empty _
        · trivial
        · exact .inr ⟨28, by decide, fun _ _ => rfl⟩
        · trivial
        · trivial
        · exact .inl ⟨10, by decide, fun _ _ => rfl⟩
        · trivial
        · trivial) hrun
  have hdone : ∀ t, (s.threads t).phase = .idle ∨ (s.threads t).phase = .done :=
    Fin.forall_fin_two.mpr ⟨.inr hphase₀, .inr hphase₁⟩
  refine ⟨s, hret₁, hret₀, (dirty_after_symmetric hreachable hdone).2.1.mpr ?_⟩
  refine Fin.forall_fin_two.mpr ⟨fun h => ?_, fun h => ?_⟩
  · exact absurd h.2.1 (by rw [hret₀]; decide)
  · cases hneed.symm.trans h.2.2

/-- A write on two bricks fails with `ENOSPC` on both.  `afr_changelog_pre_op_uninherit` tells it
to clear the marks of its pre-op, and `afr_changelog_post_op_now` ends it before that. -/
theorem marks_left_by_failed_write : ∃ s : ChangelogState 2 1,
    (changelogMachine ⟨0, true⟩ 2 1).ReachableWhen Symmetric s ∧
      (∀ t, (s.threads t).phase = .done) ∧ (s.threads 0).failedSubvols = ∅ ∧
      s.dirty 0 = 1 ∧ s.dirty 1 = 1 := by
  have hresult : ((changelogMachine ⟨0, true⟩ 2 1).exec .initial
      [.preOp 0 true bothBricks, .performFop 0 ∅, .resume 0 fun _ => ⟨-1, 28⟩,
        .postOp 0 false false, .finish 0]).map
      (fun s => ((s.threads 0).phase, (s.threads 0).failedSubvols, s.dirty 0, s.dirty 1)) =
      some (.done, ∅, 1, 1) := by decide +kernel
  obtain ⟨s, hrun, heq⟩ := Option.map_eq_some_iff.mp hresult
  simp only [Prod.mk.injEq] at heq
  obtain ⟨hphase, hfailed, hzero, hone⟩ := heq
  refine ⟨s, Machine.ReachableWhen.exec (.start rfl) _ (fun a ha s => ?_) hrun,
    fun t => by rw [Subsingleton.elim t 0, hphase], hfailed, hzero, hone⟩
  simp only [List.mem_cons, List.not_mem_nil, or_false] at ha
  rcases ha with rfl | rfl | rfl | rfl | rfl
  · trivial
  · exact Finset.inter_empty _
  · exact .inr ⟨28, by decide, fun _ _ => rfl⟩
  · trivial
  · trivial

end GlusterFS.Afr
