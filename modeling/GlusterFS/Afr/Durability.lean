import Mathlib
import GlusterFS.Afr.ChangelogDirty

/-!
# Fsync before a dirty mark is cleared

A write that the bricks have answered may still be in their caches.  So that a dirty mark is not
cleared before the write it stands for has reached the disks, `afr_writev_wind_cbk` notes on the
descriptor that there was an unstable write (`afr_fd_report_unstable_write`), and
`afr_changelog_post_op_safe` sends an fsync and waits for its answers when it finds the note; to
find it is to remove it (`afr_fd_has_witnessed_unstable_write`).

The runs are those of the changelog with a history (`WriteHistory`): the note itself, which
unstable writes have been answered, which of them were followed by an fsync that has been
answered, and for each transaction which writes the mark stands for that it clears.  A mark
stands for the write of the transaction that clears it and for those that have left their mark to
others on the same bricks.  When a decrement is sent, `sent` keeps which unstable writes it
clears without an fsync.

There are none when three things hold (`Durable`).  All transactions lock the same bricks.  A
delayed post-op, which goes to `afr_changelog_post_op_now` directly, is woken only when its mark
is left to others or there is nothing to sync.  And nobody looks for the note while another
transaction waits for its fsync, since it is gone by then.
-/

namespace GlusterFS.Afr

variable {n N : ℕ}

/-! ## The history -/

/-- What has happened to the writes. -/
structure WriteHistory (N : ℕ) where
  /-- `witnessed_unstable_write` of the descriptor's context. -/
  witnessed : Bool
  /-- The unstable writes that have been answered. -/
  unstable : Finset (Fin N)
  /-- Those that were followed by an fsync which every brick has answered; a brick that answers
  with an error is marked as failed. -/
  synced : Finset (Fin N)
  /-- Those that were answered before the fsync of a transaction was sent to all their bricks. -/
  covers : Fin N → Finset (Fin N)
  /-- The writes whose mark a transaction clears, if it clears one. -/
  clears : Fin N → Finset (Fin N)
  /-- The decrements, and the unstable writes they have cleared without an fsync. -/
  sent : List (Fin N × Finset (Fin N))
  deriving DecidableEq

/-- Nothing has happened. -/
def WriteHistory.initial : WriteHistory N where
  witnessed := false
  unstable := ∅
  synced := ∅
  covers := fun _ => ∅
  clears := fun _ => ∅
  sent := []

/-- The writes on the bricks `D` that have left their mark to others. -/
def ChangelogState.released (s : ChangelogState n N) (D : Subvols n) : Finset (Fin N) :=
  Finset.univ.filter fun w => (s.threads w).preOp = D ∧ (s.threads w).uninherit.isSome = true ∧
    (s.threads w).needUndirty = false

namespace WriteHistory

/-- A transaction finds out whether it has to clear a mark. -/
def release (s : ChangelogState n N) (h : WriteHistory N) (t : Fin N) : WriteHistory N :=
  { h with clears := Function.update h.clears t (insert t (s.released (s.threads t).preOp)) }

/-- The fsync of a transaction is sent to its bricks. -/
def cover (s : ChangelogState n N) (h : WriteHistory N) (t : Fin N) : WriteHistory N :=
  let covered := h.unstable.filter fun w => (s.threads w).preOp ⊆ (s.threads t).preOp
  { h with covers := Function.update h.covers t covered }

/-- What a step adds.  `stable` are the writes that append or are made with `O_SYNC`. -/
def record (stable : Fin N → Bool) (s : ChangelogState n N) (h : WriteHistory N) :
    ChangelogAct n N → ChangelogState n N → WriteHistory N
  | .resume t _, _ =>
      if stable t then h else { h with witnessed := true, unstable := insert t h.unstable }
  | .postOp t _ _, s' =>
      let x := s.threads t
      if (s'.threads t).phase = .delayed then h
      else
        let h := h.release s t
        let h := if (s'.threads t).phase = .fsync then h.cover s t else h
        -- the note is not looked at when nothing is going to be sent
        { h with witnessed := h.witnessed && (afrChangelogPreOpUninherit s.fd x).2.2 &&
            afrTxnNothingFailed x }
  | .wakeUp t, _ => h.release s t
  | .fsync t _, _ => { h with synced := h.synced ∪ h.covers t }
  | .finish t, s' =>
      if ∃ k, s'.dirty k < s.dirty k then
        { h with sent := (t, (h.clears t).filter (stable · = false) \ h.synced) :: h.sent }
      else h
  | _, _ => h

/-- `afr_fd_has_witnessed_unstable_write` says what the note says. -/
def allow (h : WriteHistory N) : ChangelogAct n N → Bool
  | .postOp _ _ witnessed => witnessed == h.witnessed
  | _ => true

end WriteHistory

/-- The transactions on one descriptor, with the note of unstable writes. -/
def durabilityMachine (priv : AfrPrivate) (n : ℕ) (stable : Fin N → Bool) :
    Machine (ChangelogState n N × WriteHistory N) (ChangelogAct n N) :=
  (changelogMachine priv n N).observe .initial (fun _ h a => h.allow a) (WriteHistory.record stable)

theorem durabilityMachine_start (priv : AfrPrivate) (n : ℕ) (stable : Fin N → Bool) :
    (durabilityMachine priv n stable).start (.initial, .initial) := ⟨rfl, rfl⟩

/-- No transaction waits for an fsync. -/
def ChangelogState.NoFsync (s : ChangelogState n N) : Prop := ∀ t, (s.threads t).phase ≠ .fsync

/-- All transactions lock the bricks `D`; nobody looks for the note while another one waits for
its fsync; and a delayed post-op is woken when its mark is left to others, or when all writes
have been synced. -/
def Durable (D : Subvols n) (p : ChangelogState n N × WriteHistory N) : ChangelogAct n N → Prop
  | .preOp _ _ lockedNodes => lockedNodes = D
  | .postOp t delay _ =>
      (p.1.threads t).failedSubvols = ∅ ∧ (delay = true ∨ LeftToOthers p.1.fd (p.1.threads t)) ∨
        p.1.NoFsync
  | .wakeUp t => LeftToOthers p.1.fd (p.1.threads t) ∨ p.2.witnessed = false ∧ p.1.NoFsync
  | _ => True

/-! ## The invariant -/

/-- The bricks have answered the write. -/
def Transaction.Answered (x : Transaction n) : Prop :=
  x.uninherit.isSome = true ∨ match x.phase with
    | .resumed | .delayed | .fsync | .postOp _ => True
    | .idle | .preOp | .fop | .done => False

/-- An unstable write that has not been synced is noted, or somebody waits for an fsync that
covers it.  Who waits for an fsync, or has made up its mind to clear a mark, has taken care of
the writes it clears. -/
structure DurableInv (stable : Fin N → Bool) (D : Subvols n) (s : ChangelogState n N)
    (h : WriteHistory N) : Prop where
  bricks : ∀ t, (s.threads t).phase ≠ .idle → (s.threads t).preOp = D
  begun : ∀ t ∈ h.unstable, (s.threads t).phase ≠ .idle
  answered : ∀ t, stable t = false → (s.threads t).Answered → t ∈ h.unstable
  noted : ∀ w ∈ h.unstable, w ∉ h.synced →
    h.witnessed = true ∨ ∃ t, (s.threads t).phase = .fsync ∧ w ∈ h.covers t
  fsync : ∀ t, (s.threads t).phase = .fsync → ∀ w ∈ h.clears t, stable w = false → w ∈ h.covers t
  postOp : ∀ t, (s.threads t).phase = .postOp true → ∀ w ∈ h.clears t, stable w = false →
    w ∈ h.synced
  sent : ∀ x ∈ h.sent, x.2 = ∅

section Steps

variable {stable : Fin N → Bool} {D : Subvols n} {s s' : ChangelogState n N} {h : WriteHistory N}
  {t : Fin N} {y : Transaction n}

theorem DurableInv.initial : DurableInv stable D (.initial : ChangelogState n N) .initial where
  bricks _ hphase := absurd rfl hphase
  begun t ht := absurd ht (Finset.notMem_empty t)
  answered _ _ hanswered := by simp [ChangelogState.initial, Transaction.Answered,
    Transaction.new] at hanswered
  noted w hw := absurd hw (Finset.notMem_empty w)
  fsync _ hphase := by simp [ChangelogState.initial, Transaction.new] at hphase
  postOp _ hphase := by simp [ChangelogState.initial, Transaction.new] at hphase
  sent x hx := absurd hx List.not_mem_nil

/-- When the note is gone and nobody waits for an fsync, all writes have been synced. -/
theorem DurableInv.all_synced (hinv : DurableInv stable D s h) (hnote : h.witnessed = false)
    (hquiet : s.NoFsync) : h.unstable ⊆ h.synced := by
  intro w hw
  by_contra hsynced
  rcases hinv.noted w hw hsynced with hwitnessed | ⟨t, hphase, _⟩
  · exact absurd (hnote.symm.trans hwitnessed) nofun
  · exact hquiet t hphase

/-- The writes that a mark stands for have been answered. -/
theorem DurableInv.clears_unstable (hinv : DurableInv stable D s h)
    (hanswered : (s.threads t).Answered) {w : Fin N} (hstable : stable w = false)
    (hw : w ∈ insert t (s.released (s.threads t).preOp)) : w ∈ h.unstable := by
  rcases Finset.mem_insert.mp hw with rfl | hw
  · exact hinv.answered w hstable hanswered
  · exact hinv.answered w hstable (.inl (Finset.mem_filter.mp hw).2.2.1)

/-- A transaction goes on and is not waiting for an fsync; if it was, what that covers has been
synced.  `clears` is what its mark stands for. -/
theorem DurableInv.move (hinv : DurableInv stable D s h)
    (hthreads : s'.threads = Function.update s.threads t y) (clears : Finset (Fin N))
    (hx : (s.threads t).phase = .fsync → h.covers t ⊆ h.synced) (hbricks : y.preOp = D)
    (hidle : y.phase ≠ .idle)
    (hanswered : stable t = false → y.Answered → t ∈ h.unstable) (hfsync : y.phase ≠ .fsync)
    (hpostOp : y.phase = .postOp true → ∀ w ∈ clears, stable w = false → w ∈ h.synced) :
    DurableInv stable D s' { h with clears := Function.update h.clears t clears } where
  bricks t' := by
    rw [hthreads]
    by_cases ht : t' = t
    · subst ht
      rw [Function.update_self]
      exact fun _ => hbricks
    · rw [Function.update_of_ne ht]
      exact hinv.bricks t'
  begun t' ht' := by
    rw [hthreads]
    by_cases ht : t' = t
    · subst ht
      rwa [Function.update_self]
    · rw [Function.update_of_ne ht]
      exact hinv.begun t' ht'
  answered t' := by
    rw [hthreads]
    by_cases ht : t' = t
    · subst ht
      rw [Function.update_self]
      exact hanswered
    · rw [Function.update_of_ne ht]
      exact hinv.answered t'
  noted w hw hsynced := by
    refine (hinv.noted w hw hsynced).imp_right fun ⟨t', hphase, hcovers⟩ => ⟨t', ?_, hcovers⟩
    have ht : t' ≠ t := by
      rintro rfl
      exact hsynced (hx hphase hcovers)
    rwa [hthreads, Function.update_of_ne ht]
  fsync t' := by
    rw [hthreads]
    by_cases ht : t' = t
    · subst ht
      rw [Function.update_self]
      exact fun hphase => absurd hphase hfsync
    · rw [Function.update_of_ne ht]
      simp only [Function.update_of_ne ht]
      exact hinv.fsync t'
  postOp t' := by
    rw [hthreads]
    by_cases ht : t' = t
    · subst ht
      simp only [Function.update_self]
      exact hpostOp
    · rw [Function.update_of_ne ht]
      simp only [Function.update_of_ne ht]
      exact hinv.postOp t'
  sent := hinv.sent

/-- A transaction goes on, and the history stays as it is. -/
theorem DurableInv.stay (hinv : DurableInv stable D s h)
    (hthreads : s'.threads = Function.update s.threads t y)
    (hx : (s.threads t).phase ≠ .fsync) (hbricks : y.preOp = D) (hidle : y.phase ≠ .idle)
    (hanswered : stable t = false → y.Answered → t ∈ h.unstable) (hfsync : y.phase ≠ .fsync)
    (hpostOp : y.phase ≠ .postOp true) : DurableInv stable D s' h := by
  have hmove := hinv.move hthreads (h.clears t) (fun hphase => absurd hphase hx) hbricks hidle
    hanswered hfsync fun hphase => absurd hphase hpostOp
  rwa [Function.update_eq_self] at hmove

/-- The bricks answer an unstable write. -/
theorem DurableInv.note (hinv : DurableInv stable D s h) (ht : (s.threads t).phase ≠ .idle) :
    DurableInv stable D s { h with witnessed := true, unstable := insert t h.unstable } where
  bricks := hinv.bricks
  begun t' ht' := by
    rcases Finset.mem_insert.mp ht' with rfl | ht'
    · exact ht
    · exact hinv.begun t' ht'
  answered t' hstable hanswered :=
    Finset.mem_insert_of_mem (hinv.answered t' hstable hanswered)
  noted _ _ _ := .inl rfl
  fsync := hinv.fsync
  postOp := hinv.postOp
  sent := hinv.sent

/-- The answers to an fsync: what it covers has been synced. -/
theorem DurableInv.sync (hinv : DurableInv stable D s h) (t : Fin N) :
    DurableInv stable D s { h with synced := h.synced ∪ h.covers t } where
  bricks := hinv.bricks
  begun := hinv.begun
  answered := hinv.answered
  noted w hw hsynced := hinv.noted w hw fun h => hsynced (Finset.mem_union_left _ h)
  fsync := hinv.fsync
  postOp t' hphase w hw hstable :=
    Finset.mem_union_left _ (hinv.postOp t' hphase w hw hstable)
  sent := hinv.sent

/-- A transaction sends its fsync: it covers all writes that have been answered. -/
theorem DurableInv.wait (hinv : DurableInv stable D s h)
    (hthreads : s'.threads = Function.update s.threads t y)
    (hphase : (s.threads t).phase = .resumed) (hy : y.phase = .fsync) (hbricks : y.preOp = D) :
    DurableInv stable D s' { (h.release s t).cover s t with witnessed := false } := by
  have hanswered : (s.threads t).Answered := .inr (by rw [hphase]; trivial)
  have hcovers : ∀ w ∈ h.unstable, w ∈ ((h.release s t).cover s t).covers t := by
    intro w hw
    show w ∈ Function.update h.covers t _ t
    rw [Function.update_self]
    refine Finset.mem_filter.mpr ⟨hw, ?_⟩
    rw [hinv.bricks w (hinv.begun w hw), hinv.bricks t (by rw [hphase]; nofun)]
  refine ⟨fun t' => ?_, fun t' ht' => ?_, fun t' => ?_, fun w hw _ => ?_, fun t' => ?_,
    fun t' => ?_, hinv.sent⟩
  · rw [hthreads]
    by_cases ht : t' = t
    · subst ht
      rw [Function.update_self]
      exact fun _ => hbricks
    · rw [Function.update_of_ne ht]
      exact hinv.bricks t'
  · rw [hthreads]
    by_cases ht : t' = t
    · subst ht
      rw [Function.update_self, hy]
      nofun
    · rw [Function.update_of_ne ht]
      exact hinv.begun t' ht'
  · rw [hthreads]
    by_cases ht : t' = t
    · subst ht
      exact fun hstable _ => hinv.answered t' hstable hanswered
    · rw [Function.update_of_ne ht]
      exact hinv.answered t'
  · refine .inr ⟨t, ?_, hcovers w hw⟩
    rw [hthreads, Function.update_self, hy]
  · rw [hthreads]
    by_cases ht : t' = t
    · subst ht
      intro _ w hw hstable
      refine hcovers w (hinv.clears_unstable hanswered hstable ?_)
      simpa [WriteHistory.cover, WriteHistory.release] using hw
    · simpa [WriteHistory.cover, WriteHistory.release, Function.update_of_ne ht]
        using hinv.fsync t'
  · rw [hthreads]
    by_cases ht : t' = t
    · subst ht
      rw [Function.update_self, hy]
      nofun
    · simpa [WriteHistory.cover, WriteHistory.release, Function.update_of_ne ht]
        using hinv.postOp t'

end Steps

/-! ## What a step does -/

section Functions

variable {priv : AfrPrivate} {fd : FdCtx n} {x : Transaction n}

theorem update_thread (fd : FdCtx n) (x : Transaction n) :
    ∃ isolated, (afrChangelogPreOpUpdate fd x).2 = { x with noUninherit := isolated } := by
  rcases update_cases fd x with heq | ⟨_, _, ⟨_, heq⟩ | ⟨_, _, heq⟩ | ⟨_, _, heq⟩⟩
  · exact ⟨x.noUninherit, by rw [heq]⟩
  · exact ⟨x.noUninherit, by rw [heq]⟩
  · exact ⟨true, by rw [heq]⟩
  · exact ⟨x.noUninherit, by rw [heq]⟩

theorem performFop_thread (fd : FdCtx n) (x : Transaction n) :
    ∃ isolated, (afrTransactionPerformFop fd x).2 =
      { x with noUninherit := isolated, phase := .fop } := by
  obtain ⟨isolated, heq⟩ := update_thread fd x
  cases hcompat : x.preOpCompat with
  | false => exact ⟨x.noUninherit, by simp [afrTransactionPerformFop, hcompat]⟩
  | true => exact ⟨isolated, by simp [afrTransactionPerformFop, hcompat, heq]⟩

theorem resume_thread (x : Transaction n) (replies : Fin n → FopReply) (fd : FdCtx n) :
    ∃ isolated, (afrTransactionResume x replies fd).2 =
      { afrHandleSymmetricErrors (afrWritevWindCbk x replies) replies with
        noUninherit := isolated, phase := .resumed } := by
  unfold afrTransactionResume
  generalize afrHandleSymmetricErrors (afrWritevWindCbk x replies) replies = y
  obtain ⟨isolated, heq⟩ := update_thread fd y
  cases hcompat : y.preOpCompat with
  | true => exact ⟨y.noUninherit, by simp [hcompat]⟩
  | false => exact ⟨isolated, by simp [hcompat, heq]⟩

theorem preOp_thread {s : ChangelogState n N} (t : Fin N) (compat : Bool) (locked : Subvols n) :
    ∃ y, (s.afrChangelogPreOp priv t compat locked).threads = Function.update s.threads t y ∧
      y.preOp = locked ∧ y.uninherit = none ∧
      (y.phase = .preOp ∨ y.phase = .fop ∨ y.phase = .done) := by
  unfold ChangelogState.afrChangelogPreOp
  dsimp only
  split
  · exact ⟨_, rfl, rfl, rfl, .inr (.inr rfl)⟩
  · split
    · next fd y hinherit =>
      have hy : y = { Transaction.new compat locked with inherited := true } := by
        unfold afrChangelogPreOpInherit at hinherit
        split at hinherit
        · cases hinherit
        · cases hinherit
          rfl
      obtain ⟨_, heq⟩ := performFop_thread fd y
      exact ⟨_, rfl, by rw [heq, hy]; rfl, by rw [heq, hy]; rfl, .inr (.inl (by rw [heq]))⟩
    · obtain ⟨_, heq⟩ := performFop_thread s.fd
        { Transaction.new compat locked with
          dirtied := decide (1 < locked.card), pending := lockedᶜ }
      split
      · exact ⟨_, rfl, by rw [heq]; rfl, by rw [heq]; rfl, .inr (.inl (by rw [heq]))⟩
      · by_cases hcompat : compat = true
        · rw [if_pos hcompat]
          exact ⟨_, rfl, rfl, rfl, .inl rfl⟩
        · rw [if_neg hcompat]
          exact ⟨_, rfl, by rw [heq]; rfl, by rw [heq]; rfl, .inr (.inl (by rw [heq]))⟩

theorem postOpNow_thread (priv : AfrPrivate) (fd : FdCtx n) (x : Transaction n) :
    (afrChangelogPostOpNow priv fd x).2.preOp = (afrChangelogPreOpUninherit fd x).2.1.preOp ∧
      (afrChangelogPostOpNow priv fd x).2.phase =
        .postOp !(afrChangelogPreOpUninherit fd x).2.2 := by
  obtain ⟨failed, opRet, hquorum⟩ := afrHandleQuorum_eq priv x
  rw [afrChangelogPostOpNow, hquorum, uninherit_with]
  exact ⟨rfl, rfl⟩

theorem uninherit_thread (fd : FdCtx n) (x : Transaction n) :
    ∃ found, (afrChangelogPreOpUninherit fd x).2.1 = { x with uninherit := found } := by
  rcases uninherit_cases fd x with ⟨_, heq⟩ | ⟨_, ⟨_, _, heq⟩ | ⟨_, heq⟩⟩
  · exact ⟨x.uninherit, by rw [heq]⟩
  · exact ⟨x.uninherit, by rw [heq]⟩
  · exact ⟨_, by rw [heq]⟩

theorem uninherit_preOp (fd : FdCtx n) (x : Transaction n) :
    (afrChangelogPreOpUninherit fd x).2.1.preOp = x.preOp := by
  obtain ⟨_, heq⟩ := uninherit_thread fd x
  rw [heq]

/-- When the mark is left to others, `afr_changelog_pre_op_uninherit` answers true. -/
theorem uninherit_of_leftToOthers (huninherit : x.uninherit = none) (h : LeftToOthers fd x) :
    (afrChangelogPreOpUninherit fd x).2.2 = true := by
  obtain ⟨hiso, ⟨hdone, hlent⟩ | ⟨hne, hdirtied⟩⟩ := h
  · simp [afrChangelogPreOpUninherit, FdCtx.uninherit, hiso, huninherit, hdone, hlent.ne',
      Uninherit.value]
  · simp [afrChangelogPreOpUninherit, FdCtx.uninherit, hiso, huninherit, hne, hdirtied,
      Uninherit.value]

/-- `afr_changelog_post_op_safe` goes on without an fsync when nothing is going to be sent, or
there was no note. -/
theorem postOpSafe_unwitnessed {witnessed : Bool} (hdurable : priv.ensureDurability = true)
    (hphase : (afrChangelogPostOpSafe priv fd x witnessed).2.phase ≠ .fsync) :
    (afrChangelogPreOpUninherit fd x).2.2 = true ∧ afrTxnNothingFailed x = true ∨
      witnessed = false := by
  have hfailed : (afrChangelogPreOpUninherit fd x).2.1.failedSubvols = x.failedSubvols :=
    congrArg (fun u => u.2.1.failedSubvols) (uninherit_with fd x x.failedSubvols x.opRet)
  unfold afrChangelogPostOpSafe at hphase
  dsimp only at hphase
  split at hphase
  · next hcond =>
    rcases hcond with ⟨hvalue, hnothing⟩ | hwitnessed | hensure
    · rw [afrTxnNothingFailed, hfailed] at hnothing
      exact .inl ⟨hvalue, hnothing⟩
    · exact .inr (Bool.eq_false_of_not_eq_true hwitnessed)
    · exact absurd hdurable hensure
  · exact absurd rfl hphase

theorem send_threads {s : ChangelogState n N} {t : Fin N} {needUndirty : Bool} :
    (s.afrChangelogPostOpSend t needUndirty).threads =
      Function.update s.threads t { s.threads t with phase := .done } := by
  unfold ChangelogState.afrChangelogPostOpSend
  dsimp only
  split
  · rfl
  · split <;> rfl

/-- A decrement is sent only by who has made up its mind to clear its mark. -/
theorem send_decrement {s : ChangelogState n N} {t : Fin N} {needUndirty : Bool} {k : Fin n}
    (hless : (s.afrChangelogPostOpSend t needUndirty).dirty k < s.dirty k) :
    needUndirty = true := by
  unfold ChangelogState.afrChangelogPostOpSend at hless
  cases needUndirty with
  | true => rfl
  | false =>
      exfalso
      dsimp only at hless
      split at hless
      · exact lt_irrefl _ hless
      · split at hless
        · exact lt_irrefl _ hless
        · simp [ChangelogState.run, ChangelogState.afrChangelogDo] at hless

end Functions

/-! ## Runs -/

section Runs

variable {priv : AfrPrivate} {stable : Fin N → Bool} {D : Subvols n} {s s' : ChangelogState n N}
  {h : WriteHistory N} {t : Fin N}

/-- A transaction that goes to `afr_changelog_post_op_now` and does not leave its mark to others
finds all writes synced. -/
theorem DurableInv.postOpNow (hinv : DurableInv stable D s h) {y : Transaction n}
    (hthreads : s'.threads = Function.update s.threads t y)
    (hphase : (s.threads t).phase = .resumed ∨ (s.threads t).phase = .delayed)
    (hy : y.phase = .postOp !(afrChangelogPreOpUninherit s.fd (s.threads t)).2.2)
    (hbricks : y.preOp = (s.threads t).preOp)
    (hsynced : (afrChangelogPreOpUninherit s.fd (s.threads t)).2.2 = true ∨
      h.unstable ⊆ h.synced) :
    DurableInv stable D s' (h.release s t) := by
  have hidle : (s.threads t).phase ≠ .idle := by rcases hphase with h | h <;> rw [h] <;> nofun
  have hx : (s.threads t).phase ≠ .fsync := by rcases hphase with h | h <;> rw [h] <;> nofun
  have hanswered : (s.threads t).Answered := by
    rcases hphase with h | h <;> exact .inr (by rw [h]; trivial)
  refine hinv.move hthreads _ (fun hphase => absurd hphase hx)
    (hbricks.trans (hinv.bricks t hidle)) (by rw [hy]; nofun)
    (fun hstable _ => hinv.answered t hstable hanswered) (by rw [hy]; nofun) ?_
  intro hsend w hw hstable
  rw [hy] at hsend
  rcases hsynced with hvalue | hall
  · rw [hvalue] at hsend
    cases hsend
  · exact hall (hinv.clears_unstable hanswered hstable hw)

/-- What is written down when a transaction looks for the note. -/
theorem record_postOp (hdelayed : (s'.threads t).phase ≠ .delayed) (delay witnessed : Bool) :
    h.record stable s (.postOp t delay witnessed) s' =
      { (if (s'.threads t).phase = .fsync then (h.release s t).cover s t else h.release s t) with
        witnessed := h.witnessed && (afrChangelogPreOpUninherit s.fd (s.threads t)).2.2 &&
          afrTxnNothingFailed (s.threads t) } := by
  simp only [WriteHistory.record, if_neg hdelayed]
  split <;> rfl

theorem DurableInv.postOp_step (hinv : DurableInv stable D s h)
    (hdurable : priv.ensureDurability = true) (hok : s.Ok)
    (hphase : (s.threads t).phase = .resumed) {delay witnessed : Bool}
    (hallow : witnessed = h.witnessed) (hcond : Durable D (s, h) (.postOp t delay witnessed)) :
    DurableInv stable D (s.run t (afrChangelogPostOp priv s.fd (s.threads t) delay witnessed))
      (h.record stable s (.postOp t delay witnessed)
        (s.run t (afrChangelogPostOp priv s.fd (s.threads t) delay witnessed))) := by
  have hx : (s.threads t).Working := hok.working (by rw [hphase]; rintro ⟨⟩) (by rw [hphase]; rintro ⟨⟩)
  have huninherit : (s.threads t).uninherit = none := by simpa [hphase] using hx.phase
  have hbricks := hinv.bricks t (by rw [hphase]; rintro ⟨⟩)
  have hanswered : (s.threads t).Answered := .inr (by rw [hphase]; trivial)
  by_cases hdelay : delay = true ∧ afrTxnNothingFailed (s.threads t) = true
  · rw [show afrChangelogPostOp priv s.fd (s.threads t) delay witnessed =
      (s.fd, { s.threads t with phase := .delayed }) from if_pos hdelay]
    have hrecord : h.record stable s (.postOp t delay witnessed)
        (s.run t (s.fd, { s.threads t with phase := .delayed })) = h := by
      simp [WriteHistory.record, ChangelogState.run]
    rw [hrecord]
    exact hinv.stay rfl (by rw [hphase]; rintro ⟨⟩) hbricks (by rintro ⟨⟩)
      (fun hstable _ => hinv.answered t hstable hanswered) (by rintro ⟨⟩) (by rintro ⟨⟩)
  rw [show afrChangelogPostOp priv s.fd (s.threads t) delay witnessed =
    afrChangelogPostOpSafe priv s.fd (s.threads t) witnessed from if_neg hdelay]
  have hcases := @postOpSafe_cases _ priv s.fd (s.threads t) witnessed
  have hthread : (s.run t (afrChangelogPostOpSafe priv s.fd (s.threads t) witnessed)).threads t =
      (afrChangelogPostOpSafe priv s.fd (s.threads t) witnessed).2 := Function.update_self ..
  rcases hcases with ⟨failed, opRet, hsafe⟩ | ⟨hfailed, _, _, hsafe⟩
  · -- there was no note, or nothing is going to be sent
    have hunwitnessed := @postOpSafe_unwitnessed _ priv s.fd (s.threads t) witnessed hdurable
      (by rw [hsafe]; rintro ⟨⟩)
    have hnote : (h.witnessed && (afrChangelogPreOpUninherit s.fd (s.threads t)).2.2 &&
        afrTxnNothingFailed (s.threads t)) = h.witnessed := by
      rcases hunwitnessed with ⟨hvalue, hnothing⟩ | hwitnessed
      · rw [hvalue, hnothing, Bool.and_true, Bool.and_true]
      · rw [← hallow, hwitnessed, Bool.false_and, Bool.false_and]
    have hsynced : (afrChangelogPreOpUninherit s.fd (s.threads t)).2.2 = true ∨
        h.unstable ⊆ h.synced := by
      rcases hunwitnessed with ⟨hvalue, _⟩ | hwitnessed
      · exact .inl hvalue
      rcases hcond with ⟨hempty, hdelayed | hleft⟩ | hquiet
      · exact absurd ⟨hdelayed, decide_eq_true hempty⟩ hdelay
      · exact .inl (uninherit_of_leftToOthers huninherit hleft)
      · exact .inr (hinv.all_synced (hallow ▸ hwitnessed) hquiet)
    rw [record_postOp (by rw [hthread, hsafe]; rintro ⟨⟩),
      if_neg (by rw [hthread, hsafe]; rintro ⟨⟩), hnote, hsafe]
    exact hinv.postOpNow rfl (.inl hphase) rfl (uninherit_preOp s.fd (s.threads t)) hsynced
  · -- the note is removed, and the fsync covers what it stood for
    have hnote : (h.witnessed && (afrChangelogPreOpUninherit s.fd (s.threads t)).2.2 &&
        afrTxnNothingFailed (s.threads t)) = false := by
      rw [Bool.and_assoc, Bool.and_eq_false_iff]
      refine .inr (Bool.eq_false_of_not_eq_true fun hboth => ?_)
      obtain ⟨hvalue, hnothing⟩ := Bool.and_eq_true_iff.mp hboth
      exact (hfailed hvalue).ne_empty (of_decide_eq_true hnothing)
    rw [record_postOp (by rw [hthread, hsafe]; rintro ⟨⟩), if_pos (by rw [hthread, hsafe]), hnote, hsafe]
    exact hinv.wait rfl hphase rfl ((uninherit_preOp s.fd (s.threads t)).trans hbricks)

theorem DurableInv.fsync_step (hinv : DurableInv stable D s h)
    (hphase : (s.threads t).phase = .fsync) (failed : Subvols n) :
    DurableInv stable D (s.run t (afrChangelogPostOpNow priv s.fd ((s.threads t).fopFailed failed)))
      { h with synced := h.synced ∪ h.covers t } := by
  have hnow := postOpNow_thread priv s.fd ((s.threads t).fopFailed failed)
  have hanswered : (s.threads t).Answered := .inr (by rw [hphase]; trivial)
  have hthreads : (s.run t (afrChangelogPostOpNow priv s.fd
      ((s.threads t).fopFailed failed))).threads = Function.update s.threads t _ := rfl
  have hmove := (hinv.sync t).move hthreads (h.clears t) (fun _ => Finset.subset_union_right)
    ((hnow.1.trans (uninherit_preOp _ _)).trans (hinv.bricks t (by rw [hphase]; nofun)))
    (by rw [hnow.2]; nofun) (fun hstable _ => hinv.answered t hstable hanswered)
    (by rw [hnow.2]; nofun)
    fun _ w hw hstable => Finset.mem_union_right _ (hinv.fsync t hphase w hw hstable)
  rwa [Function.update_eq_self] at hmove

/-- What is sent clears only what has been synced. -/
theorem DurableInv.finish_step (hinv : DurableInv stable D s h) {needUndirty : Bool}
    (hphase : (s.threads t).phase = .postOp needUndirty) :
    DurableInv stable D (s.afrChangelogPostOpSend t needUndirty)
      (h.record stable s (.finish t) (s.afrChangelogPostOpSend t needUndirty)) := by
  have hthreads : (s.afrChangelogPostOpSend t needUndirty).threads =
      Function.update s.threads t { s.threads t with phase := .done } := send_threads
  have hanswered : (s.threads t).Answered := .inr (by rw [hphase]; trivial)
  have hended : DurableInv stable D (s.afrChangelogPostOpSend t needUndirty) h :=
    hinv.stay hthreads (by rw [hphase]; nofun) (hinv.bricks t (by rw [hphase]; nofun)) nofun
      (fun hstable _ => hinv.answered t hstable hanswered) nofun nofun
  rw [WriteHistory.record]
  split_ifs with hsend
  · obtain ⟨k, hless⟩ := hsend
    have hundirty := send_decrement hless
    subst hundirty
    refine ⟨hended.bricks, hended.begun, hended.answered, hended.noted, hended.fsync,
      hended.postOp, fun x hx => ?_⟩
    rcases List.mem_cons.mp hx with rfl | hx
    · refine Finset.sdiff_eq_empty_iff_subset.mpr fun w hw => ?_
      obtain ⟨hclears, hstable⟩ := Finset.mem_filter.mp hw
      exact hinv.postOp t hphase w hclears hstable
    · exact hended.sent x hx
  · exact hended

theorem DurableInv.step (hinv : DurableInv stable D s h) (hdurable : priv.ensureDurability = true)
    (hok : s.Ok) {a : ChangelogAct n N} (hallow : h.allow a = true) (hcond : Durable D (s, h) a)
    (hstep : changelogStep priv s a = some s') : DurableInv stable D s' (h.record stable s a s') := by
  cases a with
  | preOp t compat locked =>
      obtain ⟨hphase, heq⟩ := Option.ite_none_right_eq_some.mp hstep
      cases heq
      obtain ⟨y, hthreads, hpreOp, huninherit, hy⟩ := @preOp_thread _ _ priv s t compat locked
      refine hinv.stay hthreads (by rw [hphase]; nofun) (hpreOp.trans hcond) ?_ ?_ ?_ ?_
      · rcases hy with h | h | h <;> rw [h] <;> nofun
      · rintro _ (hsome | hanswered)
        · rw [huninherit] at hsome
          cases hsome
        · rcases hy with h | h | h <;> rw [h] at hanswered <;> exact hanswered.elim
      · rcases hy with h | h | h <;> rw [h] <;> nofun
      · rcases hy with h | h | h <;> rw [h] <;> nofun
  | performFop t failed =>
      obtain ⟨hphase, heq⟩ := Option.ite_none_right_eq_some.mp hstep
      cases heq
      obtain ⟨_, hy⟩ := performFop_thread s.fd ((s.threads t).fopFailed failed)
      refine hinv.stay rfl (by rw [hphase]; nofun) ?_ ?_ ?_ ?_ ?_
      · rw [hy]
        exact hinv.bricks t (by rw [hphase]; nofun)
      · rw [hy]
        nofun
      · rw [hy]
        rintro hstable (hsome | hanswered)
        · exact hinv.answered t hstable (.inl hsome)
        · exact hanswered.elim
      · rw [hy]
        nofun
      · rw [hy]
        nofun
  | resume t replies =>
      obtain ⟨hphase, heq⟩ := Option.ite_none_right_eq_some.mp hstep
      cases heq
      obtain ⟨_, hy⟩ := resume_thread (s.threads t) replies s.fd
      have hpreOp : (afrTransactionResume (s.threads t) replies s.fd).2.preOp = D := by
        obtain ⟨_, _, hsame⟩ := resume_eq (s.threads t) replies
        rw [hy, hsame]
        exact hinv.bricks t (by rw [hphase]; nofun)
      have hidle : (s.threads t).phase ≠ .idle := by rw [hphase]; nofun
      have hx : (s.threads t).phase ≠ .fsync := by rw [hphase]; nofun
      rw [WriteHistory.record]
      split_ifs with hstable
      · refine hinv.stay rfl hx hpreOp (by rw [hy]; nofun) ?_ (by rw [hy]; nofun) (by rw [hy]; nofun)
        exact fun hunstable => absurd (hstable.symm.trans hunstable) nofun
      · exact (hinv.note hidle).stay rfl hx hpreOp (by rw [hy]; nofun)
          (fun _ _ => Finset.mem_insert_self t _) (by rw [hy]; nofun) (by rw [hy]; nofun)
  | postOp t delay witnessed =>
      obtain ⟨hphase, heq⟩ := Option.ite_none_right_eq_some.mp hstep
      cases heq
      exact hinv.postOp_step hdurable hok hphase (beq_iff_eq.mp hallow) hcond
  | fsync t failed =>
      obtain ⟨hphase, heq⟩ := Option.ite_none_right_eq_some.mp hstep
      cases heq
      exact hinv.fsync_step hphase failed
  | wakeUp t =>
      obtain ⟨hphase, heq⟩ := Option.ite_none_right_eq_some.mp hstep
      cases heq
      have hnow := postOpNow_thread priv s.fd (s.threads t)
      have huninherit : (s.threads t).uninherit = none := by
        have hx := (hok.working (by rw [hphase]; nofun) (by rw [hphase]; nofun)).phase
        rwa [hphase] at hx
      refine hinv.postOpNow rfl (.inr hphase) hnow.2 (hnow.1.trans (uninherit_preOp _ _)) ?_
      exact hcond.imp (uninherit_of_leftToOthers huninherit) fun h => hinv.all_synced h.1 h.2
  | finish t =>
      rw [changelogStep] at hstep
      split at hstep
      case h_1 needUndirty hphase =>
        cases hstep
        exact hinv.finish_step hphase
      case h_2 => cases hstep

/-- **With `ensure_durability`, a decrement is sent only when every unstable write whose mark it
clears has been followed by an fsync that all bricks have answered**, in a run that meets
`Durable`. -/
theorem decrement_after_fsync (hdurable : priv.ensureDurability = true) (stable : Fin N → Bool)
    (D : Subvols n) {p : ChangelogState n N × WriteHistory N}
    (hreach : (durabilityMachine priv n stable).ReachableWhen (Durable D) p) :
    ∀ x ∈ p.2.sent, x.2 = ∅ := by
  have hinv : p.1.Ok ∧ DurableInv stable D p.1 p.2 := by
    refine hreach.invariant (fun p => p.1.Ok ∧ DurableInv stable D p.1 p.2) ?_ ?_
    · rintro ⟨s, h⟩ ⟨rfl, rfl⟩
      exact ⟨ChangelogState.initial_ok, .initial⟩
    · rintro ⟨s, h⟩ a ⟨s', h'⟩ ⟨hok, hinv⟩ hcond hstep
      obtain ⟨hallow, hstep, hrecord⟩ := Machine.observe_step hstep
      refine ⟨hok.step hstep, ?_⟩
      rw [show h' = _ from hrecord]
      exact hinv.step hdurable hok hallow hcond hstep
  exact hinv.2.sent

end Runs

instance (s : ChangelogState n N) : Decidable s.NoFsync :=
  inferInstanceAs (Decidable (∀ t, (s.threads t).phase ≠ .fsync))

instance (fd : FdCtx n) (x : Transaction n) : Decidable (LeftToOthers fd x) :=
  inferInstanceAs (Decidable (x.noUninherit = false ∧ (x.preOp = fd.preOpDone ∧ 0 < fd.inherited ∨
    x.preOp ≠ fd.preOpDone ∧ x.dirtied = false)))

instance (D : Subvols n) (p : ChangelogState n N × WriteHistory N) :
    ∀ a, Decidable (Durable D p a)
  | .preOp _ _ lockedNodes => inferInstanceAs (Decidable (lockedNodes = D))
  | .postOp t delay _ => inferInstanceAs (Decidable ((p.1.threads t).failedSubvols = ∅ ∧
      (delay = true ∨ LeftToOthers p.1.fd (p.1.threads t)) ∨ p.1.NoFsync))
  | .wakeUp t => inferInstanceAs (Decidable (LeftToOthers p.1.fd (p.1.threads t) ∨
      p.2.witnessed = false ∧ p.1.NoFsync))
  | .performFop .. | .resume .. | .fsync .. | .finish .. => inferInstanceAs (Decidable True)

/-- The second write inherits the mark of the first one, whose delayed post-op it wakes; it then
clears the mark for both, after an fsync. -/
def inheritedFsync : List (ChangelogAct 2 2) :=
  [.preOp 0 true bothBricks, .performFop 0 ∅, .resume 0 (tenBytes false), .postOp 0 true true,
    .preOp 1 true bothBricks, .wakeUp 0, .finish 0, .resume 1 (tenBytes false),
    .postOp 1 false true, .fsync 1 ∅, .finish 1]

theorem decrement_after_fsync_inherited : ∃ p,
    (durabilityMachine ⟨0, true⟩ 2 fun _ : Fin 2 => false).ReachableWhen (Durable bothBricks) p ∧
      p.2.sent = [(1, ∅)] ∧ p.2.clears 1 = {0, 1} ∧ ∀ x ∈ p.2.sent, x.2 = ∅ := by
  have hresult : ((durabilityMachine ⟨0, true⟩ 2 fun _ : Fin 2 => false).execWhen
      (Durable bothBricks) (.initial, .initial) inheritedFsync).map
      (fun p => (p.2.sent, p.2.clears 1)) = some ([(1, ∅)], {0, 1}) := by decide +kernel
  obtain ⟨p, hrun, heq⟩ := Option.map_eq_some_iff.mp hresult
  simp only [Prod.mk.injEq] at heq
  have hreach :=
    Machine.ReachableWhen.execWhen (.start (durabilityMachine_start _ _ _)) inheritedFsync hrun
  exact ⟨p, hreach, heq.1, heq.2, decrement_after_fsync rfl _ bothBricks hreach⟩

/-- A single write whose post-op is delayed, as it is by default. -/
def delayedWrite : List (ChangelogAct 2 1) :=
  [.preOp 0 true bothBricks, .performFop 0 ∅, .resume 0 (tenBytes false), .postOp 0 true true,
    .wakeUp 0, .finish 0]

/-- The timer wakes the post-op, and the mark is cleared without an fsync. -/
theorem delayed_decrement_without_fsync : ∃ p,
    (durabilityMachine ⟨0, true⟩ 2 fun _ : Fin 1 => false).Reachable p ∧
      p.2.sent = [(0, {0})] ∧ p.2.unstable = {0} ∧ p.2.synced = ∅ ∧ p.1.dirty 0 = 0 := by
  have hresult : ((durabilityMachine ⟨0, true⟩ 2 fun _ : Fin 1 => false).exec
      (.initial, .initial) delayedWrite).map
      (fun p => (p.2.sent, p.2.unstable, p.2.synced, p.1.dirty 0)) =
      some ([(0, {0})], {0}, ∅, 0) := by decide +kernel
  obtain ⟨p, hrun, heq⟩ := Option.map_eq_some_iff.mp hresult
  simp only [Prod.mk.injEq] at heq
  exact ⟨p, .exec (.start (durabilityMachine_start _ _ _)) _ hrun, heq⟩

end GlusterFS.Afr
