import Mathlib
import GlusterFS.Afr.Changelog

/-!
# The locks of an entry transaction

Before a transaction on directory entries of the replicate translator sends its operation, it
locks its lockees on the bricks that are up.  A rename has two or three lockees: both parents with
their names, and the target when that is a directory.

The first phase (`afr_nonblocking_entrylk`) asks for all locks at once.  When one is refused, the
others are given back, and the second phase (`afr_lock_blocking`) asks for one lock after the
other and waits for each; it goes on when a lock is refused, and succeeds when it has got a single
one.  The operation is then sent to the bricks of `afr_locked_nodes_get`, which looks at the first
lockee only.

The model has a pair of a lockee and a brick where the source has a cookie, and `pairs` has them
in the order of the cookies.  `grants` and `unlocks` count what the bricks were asked for and have
granted, and `wound` keeps for each operation that is sent which lockees hold a lock on the brick.
The changelog of the transaction does nothing to the locks; its answers are single steps.

`EntryTxn.Inv` says for each phase what has been granted and given back.  Every lock is given back
once in every run.  That the operation is sent only where all lockees are locked holds in the runs
in which no brick refuses a later lockee in the second phase after it has granted the first
(`LocksTogether`).
-/

namespace GlusterFS.Afr

/-! ## The model -/

/-- A lockee and a brick. -/
abbrev Pair (L n : ℕ) := Fin (L + 1) × Fin n

/-- What a brick answers to a lock. -/
inductive LockReply
  | granted
  | refused
  | enosys
  deriving DecidableEq

/-- `int_lock->lock_cbk`. -/
inductive LockCbk
  | postNonblocking
  | postBlocking
  | done
  deriving DecidableEq

/-- Where a transaction is.  In `blocking` it waits for the lock on a pair, and the pairs behind
it are still to come. -/
inductive EntryPhase (L n : ℕ)
  | idle
  | nonblocking
  | blocking (p : Pair L n) (rest : List (Pair L n))
  | unlocking
  | preOp
  | fop
  | postOp
  | ended
  deriving DecidableEq

/-- The options of the volume, and the bricks that are up when the transaction begins. -/
structure EntryConf (n : ℕ) where
  priv : AfrPrivate
  childUp : Subvols n
  entryChangeLog : Bool
  optimisticChangeLog : Bool
  preOpCompat : Bool

/-- The part of `afr_local_t` with the locks: `locked` are the pairs whose `locked_nodes` is
`LOCKED_YES`, and `asked` those with a request under way. -/
structure EntryTxn (L n : ℕ) where
  locked : Finset (Pair L n)
  lockedCount : Fin (L + 1) → ℕ
  entrylkLockCount : ℕ
  lkCallCount : ℕ
  lkExpectedCount : ℕ
  lkAttemptedCount : ℕ
  lockOpRet : ℤ
  lockCbk : LockCbk
  preOp : Subvols n
  phase : EntryPhase L n
  asked : Finset (Pair L n)
  grants : Pair L n → ℕ
  unlocks : Pair L n → ℕ
  wound : List (Fin n × Finset (Fin (L + 1)))

variable {L n : ℕ}

/-- All pairs, in the order of the cookies. -/
def pairs (L n : ℕ) : List (Pair L n) :=
  (List.finRange (L + 1)).flatMap fun k => (List.finRange n).map (Prod.mk k)

namespace EntryTxn

/-- A transaction that has not begun. -/
def initial : EntryTxn L n where
  locked := ∅
  lockedCount := 0
  entrylkLockCount := 0
  lkCallCount := 0
  lkExpectedCount := 0
  lkAttemptedCount := 0
  lockOpRet := 0
  lockCbk := .postNonblocking
  preOp := ∅
  phase := .idle
  asked := ∅
  grants := 0
  unlocks := 0
  wound := []

/-- `locked_nodes` of a lockee. -/
def lockedNodes (t : EntryTxn L n) (k : Fin (L + 1)) : Subvols n :=
  Finset.univ.filter fun b => (k, b) ∈ t.locked

/-- `initialize_entrylk_variables`. -/
def initializeEntrylkVariables (t : EntryTxn L n) : EntryTxn L n :=
  { t with entrylkLockCount := 0, lockOpRet := -1, locked := ∅, lockedCount := 0 }

/-- A lock is granted. -/
def grant (t : EntryTxn L n) (p : Pair L n) : EntryTxn L n :=
  { t with
    locked := insert p t.locked
    lockedCount := Function.update t.lockedCount p.1 (t.lockedCount p.1 + 1)
    entrylkLockCount := t.entrylkLockCount + 1
    grants := Function.update t.grants p (t.grants p + 1) }

/-! ### Unlocking -/

/-- `afr_unlock_entrylk`; `cbk` is what `lock_cbk` does. -/
def afrUnlockEntrylk (cbk : EntryTxn L n → EntryTxn L n) (t : EntryTxn L n) : EntryTxn L n :=
  let callCount := ∑ k, t.lockedCount k
  let t := { t with lkCallCount := callCount }
  if callCount = 0 then cbk t
  else
    let wind := ((pairs L n).filter (· ∈ t.locked)).take callCount
    { t with
      asked := wind.toFinset
      unlocks := fun p => t.unlocks p + wind.count p
      phase := .unlocking }

/-- `local->transaction.done`. -/
def done (t : EntryTxn L n) : EntryTxn L n := { t with phase := .ended }

/-- `afr_changelog_post_op_done`. -/
def afrChangelogPostOpDone (t : EntryTxn L n) : EntryTxn L n :=
  afrUnlockEntrylk done { t with lockCbk := .done }

/-! ### The operation -/

/-- `afr_transaction_perform_fop` and `__afr_txn_write_fop`: the operation is sent to the bricks
in `pre_op`.  Without one, `afr_transaction_resume` finds that there is no changelog. -/
def performFop (t : EntryTxn L n) : EntryTxn L n :=
  if t.preOp = ∅ then t.afrChangelogPostOpDone
  else
    { t with
      phase := .fop
      wound := ((List.finRange n).filter (· ∈ t.preOp)).map (fun b =>
        (b, Finset.univ.filter fun k => t.unlocks (k, b) < t.grants (k, b))) ++ t.wound }

/-- `afr_changelog_pre_op`. -/
def changelogPreOp (c : EntryConf n) (t : EntryTxn L n) : EntryTxn L n :=
  let t := { t with preOp := t.lockedNodes 0 }
  if c.priv.quorumCount ≠ 0 ∧ ¬ afrHasQuorum c.priv t.preOp ∨ t.preOp = ∅ then
    t.afrChangelogPostOpDone
  else if t.preOp = Finset.univ ∧ ¬ (1 < t.preOp.card ∧ ¬ c.optimisticChangeLog) ∨
      ¬ c.preOpCompat then t.performFop
  else { t with phase := .preOp }

/-- `afr_internal_lock_finish`. -/
def afrInternalLockFinish (c : EntryConf n) (t : EntryTxn L n) : EntryTxn L n :=
  if c.entryChangeLog then t.changelogPreOp c else t.performFop

/-! ### The second phase -/

/-- `afr_post_blocking_entrylk_cbk`. -/
def afrPostBlockingEntrylkCbk (c : EntryConf n) (t : EntryTxn L n) : EntryTxn L n :=
  if t.lockOpRet < 0 then t.done else t.afrInternalLockFinish c

/-- `afr_lock_blocking` when all locks have been attempted. -/
def blockingDone (c : EntryConf n) (t : EntryTxn L n) : EntryTxn L n :=
  if t.entrylkLockCount = 0 then
    { t with lockOpRet := -1 }.afrUnlockEntrylk (afrPostBlockingEntrylkCbk c)
  else { t with lockOpRet := 0 }.afrPostBlockingEntrylkCbk c

/-- `afr_lock_blocking`, from a pair on. -/
def afrLockBlocking (c : EntryConf n) : List (Pair L n) → EntryTxn L n → EntryTxn L n
  | [], t => if t.lkExpectedCount = t.lkAttemptedCount then t.blockingDone c else t
  | p :: rest, t =>
      if t.lkExpectedCount = t.lkAttemptedCount then t.blockingDone c
      else if p.2 ∈ c.childUp then { t with phase := .blocking p rest }
      else afrLockBlocking c rest t

/-- `afr_blocking_lock`. -/
def afrBlockingLock (c : EntryConf n) (t : EntryTxn L n) : EntryTxn L n :=
  let count := (L + 1) * c.childUp.card
  afrLockBlocking c (pairs L n)
    { t with lkCallCount := count, lkExpectedCount := count }.initializeEntrylkVariables

/-- `afr_lock_cbk`. -/
def afrLockCbk (c : EntryConf n) (t : EntryTxn L n) (p : Pair L n) (rest : List (Pair L n))
    (reply : LockReply) : EntryTxn L n :=
  let t := { t with lkAttemptedCount := t.lkAttemptedCount + 1 }
  match reply with
  | .enosys => { t with lockOpRet := -1 }.afrUnlockEntrylk (afrPostBlockingEntrylkCbk c)
  | .granted => afrLockBlocking c rest (t.grant p)
  | .refused => afrLockBlocking c rest t

/-! ### The first phase -/

/-- `afr_post_nonblocking_entrylk_cbk`. -/
def afrPostNonblockingEntrylkCbk (c : EntryConf n) (t : EntryTxn L n) : EntryTxn L n :=
  if t.lockOpRet < 0 then { t with lockCbk := .postBlocking }.afrBlockingLock c
  else t.afrInternalLockFinish c

/-- `int_lock->lock_cbk (frame, this)`. -/
def runLockCbk (c : EntryConf n) (t : EntryTxn L n) : EntryTxn L n :=
  match t.lockCbk with
  | .postNonblocking => t.afrPostNonblockingEntrylkCbk c
  | .postBlocking => t.afrPostBlockingEntrylkCbk c
  | .done => t.done

/-- `afr_lock_rec` and `afr_nonblocking_entrylk`. -/
def afrNonblockingEntrylk (c : EntryConf n) (t : EntryTxn L n) : EntryTxn L n :=
  let count := (L + 1) * c.childUp.card
  { t.initializeEntrylkVariables with
    lockCbk := .postNonblocking
    lkCallCount := count
    lkExpectedCount := count
    asked := (((pairs L n).filter (·.2 ∈ c.childUp)).take count).toFinset
    phase := .nonblocking }

/-- `afr_nonblocking_entrylk_cbk`; a lock that is not supported is refused here. -/
def afrNonblockingEntrylkCbk (c : EntryConf n) (t : EntryTxn L n) (p : Pair L n)
    (reply : LockReply) : EntryTxn L n :=
  let t := { t with asked := t.asked.erase p, lkCallCount := t.lkCallCount - 1 }
  let t := if reply = .granted then t.grant p else t
  if t.lkCallCount = 0 then
    if t.entrylkLockCount = t.lkExpectedCount then { t with lockOpRet := 0 }.runLockCbk c
    else t.afrUnlockEntrylk (runLockCbk c)
  else t

/-- `afr_unlock_entrylk_cbk` with `afr_unlock_common_cbk`. -/
def afrUnlockEntrylkCbk (c : EntryConf n) (t : EntryTxn L n) (p : Pair L n) : EntryTxn L n :=
  let t := { t with
    asked := t.asked.erase p
    locked := t.locked.erase p
    lkCallCount := t.lkCallCount - 1 }
  if t.lkCallCount = 0 then t.runLockCbk c else t

end EntryTxn

/-! ### Runs -/

/-- What can happen. -/
inductive EntryAct (L n : ℕ)
  | begin
  | nonblockingReply (p : Pair L n) (reply : LockReply)
  | blockingReply (reply : LockReply)
  | unlockReply (p : Pair L n)
  | preOpDone
  | fopDone
  | postOpDone

/-- The steps; a transaction begins only when a brick is up. -/
def entryStep (c : EntryConf n) (t : EntryTxn L n) : EntryAct L n → Option (EntryTxn L n)
  | .begin =>
      if t.phase = .idle ∧ c.childUp.Nonempty then some (t.afrNonblockingEntrylk c) else none
  | .nonblockingReply p reply =>
      if t.phase = .nonblocking ∧ p ∈ t.asked then some (t.afrNonblockingEntrylkCbk c p reply)
      else none
  | .blockingReply reply =>
      match t.phase with
      | .blocking p rest => some (t.afrLockCbk c p rest reply)
      | _ => none
  | .unlockReply p =>
      if t.phase = .unlocking ∧ p ∈ t.asked then some (t.afrUnlockEntrylkCbk c p) else none
  | .preOpDone => if t.phase = .preOp then some t.performFop else none
  | .fopDone => if t.phase = .fop then some { t with phase := .postOp } else none
  | .postOpDone => if t.phase = .postOp then some t.afrChangelogPostOpDone else none

/-- An entry transaction with `L + 1` lockees. -/
def entryMachine (c : EntryConf n) (L : ℕ) : Machine (EntryTxn L n) (EntryAct L n) where
  start := (· = .initial)
  step := entryStep c

/-! ## The pairs -/

/-- The order of the cookies. -/
def Before (p q : Pair L n) : Prop := p.1 < q.1 ∨ p.1 = q.1 ∧ p.2 < q.2

theorem pairs_sorted : (pairs L n).Pairwise Before := by
  refine List.pairwise_flatMap.mpr ⟨fun k _ => ?_, ?_⟩
  · refine List.pairwise_map.mpr ((List.pairwise_lt_finRange n).imp fun hlt => ?_)
    exact Or.inr ⟨rfl, hlt⟩
  · refine (List.pairwise_lt_finRange (L + 1)).imp fun hlt p hp q hq => ?_
    obtain ⟨b, _, rfl⟩ := List.mem_map.mp hp
    obtain ⟨b', _, rfl⟩ := List.mem_map.mp hq
    exact Or.inl hlt

theorem Before.ne {p q : Pair L n} (h : Before p q) : p ≠ q := by
  rintro rfl
  rcases h with h | ⟨_, h⟩ <;> exact lt_irrefl _ h

theorem pairs_nodup : (pairs L n).Nodup := pairs_sorted.imp Before.ne

@[simp] theorem mem_pairs (p : Pair L n) : p ∈ pairs L n := by
  refine List.mem_flatMap.mpr ⟨p.1, List.mem_finRange _, List.mem_map.mpr ⟨p.2, ?_, rfl⟩⟩
  exact List.mem_finRange _

/-- The pairs on the bricks that are up. -/
def upPairs (c : EntryConf n) (L : ℕ) : Finset (Pair L n) := Finset.univ ×ˢ c.childUp

theorem card_upPairs (c : EntryConf n) : (upPairs c L).card = (L + 1) * c.childUp.card := by
  rw [upPairs, Finset.card_product, Finset.card_univ, Fintype.card_fin]

@[simp] theorem mem_upPairs {c : EntryConf n} {p : Pair L n} :
    p ∈ upPairs c L ↔ p.2 ∈ c.childUp := by
  simp [upPairs]

/-- The pairs of a set, in order: as many as the set has. -/
theorem toFinset_filter_pairs (s : Finset (Pair L n)) :
    ((pairs L n).filter (· ∈ s)).toFinset = s := by
  ext p
  simp

theorem length_filter_pairs (s : Finset (Pair L n)) :
    ((pairs L n).filter (· ∈ s)).length = s.card := by
  rw [← List.toFinset_card_of_nodup (pairs_nodup.filter _), toFinset_filter_pairs]

/-- The loops over the cookies that stop after a number of calls reach every pair. -/
theorem take_filter_pairs {s : Finset (Pair L n)} {count : ℕ} (hcount : count = s.card) :
    ((pairs L n).filter (· ∈ s)).take count = (pairs L n).filter (· ∈ s) := by
  rw [hcount, ← length_filter_pairs, List.take_length]

theorem count_filter_pairs (s : Finset (Pair L n)) (p : Pair L n) :
    ((pairs L n).filter (· ∈ s)).count p = if p ∈ s then 1 else 0 := by
  rw [(pairs_nodup.filter _).count]
  simp

/-- No pair with the first lockee comes behind another lockee on its brick. -/
theorem not_mem_before_first {done rest : List (Pair L n)} {b : Fin n}
    (hsplit : pairs L n = done ++ (0, b) :: rest) (k : Fin (L + 1)) : (k, b) ∉ done := by
  intro hmem
  have hsorted := pairs_sorted (L := L) (n := n)
  rw [hsplit, List.pairwise_append] at hsorted
  rcases hsorted.2.2 _ hmem _ (List.mem_cons_self ..) with hlt | ⟨_, hlt⟩
  · exact absurd hlt (Fin.not_lt_zero k)
  · exact lt_irrefl _ hlt

/-! ## The invariant -/

namespace EntryTxn

/-- Every lock that was granted is held or has been given back, the counters agree with the locks,
and the operation has been sent only to bricks where all lockees were locked. -/
structure Locking (t : EntryTxn L n) : Prop where
  grants : ∀ p, t.grants p = t.unlocks p + if p ∈ t.locked then 1 else 0
  counts : ∑ k, t.lockedCount k = t.locked.card
  total : t.entrylkLockCount = t.locked.card
  wound : ∀ w ∈ t.wound, w.2 = Finset.univ

/-- All locks have been given back. -/
structure Returned (t : EntryTxn L n) : Prop where
  grants : ∀ p, t.grants p = t.unlocks p
  wound : ∀ w ∈ t.wound, w.2 = Finset.univ

/-- Where the operation will be sent, all lockees are locked. -/
def Covered (t : EntryTxn L n) : Prop := ∀ b ∈ t.preOp, ∀ k, (k, b) ∈ t.locked

/-- The first lockee is locked only where all are. -/
def Together (t : EntryTxn L n) : Prop := ∀ k b, (0, b) ∈ t.locked → (k, b) ∈ t.locked

/-- The first phase: what is not locked and not asked for has been refused. -/
structure Nonblocking (c : EntryConf n) (t : EntryTxn L n) : Prop extends Locking t where
  calls : t.lkCallCount = t.asked.card
  disjoint : Disjoint t.asked t.locked
  asked_up : t.asked ⊆ upPairs c L
  locked_up : t.locked ⊆ upPairs c L
  expected : t.lkExpectedCount = (upPairs c L).card
  attempted : t.lkAttemptedCount = 0
  failed : t.lockOpRet < 0
  cbk : t.lockCbk = .postNonblocking
  fresh : t.preOp = ∅

/-- The second phase, when the pairs in `done` have been answered: a lockee is refused only where
the first one was. -/
structure Blocking (c : EntryConf n) (done : List (Pair L n)) (t : EntryTxn L n) : Prop
    extends Locking t where
  expected : t.lkExpectedCount = (upPairs c L).card
  attempted : t.lkAttemptedCount = (done.filter (· ∈ upPairs c L)).length
  locked_done : ∀ p ∈ t.locked, p ∈ done
  locked_up : t.locked ⊆ upPairs c L
  together : ∀ p ∈ done, p ∈ upPairs c L → (0, p.2) ∈ t.locked → p ∈ t.locked
  failed : t.lockOpRet < 0
  cbk : t.lockCbk = .postBlocking
  fresh : t.preOp = ∅

/-- While locks are given back: all requests are under way, and what follows depends on
`lock_cbk`. -/
structure Unlocking (t : EntryTxn L n) : Prop extends Returned t where
  calls : t.lkCallCount = t.asked.card
  failed : t.lockCbk ≠ .done → t.lockOpRet < 0
  fresh : t.lockCbk = .postNonblocking → t.lkAttemptedCount = 0 ∧ t.preOp = ∅

/-- What holds in each phase. -/
def Inv (c : EntryConf n) (t : EntryTxn L n) : Prop :=
  match t.phase with
  | .idle => t = .initial
  | .nonblocking => t.Nonblocking c
  | .blocking p rest =>
      p ∈ upPairs c L ∧ ∃ done, pairs L n = done ++ p :: rest ∧ t.Blocking c done
  | .unlocking => t.Unlocking
  | .preOp => t.Locking ∧ t.Covered
  | .fop => t.Locking
  | .postOp => t.Locking
  | .ended => t.Returned

/-! ### Unlocking -/

theorem Locking.returned {t : EntryTxn L n} (h : t.Locking) (hempty : t.locked = ∅) :
    t.Returned := by
  refine ⟨fun p => ?_, h.wound⟩
  have hgrants := h.grants p
  rwa [hempty, if_neg (Finset.notMem_empty p), add_zero] at hgrants

theorem Returned.done {c : EntryConf n} {t : EntryTxn L n} (h : t.Returned) : t.done.Inv c :=
  ⟨h.grants, h.wound⟩

/-- **`afr_unlock_entrylk` asks for every lock back once.** -/
theorem Locking.afrUnlockEntrylk {c : EntryConf n} {t : EntryTxn L n}
    {cbk : EntryTxn L n → EntryTxn L n} (h : t.Locking)
    (hfailed : t.lockCbk ≠ .done → t.lockOpRet < 0)
    (hfresh : t.lockCbk = .postNonblocking → t.lkAttemptedCount = 0 ∧ t.preOp = ∅)
    (hcbk : ({ t with lkCallCount := 0 } : EntryTxn L n).Returned →
      (cbk { t with lkCallCount := 0 }).Inv c) :
    (t.afrUnlockEntrylk cbk).Inv c := by
  unfold EntryTxn.afrUnlockEntrylk
  dsimp only
  split_ifs with hzero
  · have hempty : t.locked = ∅ := by rwa [h.counts, Finset.card_eq_zero] at hzero
    rw [hzero]
    exact hcbk ⟨(h.returned hempty).grants, h.wound⟩
  · rw [take_filter_pairs h.counts]
    refine Unlocking.mk ⟨fun p => ?_, h.wound⟩ ?_ hfailed hfresh
    · show t.grants p = t.unlocks p + _
      rw [count_filter_pairs, h.grants p]
    · show ∑ k, t.lockedCount k = _
      rw [toFinset_filter_pairs, h.counts]

theorem Locking.afrChangelogPostOpDone {c : EntryConf n} {t : EntryTxn L n} (h : t.Locking) :
    t.afrChangelogPostOpDone.Inv c := by
  have hdone : ({ t with lockCbk := .done } : EntryTxn L n).Locking :=
    ⟨h.grants, h.counts, h.total, h.wound⟩
  refine hdone.afrUnlockEntrylk (fun hne => absurd rfl hne) ?_ Returned.done
  intro hcbk
  cases hcbk

/-! ### The operation -/

/-- **The operation is sent where all lockees hold their locks.** -/
theorem Locking.performFop {c : EntryConf n} {t : EntryTxn L n} (h : t.Locking)
    (hcovered : t.Covered) : t.performFop.Inv c := by
  unfold EntryTxn.performFop
  split_ifs with hempty
  · exact h.afrChangelogPostOpDone
  · refine Locking.mk h.grants h.counts h.total fun w hw => ?_
    rcases List.mem_append.mp hw with hw | hw
    · obtain ⟨b, hb, rfl⟩ := List.mem_map.mp hw
      have hpre : b ∈ t.preOp := by simpa using hb
      refine Finset.filter_true_of_mem fun k _ => ?_
      rw [h.grants (k, b), if_pos (hcovered b hpre k)]
      exact Nat.lt_succ_self _
    · exact h.wound w hw

theorem Locking.changelogPreOp {c : EntryConf n} {t : EntryTxn L n} (h : t.Locking)
    (htogether : t.Together) : (t.changelogPreOp c).Inv c := by
  have hlocking : ({ t with preOp := t.lockedNodes 0 } : EntryTxn L n).Locking :=
    ⟨h.grants, h.counts, h.total, h.wound⟩
  have hcovered : ({ t with preOp := t.lockedNodes 0 } : EntryTxn L n).Covered := by
    intro b hb k
    exact htogether k b (Finset.mem_filter.mp hb).2
  unfold EntryTxn.changelogPreOp
  dsimp only
  split_ifs
  · exact hlocking.afrChangelogPostOpDone
  · exact hlocking.performFop hcovered
  · exact ⟨⟨h.grants, h.counts, h.total, h.wound⟩, hcovered⟩

theorem Locking.afrInternalLockFinish {c : EntryConf n} {t : EntryTxn L n} (h : t.Locking)
    (htogether : t.Together) (hfresh : t.preOp = ∅) : (t.afrInternalLockFinish c).Inv c := by
  unfold EntryTxn.afrInternalLockFinish
  split_ifs
  · exact h.changelogPreOp htogether
  · refine h.performFop fun b hb => ?_
    rw [hfresh] at hb
    exact absurd hb (Finset.notMem_empty b)

/-! ### The second phase -/

/-- A failed second phase gives its locks back and ends. -/
theorem Locking.failBlocking {c : EntryConf n} {t : EntryTxn L n} (h : t.Locking)
    (hfailed : t.lockOpRet = -1) (hcbk : t.lockCbk = .postBlocking) :
    (t.afrUnlockEntrylk (afrPostBlockingEntrylkCbk c)).Inv c := by
  have hneg : t.lockOpRet < 0 := hfailed ▸ neg_one_lt_zero
  refine h.afrUnlockEntrylk (fun _ => hneg) ?_ ?_
  · intro hcbk'
    rw [hcbk] at hcbk'
    cases hcbk'
  · intro hreturned
    rw [afrPostBlockingEntrylkCbk, if_pos hneg]
    exact hreturned.done

/-- When all locks have been attempted, no pair on a brick that is up is left. -/
theorem Blocking.done_of_attempted {c : EntryConf n} {done rest : List (Pair L n)}
    {t : EntryTxn L n} (h : t.Blocking c done) (hsplit : pairs L n = done ++ rest)
    (hall : t.lkExpectedCount = t.lkAttemptedCount) {p : Pair L n} (hp : p ∈ upPairs c L) :
    p ∈ done := by
  have hlength : ((pairs L n).filter (· ∈ upPairs c L)).length =
      (done.filter (· ∈ upPairs c L)).length := by
    rw [length_filter_pairs, ← h.expected, hall, h.attempted]
  rw [hsplit, List.filter_append, List.length_append] at hlength
  have hnone : rest.filter (· ∈ upPairs c L) = [] := List.eq_nil_of_length_eq_zero (by omega)
  have hmem : p ∈ done ++ rest := hsplit ▸ mem_pairs p
  refine (List.mem_append.mp hmem).resolve_right fun hrest => ?_
  exact List.filter_eq_nil_iff.mp hnone p hrest (decide_eq_true hp)

theorem Blocking.blockingDone {c : EntryConf n} {done rest : List (Pair L n)} {t : EntryTxn L n}
    (h : t.Blocking c done) (hsplit : pairs L n = done ++ rest)
    (hall : t.lkExpectedCount = t.lkAttemptedCount) : (t.blockingDone c).Inv c := by
  unfold EntryTxn.blockingDone
  split_ifs
  · exact Locking.failBlocking ⟨h.grants, h.counts, h.total, h.wound⟩ rfl h.cbk
  · have hlocking : ({ t with lockOpRet := 0 } : EntryTxn L n).Locking :=
      ⟨h.grants, h.counts, h.total, h.wound⟩
    rw [afrPostBlockingEntrylkCbk, if_neg (lt_irrefl 0)]
    refine hlocking.afrInternalLockFinish (fun k b hfirst => ?_) h.fresh
    have hfirst_up : (0, b) ∈ upPairs c L := h.locked_up hfirst
    have hb : b ∈ c.childUp := mem_upPairs.mp hfirst_up
    have hup : (k, b) ∈ upPairs c L := mem_upPairs.mpr hb
    exact h.together (k, b) (h.done_of_attempted hsplit hall hup) hup hfirst

/-- A pair on a brick that is down is passed over. -/
theorem Blocking.pass {c : EntryConf n} {done : List (Pair L n)} {t : EntryTxn L n}
    (h : t.Blocking c done) {p : Pair L n} (hdown : p ∉ upPairs c L) :
    t.Blocking c (done ++ [p]) where
  toLocking := h.toLocking
  expected := h.expected
  attempted := by
    rw [List.filter_append, List.filter_singleton, decide_eq_false hdown, cond_false,
      List.append_nil, h.attempted]
  locked_done q hq := List.mem_append_left _ (h.locked_done q hq)
  locked_up := h.locked_up
  together q hq hup := by
    rcases List.mem_append.mp hq with hq | hq
    · exact h.together q hq hup
    · exact absurd (List.mem_singleton.mp hq ▸ hup) hdown
  failed := h.failed
  cbk := h.cbk
  fresh := h.fresh

theorem Blocking.afrLockBlocking {c : EntryConf n} {rest : List (Pair L n)} :
    ∀ {done : List (Pair L n)} {t : EntryTxn L n}, t.Blocking c done →
      pairs L n = done ++ rest → (afrLockBlocking c rest t).Inv c := by
  induction rest with
  | nil =>
      intro done t h hsplit
      have hall : t.lkExpectedCount = t.lkAttemptedCount := by
        rw [h.expected, h.attempted, ← length_filter_pairs, hsplit, List.append_nil]
      rw [EntryTxn.afrLockBlocking, if_pos hall]
      exact h.blockingDone hsplit hall
  | cons p rest ih =>
      intro done t h hsplit
      rw [EntryTxn.afrLockBlocking]
      split_ifs with hall hup
      · exact h.blockingDone hsplit hall
      · exact ⟨mem_upPairs.mpr hup, done, hsplit, ⟨h.grants, h.counts, h.total, h.wound⟩,
          h.expected, h.attempted, h.locked_done, h.locked_up, h.together, h.failed, h.cbk, h.fresh⟩
      · refine ih (h.pass fun hmem => hup (mem_upPairs.mp hmem)) ?_
        rw [hsplit, List.append_assoc, List.singleton_append]

theorem Returned.afrBlockingLock {c : EntryConf n} {t : EntryTxn L n} (h : t.Returned)
    (hattempted : t.lkAttemptedCount = 0) (hfresh : t.preOp = ∅)
    (hcbk : t.lockCbk = .postBlocking) : (t.afrBlockingLock c).Inv c := by
  have hstart : Blocking c [] (initializeEntrylkVariables { t with
      lkCallCount := (L + 1) * c.childUp.card
      lkExpectedCount := (L + 1) * c.childUp.card }) := {
    grants := h.grants
    counts := by simp [initializeEntrylkVariables]
    total := rfl
    wound := h.wound
    expected := (card_upPairs c).symm
    attempted := hattempted
    locked_done := fun p hp => absurd hp (Finset.notMem_empty p)
    locked_up := Finset.empty_subset _
    together := fun p hp => absurd hp List.not_mem_nil
    failed := neg_one_lt_zero
    cbk := hcbk
    fresh := hfresh }
  exact hstart.afrLockBlocking rfl

/-- One more lock. -/
theorem Locking.grant {t : EntryTxn L n} (h : t.Locking) {p : Pair L n} (hp : p ∉ t.locked) :
    (t.grant p).Locking where
  grants q := by
    have hq := h.grants q
    by_cases hqp : q = p
    · subst hqp
      simp [EntryTxn.grant, hp] at hq ⊢
      exact hq
    · simpa [EntryTxn.grant, hqp] using hq
  counts := by
    show ∑ k, Function.update t.lockedCount p.1 (t.lockedCount p.1 + 1) k = (insert p t.locked).card
    rw [Finset.card_insert_of_notMem hp, ← h.counts, Finset.sum_update_of_mem (Finset.mem_univ _),
      ← Finset.add_sum_erase _ _ (Finset.mem_univ p.1), ← Finset.erase_eq]
    omega
  total := by
    show t.entrylkLockCount + 1 = (insert p t.locked).card
    rw [Finset.card_insert_of_notMem hp, h.total]
  wound := h.wound

/-- An answer to a lock of the second phase, after which the pair counts as attempted. -/
theorem Blocking.attempt {c : EntryConf n} {done : List (Pair L n)} {t : EntryTxn L n}
    (h : t.Blocking c done) {p : Pair L n} (hup : p ∈ upPairs c L) :
    t.lkAttemptedCount + 1 = ((done ++ [p]).filter (· ∈ upPairs c L)).length := by
  rw [List.filter_append, List.filter_singleton, decide_eq_true hup, cond_true,
    List.length_append, List.length_singleton, h.attempted]

theorem Blocking.refuse {c : EntryConf n} {done : List (Pair L n)} {t : EntryTxn L n}
    (h : t.Blocking c done) {p : Pair L n} (hup : p ∈ upPairs c L)
    (hrefused : p.1 ≠ 0 → (0, p.2) ∉ t.locked) :
    ({ t with lkAttemptedCount := t.lkAttemptedCount + 1 } : EntryTxn L n).Blocking c
      (done ++ [p]) where
  grants := h.grants
  counts := h.counts
  total := h.total
  wound := h.wound
  expected := h.expected
  attempted := h.attempt hup
  locked_done q hq := List.mem_append_left _ (h.locked_done q hq)
  locked_up := h.locked_up
  together q hq hq_up hfirst := by
    rcases List.mem_append.mp hq with hq | hq
    · exact h.together q hq hq_up hfirst
    · obtain rfl := List.mem_singleton.mp hq
      by_cases hzero : q.1 = 0
      · have heq : q = (0, q.2) := Prod.ext hzero rfl
        rw [heq]
        exact hfirst
      · exact absurd hfirst (hrefused hzero)
  failed := h.failed
  cbk := h.cbk
  fresh := h.fresh

theorem Blocking.grant {c : EntryConf n} {done rest : List (Pair L n)} {t : EntryTxn L n}
    (h : t.Blocking c done) {p : Pair L n} (hsplit : pairs L n = done ++ p :: rest)
    (hup : p ∈ upPairs c L) :
    (({ t with lkAttemptedCount := t.lkAttemptedCount + 1 } : EntryTxn L n).grant p).Blocking c
      (done ++ [p]) := by
  have hnodup := pairs_nodup (L := L) (n := n)
  rw [hsplit, List.nodup_append] at hnodup
  have hnot_done : p ∉ done := fun hp => hnodup.2.2 p hp p (List.mem_cons_self ..) rfl
  have hlocking : ({ t with lkAttemptedCount := t.lkAttemptedCount + 1 } : EntryTxn L n).Locking :=
    ⟨h.grants, h.counts, h.total, h.wound⟩
  refine Blocking.mk (hlocking.grant fun hp => hnot_done (h.locked_done p hp)) h.expected
    (h.attempt hup) (fun q hq => ?_) ?_ (fun q hq hq_up hfirst => ?_) h.failed h.cbk h.fresh
  · rcases Finset.mem_insert.mp hq with rfl | hq
    · exact List.mem_append_right _ (List.mem_singleton_self _)
    · exact List.mem_append_left _ (h.locked_done q hq)
  · exact Finset.insert_subset hup h.locked_up
  · rcases List.mem_append.mp hq with hbefore | hq
    · rcases Finset.mem_insert.mp hfirst with heq | hfirst
      · -- the first lockee is asked for before the others
        rw [← heq] at hsplit
        exact absurd hbefore (not_mem_before_first hsplit q.1)
      · exact Finset.mem_insert_of_mem (h.together q hbefore hq_up hfirst)
    · rw [List.mem_singleton.mp hq]
      exact Finset.mem_insert_self ..

/-! ### The first phase -/

theorem Nonblocking.together {c : EntryConf n} {t : EntryTxn L n} (h : t.Nonblocking c)
    (hall : t.entrylkLockCount = t.lkExpectedCount) : t.Together := by
  intro k b hfirst
  have hlocked : t.locked = upPairs c L := by
    refine Finset.eq_of_subset_of_card_le h.locked_up ?_
    rw [← h.total, hall, h.expected]
  rw [hlocked, mem_upPairs] at hfirst ⊢
  exact hfirst

/-- What follows when the locks have been given back. -/
theorem Unlocking.runLockCbk {c : EntryConf n} {t : EntryTxn L n} (h : t.Returned)
    (hfailed : t.lockCbk ≠ .done → t.lockOpRet < 0)
    (hfresh : t.lockCbk = .postNonblocking → t.lkAttemptedCount = 0 ∧ t.preOp = ∅) :
    (t.runLockCbk c).Inv c := by
  unfold EntryTxn.runLockCbk
  split
  case h_1 hcbk =>
    rw [afrPostNonblockingEntrylkCbk, if_pos (hfailed (by simp [hcbk]))]
    exact Returned.afrBlockingLock ⟨h.grants, h.wound⟩ (hfresh hcbk).1 (hfresh hcbk).2 rfl
  case h_2 hcbk =>
    rw [afrPostBlockingEntrylkCbk, if_pos (hfailed (by simp [hcbk]))]
    exact h.done
  case h_3 => exact h.done

/-- The first phase has got every lock. -/
theorem Nonblocking.succeed {c : EntryConf n} {t : EntryTxn L n} (h : t.Nonblocking c)
    (hall : t.entrylkLockCount = t.lkExpectedCount) :
    ({ t with lockOpRet := 0 }.runLockCbk c).Inv c := by
  have hlocking : ({ t with lockOpRet := 0 } : EntryTxn L n).Locking :=
    ⟨h.grants, h.counts, h.total, h.wound⟩
  have hrun : { t with lockOpRet := 0 }.runLockCbk c =
      { t with lockOpRet := 0 }.afrInternalLockFinish c := by
    simp [EntryTxn.runLockCbk, h.cbk, afrPostNonblockingEntrylkCbk]
  rw [hrun]
  exact hlocking.afrInternalLockFinish (h.together hall) h.fresh

/-- The first phase gives its locks back. -/
theorem Nonblocking.fail {c : EntryConf n} {t : EntryTxn L n} (h : t.Nonblocking c) :
    (t.afrUnlockEntrylk (EntryTxn.runLockCbk c)).Inv c := by
  refine h.toLocking.afrUnlockEntrylk (fun _ => h.failed) (fun _ => ⟨h.attempted, h.fresh⟩) ?_
  intro hreturned
  exact Unlocking.runLockCbk hreturned (fun _ => h.failed) fun _ => ⟨h.attempted, h.fresh⟩

theorem Nonblocking.answer {c : EntryConf n} {t : EntryTxn L n} (h : t.Nonblocking c)
    {p : Pair L n} (hp : p ∈ t.asked) :
    ({ t with asked := t.asked.erase p, lkCallCount := t.lkCallCount - 1 } :
      EntryTxn L n).Nonblocking c where
  grants := h.grants
  counts := h.counts
  total := h.total
  wound := h.wound
  calls := by
    show t.lkCallCount - 1 = (t.asked.erase p).card
    rw [Finset.card_erase_of_mem hp, h.calls]
  disjoint := h.disjoint.mono_left (Finset.erase_subset _ _)
  asked_up := (Finset.erase_subset _ _).trans h.asked_up
  locked_up := h.locked_up
  expected := h.expected
  attempted := h.attempted
  failed := h.failed
  cbk := h.cbk
  fresh := h.fresh

theorem Nonblocking.grant {c : EntryConf n} {t : EntryTxn L n} (h : t.Nonblocking c)
    {p : Pair L n} (hup : p ∈ upPairs c L) (hlocked : p ∉ t.locked) (hasked : p ∉ t.asked) :
    (t.grant p).Nonblocking c where
  toLocking := h.toLocking.grant hlocked
  calls := h.calls
  disjoint := Finset.disjoint_insert_right.mpr ⟨hasked, h.disjoint⟩
  asked_up := h.asked_up
  locked_up := Finset.insert_subset hup h.locked_up
  expected := h.expected
  attempted := h.attempted
  failed := h.failed
  cbk := h.cbk
  fresh := h.fresh

theorem Nonblocking.reply {c : EntryConf n} {t : EntryTxn L n} (h : t.Nonblocking c)
    (hphase : t.phase = .nonblocking) {p : Pair L n} (hp : p ∈ t.asked) (reply : LockReply) :
    (t.afrNonblockingEntrylkCbk c p reply).Inv c := by
  have hanswer := h.answer hp
  have hgrant := hanswer.grant (h.asked_up hp) (Finset.disjoint_left.mp h.disjoint hp)
    (Finset.notMem_erase p t.asked)
  unfold EntryTxn.afrNonblockingEntrylkCbk
  dsimp only
  set u : EntryTxn L n := { t with asked := t.asked.erase p, lkCallCount := t.lkCallCount - 1 }
  have hreplied : (if reply = .granted then u.grant p else u).Nonblocking c ∧
      (if reply = .granted then u.grant p else u).phase = .nonblocking := by
    split_ifs
    · exact ⟨hgrant, hphase⟩
    · exact ⟨hanswer, hphase⟩
  generalize (if reply = .granted then u.grant p else u) = v at hreplied ⊢
  split_ifs with hlast hall
  · exact hreplied.1.succeed hall
  · exact hreplied.1.fail
  · rw [Inv, hreplied.2]
    exact hreplied.1

theorem Inv.begin {c : EntryConf n} : (afrNonblockingEntrylk (L := L) c .initial).Inv c := by
  have hcount : (L + 1) * c.childUp.card = (upPairs c L).card := (card_upPairs c).symm
  have hasked : ((pairs L n).filter (·.2 ∈ c.childUp)).take ((L + 1) * c.childUp.card) =
      (pairs L n).filter (· ∈ upPairs c L) := by
    simp only [← mem_upPairs (L := L)]
    exact take_filter_pairs hcount
  exact {
    grants := fun p => rfl
    counts := by simp [afrNonblockingEntrylk, initializeEntrylkVariables]
    total := rfl
    wound := fun w hw => absurd hw List.not_mem_nil
    calls := by
      show (L + 1) * c.childUp.card = (List.toFinset _).card
      rw [hasked, toFinset_filter_pairs, hcount]
    disjoint := Finset.disjoint_empty_right _
    asked_up := by
      show List.toFinset _ ⊆ _
      rw [hasked, toFinset_filter_pairs]
    locked_up := Finset.empty_subset _
    expected := hcount
    attempted := rfl
    failed := neg_one_lt_zero
    cbk := rfl
    fresh := rfl }

theorem Unlocking.reply {c : EntryConf n} {t : EntryTxn L n} (h : t.Unlocking)
    (hphase : t.phase = .unlocking) {p : Pair L n} (hp : p ∈ t.asked) :
    (t.afrUnlockEntrylkCbk c p).Inv c := by
  unfold afrUnlockEntrylkCbk
  dsimp only
  split_ifs
  · exact Unlocking.runLockCbk ⟨h.grants, h.wound⟩ h.failed h.fresh
  · rw [Inv, show EntryTxn.phase _ = .unlocking from hphase]
    refine ⟨⟨h.grants, h.wound⟩, ?_, h.failed, h.fresh⟩
    show t.lkCallCount - 1 = (t.asked.erase p).card
    rw [Finset.card_erase_of_mem hp, h.calls]

/-- A brick that has granted the first lockee in the second phase does not refuse another. -/
def LocksTogether (t : EntryTxn L n) (a : EntryAct L n) : Prop :=
  ∀ p rest, t.phase = .blocking p rest → a = .blockingReply .refused → p.1 ≠ 0 →
    (0, p.2) ∉ t.locked

theorem Inv.blockingReply {c : EntryConf n} {t : EntryTxn L n} (h : t.Inv c) {reply : LockReply}
    (hok : t.LocksTogether (.blockingReply reply)) {p : Pair L n} {rest : List (Pair L n)}
    (hphase : t.phase = .blocking p rest) : (t.afrLockCbk c p rest reply).Inv c := by
  rw [Inv, hphase] at h
  obtain ⟨hup, done, hsplit, hblocking⟩ := h
  have hnext : pairs L n = (done ++ [p]) ++ rest := by
    rw [hsplit, List.append_assoc, List.singleton_append]
  cases reply with
  | granted => exact (hblocking.grant hsplit hup).afrLockBlocking hnext
  | refused => exact (hblocking.refuse hup (hok p rest hphase rfl)).afrLockBlocking hnext
  | enosys =>
      have hlocking : ({ t with
          lkAttemptedCount := t.lkAttemptedCount + 1, lockOpRet := -1 } : EntryTxn L n).Locking :=
        ⟨hblocking.grants, hblocking.counts, hblocking.total, hblocking.wound⟩
      exact hlocking.failBlocking rfl hblocking.cbk

theorem Inv.step {c : EntryConf n} {t t' : EntryTxn L n} {a : EntryAct L n} (h : t.Inv c)
    (hok : t.LocksTogether a) (hstep : entryStep c t a = some t') : t'.Inv c := by
  cases a with
  | begin =>
      rw [entryStep, Option.ite_none_right_eq_some] at hstep
      obtain ⟨⟨hphase, -⟩, heq⟩ := hstep
      rw [Inv, hphase] at h
      cases heq
      rw [show t = .initial from h]
      exact .begin
  | nonblockingReply p reply =>
      rw [entryStep, Option.ite_none_right_eq_some] at hstep
      obtain ⟨⟨hphase, hp⟩, heq⟩ := hstep
      rw [Inv, hphase] at h
      cases heq
      exact Nonblocking.reply h hphase hp reply
  | blockingReply reply =>
      rw [entryStep] at hstep
      split at hstep
      case h_1 p rest hphase =>
        cases hstep
        exact h.blockingReply hok hphase
      case h_2 => cases hstep
  | unlockReply p =>
      rw [entryStep, Option.ite_none_right_eq_some] at hstep
      obtain ⟨⟨hphase, hp⟩, heq⟩ := hstep
      rw [Inv, hphase] at h
      cases heq
      exact Unlocking.reply h hphase hp
  | preOpDone =>
      rw [entryStep, Option.ite_none_right_eq_some] at hstep
      obtain ⟨hphase, heq⟩ := hstep
      rw [Inv, hphase] at h
      cases heq
      exact h.1.performFop h.2
  | fopDone =>
      rw [entryStep, Option.ite_none_right_eq_some] at hstep
      obtain ⟨hphase, heq⟩ := hstep
      rw [Inv, hphase] at h
      cases heq
      exact ⟨h.grants, h.counts, h.total, h.wound⟩
  | postOpDone =>
      rw [entryStep, Option.ite_none_right_eq_some] at hstep
      obtain ⟨hphase, heq⟩ := hstep
      rw [Inv, hphase] at h
      cases heq
      exact Locking.afrChangelogPostOpDone h

/-- What the phases have in common: the operation was sent only where all lockees were locked, and
no lock is given back twice. -/
theorem Inv.sound {c : EntryConf n} {t : EntryTxn L n} (h : t.Inv c) :
    (∀ w ∈ t.wound, w.2 = Finset.univ) ∧ ∀ p, t.unlocks p ≤ t.grants p := by
  have hlocking : t.Locking → (∀ w ∈ t.wound, w.2 = Finset.univ) ∧
      ∀ p, t.unlocks p ≤ t.grants p :=
    fun h => ⟨h.wound, fun p => h.grants p ▸ Nat.le_add_right ..⟩
  have hreturned : t.Returned → (∀ w ∈ t.wound, w.2 = Finset.univ) ∧
      ∀ p, t.unlocks p ≤ t.grants p := fun h => ⟨h.wound, fun p => (h.grants p).ge⟩
  unfold Inv at h
  split at h
  case h_1 =>
    subst h
    exact ⟨fun w hw => absurd hw List.not_mem_nil, fun p => le_rfl⟩
  case h_2 => exact hlocking h.toLocking
  case h_3 =>
    obtain ⟨-, done, -, hblocking⟩ := h
    exact hlocking hblocking.toLocking
  case h_4 => exact hreturned h.toReturned
  case h_5 => exact hlocking h.1
  case h_6 => exact hlocking h
  case h_7 => exact hlocking h
  case h_8 => exact hreturned h

end EntryTxn

/-! ## Runs -/

open EntryTxn

/-- **In a run in which no brick refuses a later lockee after it has granted the first, the
operation is sent only to bricks on which every lockee holds its lock; no lock is given back
twice, and when the transaction has ended each lock that was granted has been given back once.** -/
theorem entry_locks (c : EntryConf n) {t : EntryTxn L n}
    (h : (entryMachine c L).ReachableWhen LocksTogether t) :
    (∀ w ∈ t.wound, w.2 = Finset.univ) ∧ (∀ p, t.unlocks p ≤ t.grants p) ∧
      (t.phase = .ended → ∀ p, t.unlocks p = t.grants p) := by
  have hinv : t.Inv c := by
    refine Machine.ReachableWhen.invariant (EntryTxn.Inv c) ?_ ?_ h
    · rintro s rfl
      rfl
    · intro s a s' hs hok hstep
      exact hs.step hok hstep
  refine ⟨hinv.sound.1, hinv.sound.2, fun hphase p => ?_⟩
  rw [EntryTxn.Inv, hphase] at hinv
  exact (hinv.grants p).symm

/-- Bricks that are all up, without a quorum. -/
def allUp (n : ℕ) : EntryConf n where
  priv := ⟨0, true⟩
  childUp := Finset.univ
  entryChangeLog := true
  optimisticChangeLog := true
  preOpCompat := false

/-- The instance behind the literals for the only brick. -/
local instance brick_neZero : NeZero 1 := ⟨by decide⟩

/-- A rename whose second lockee is refused at first. -/
def retriedRename : List (EntryAct 1 1) :=
  [.begin, .nonblockingReply (0, 0) .granted, .nonblockingReply (1, 0) .refused,
    .unlockReply (0, 0), .blockingReply .granted, .blockingReply .granted, .fopDone, .postOpDone,
    .unlockReply (0, 0), .unlockReply (1, 0)]

theorem entry_locks_retried :
    ∃ t, (entryMachine (allUp 1) 1).ReachableWhen LocksTogether t ∧ t.phase = .ended ∧
      t.wound = [(0, Finset.univ)] ∧ t.grants (0, 0) = 2 ∧
      (∀ w ∈ t.wound, w.2 = Finset.univ) ∧ (∀ p, t.unlocks p ≤ t.grants p) ∧
      (t.phase = .ended → ∀ p, t.unlocks p = t.grants p) := by
  have hresult : ((entryMachine (allUp 1) 1).exec .initial retriedRename).map
      (fun t => (t.phase, t.wound, t.grants (0, 0))) = some (.ended, [(0, Finset.univ)], 2) := by
    decide +kernel
  obtain ⟨t, hrun, heq⟩ := Option.map_eq_some_iff.mp hresult
  simp only [Prod.mk.injEq] at heq
  have hreach : (entryMachine (allUp 1) 1).ReachableWhen LocksTogether t := by
    refine .exec (.start rfl) _ (fun a ha s p rest _ hrefused => ?_) hrun
    subst hrefused
    simp [retriedRename] at ha
  exact ⟨t, hreach, heq.1, heq.2.1, heq.2.2, entry_locks (allUp 1) hreach⟩

/-- A rename on two bricks, of which one refuses the second lockee in both phases. -/
def halfLockedRename : List (EntryAct 1 2) :=
  [.begin, .nonblockingReply (0, 0) .granted, .nonblockingReply (0, 1) .granted,
    .nonblockingReply (1, 0) .granted, .nonblockingReply (1, 1) .refused, .unlockReply (0, 0),
    .unlockReply (0, 1), .unlockReply (1, 0), .blockingReply .granted, .blockingReply .granted,
    .blockingReply .granted, .blockingReply .refused]

/-- The rename is sent to a brick that has not granted its second lockee. -/
theorem rename_sent_half_locked :
    ∃ t, (entryMachine (allUp 2) 1).Reachable t ∧ t.phase = .fop ∧
      (1, {0}) ∈ t.wound ∧ t.unlocks (1, 1) = 0 ∧ t.grants (1, 1) = 0 := by
  have hresult : ((entryMachine (allUp 2) 1).exec .initial halfLockedRename).map
      (fun t => (t.phase, decide ((1, {0}) ∈ t.wound), t.unlocks (1, 1), t.grants (1, 1))) =
      some (.fop, true, 0, 0) := by
    decide +kernel
  obtain ⟨t, hrun, heq⟩ := Option.map_eq_some_iff.mp hresult
  simp only [Prod.mk.injEq, decide_eq_true_eq] at heq
  exact ⟨t, .exec (.start rfl) _ hrun, heq⟩

end GlusterFS.Afr
