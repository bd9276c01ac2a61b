import GlusterFS.Lib.Machine
import GlusterFS.Lib.SharedMark

/-!
# The changelog of data transactions

Before a data transaction of the replicate translator writes, its pre-op increments a dirty
count on every brick it is going to write to; when it is through, its post-op decrements the
counts, and accuses the bricks on which the write failed.  Transactions on one file
descriptor share these marks.  A transaction that has incremented the counts on the same
bricks is counted in `on_disk` of the descriptor's context (`afr_changelog_pre_op_update`); as
long as that is positive, another one on the same bricks increments nothing and counts as
`inherited` (`afr_changelog_pre_op_inherit`).  `afr_changelog_pre_op_uninherit` tells a
transaction that is through whether it has to decrement.

This module embeds `afr_changelog_pre_op`, `afr_changelog_pre_op_inherit`,
`afr_changelog_pre_op_update`, `afr_changelog_pre_op_uninherit`, `afr_changelog_do`,
`afr_transaction_perform_fop`, `__afr_inode_write_finalize`,
`afr_writev_handle_short_writes`, `afr_handle_symmetric_errors`, `afr_transaction_resume`,
`afr_has_quorum`, `afr_handle_quorum`, `afr_changelog_post_op`,
`afr_changelog_post_op_safe` and `afr_changelog_post_op_now`, for `N` transactions on one
descriptor of a volume of `n` bricks.  An action runs a transaction up to the point where it
waits for an answer or for a timer, but `finish`, which sends what
`afr_changelog_post_op_now` has made up its mind to send.

The second half says what share a transaction has of the marks on its bricks
(`Transaction.share`) and keeps a `SharedMark.Account` for every set of bricks (`Follows`);
`Follows.advance` enters what one transaction does into the account of its bricks.
`ChangelogSteps` goes through the functions, and `ChangelogDirty` has the results.
-/

namespace GlusterFS.Afr

open SharedMark

/-! ## The model -/

/-- The options of the volume that are looked at. -/
structure AfrPrivate where
  quorumCount : ℕ
  ensureDurability : Bool
  deriving DecidableEq, Repr

/-- `AFR_QUORUM_AUTO`. -/
def afrQuorumAuto : ℕ := 2147483647

def enotconn : ℕ := 107

/-- A set of bricks. -/
abbrev Subvols (n : ℕ) := Finset (Fin n)

/-- The part of `afr_fd_ctx_t` for data transactions. -/
structure FdCtx (n : ℕ) where
  preOpDone : Subvols n
  inherited : ℕ
  onDisk : ℕ
  deriving DecidableEq

/-- What `afr_changelog_pre_op_uninherit` has found when it was first called: other bricks in
`pre_op_done`, an inherited mark, one on disk, or neither. -/
inductive Uninherit
  | mismatch
  | inherited
  | onDisk
  | nothing
  deriving DecidableEq, Repr

/-- `uninherit_value`. -/
def Uninherit.value (dirtied : Bool) : Uninherit → Bool
  | .mismatch => !dirtied
  | .inherited => true
  | .onDisk => false
  | .nothing => false

/-- Where a transaction is.  `preOp` waits for the answers to the pre-op, `fop` for those of
the write, `delayed` for the timer, `fsync` for the answers to the fsync of
`afr_changelog_post_op_safe`.  In `postOp` it is in `afr_changelog_post_op_now`. -/
inductive Phase
  | idle
  | preOp
  | fop
  | resumed
  | delayed
  | fsync
  | postOp (needUndirty : Bool)
  | done
  deriving DecidableEq, Repr

/-- A transaction: the part of `afr_local_t` that the changelog looks at. -/
structure Transaction (n : ℕ) where
  preOpCompat : Bool
  preOp : Subvols n
  pending : Subvols n
  failedSubvols : Subvols n
  opRet : ℤ
  dirtied : Bool
  inherited : Bool
  noUninherit : Bool
  uninherit : Option Uninherit
  phase : Phase
  deriving DecidableEq

/-- A new transaction on the locked bricks. -/
def Transaction.new {n : ℕ} (preOpCompat : Bool) (preOp : Subvols n) : Transaction n where
  preOpCompat := preOpCompat
  preOp := preOp
  pending := ∅
  failedSubvols := ∅
  opRet := 0
  dirtied := false
  inherited := false
  noUninherit := false
  uninherit := none
  phase := .idle

/-- What a brick answers to a write. -/
structure FopReply where
  opRet : ℤ
  opErrno : ℕ
  deriving DecidableEq, Repr

/-- The descriptor's context, the transactions, and what they have added to the counts of the
bricks: `dirty k` on brick `k`, and `accusations k j` to brick `k`'s count for brick `j`. -/
structure ChangelogState (n N : ℕ) where
  fd : FdCtx n
  threads : Fin N → Transaction n
  dirty : Fin n → ℤ
  accusations : Fin n → Fin n → ℤ

variable {n N : ℕ}

/-! ### Quorum -/

/-- `afr_has_quorum`. -/
def afrHasQuorum (priv : AfrPrivate) (subvols : Subvols n) : Bool :=
  if priv.quorumCount = afrQuorumAuto ∧ n % 2 = 0 ∧ subvols.card = n / 2 then
    decide (∃ h : 0 < n, (⟨0, h⟩ : Fin n) ∈ subvols)
  else
    decide ((if priv.quorumCount = afrQuorumAuto then n / 2 + 1 else priv.quorumCount) ≤
      subvols.card)

/-- `afr_txn_nothing_failed`. -/
def afrTxnNothingFailed (x : Transaction n) : Bool := decide (x.failedSubvols = ∅)

/-- `afr_handle_quorum`, with `afr_has_fop_cbk_quorum`. -/
def afrHandleQuorum (priv : AfrPrivate) (x : Transaction n) : Transaction n :=
  if priv.quorumCount = 0 ∨ afrHasQuorum priv (x.preOp \ x.failedSubvols) then x
  else { x with failedSubvols := x.failedSubvols ∪ x.preOp, opRet := -1 }

/-! ### Sharing a mark -/

/-- `afr_changelog_pre_op_inherit`; `none` when there is nothing to inherit. -/
def afrChangelogPreOpInherit (fd : FdCtx n) (x : Transaction n) :
    Option (FdCtx n × Transaction n) :=
  if fd.onDisk = 0 ∨ x.preOp ≠ fd.preOpDone then none
  else some ({ fd with inherited := fd.inherited + 1 }, { x with inherited := true })

/-- `afr_changelog_pre_op_update`. -/
def afrChangelogPreOpUpdate (fd : FdCtx n) (x : Transaction n) : FdCtx n × Transaction n :=
  if x.inherited ∨ ¬ x.dirtied ∨ ¬ afrTxnNothingFailed x then (fd, x)
  else if fd.onDisk = 0 then ({ fd with preOpDone := x.preOp, onDisk := fd.onDisk + 1 }, x)
  else if fd.preOpDone ≠ x.preOp then (fd, { x with noUninherit := true })
  else ({ fd with onDisk := fd.onDisk + 1 }, x)

/-- The last lines of the locked part of `afr_changelog_pre_op_uninherit`. -/
def FdCtx.reset (fd : FdCtx n) : FdCtx n :=
  if fd.inherited = 0 ∧ fd.onDisk = 0 then { fd with preOpDone := ∅ } else fd

/-- The locked part of `afr_changelog_pre_op_uninherit`. -/
def FdCtx.uninherit (fd : FdCtx n) (preOp : Subvols n) : FdCtx n × Uninherit :=
  if preOp ≠ fd.preOpDone then (fd, .mismatch)
  else if fd.inherited ≠ 0 then ({ fd with inherited := fd.inherited - 1 }.reset, .inherited)
  else if fd.onDisk ≠ 0 then ({ fd with onDisk := fd.onDisk - 1 }.reset, .onDisk)
  else (fd.reset, .nothing)

/-- `afr_changelog_pre_op_uninherit`: the last component is its return value. -/
def afrChangelogPreOpUninherit (fd : FdCtx n) (x : Transaction n) :
    FdCtx n × Transaction n × Bool :=
  if x.noUninherit then (fd, x, false)
  else match x.uninherit with
    | some found => (fd, x, found.value x.dirtied)
    | none =>
        let (fd, found) := fd.uninherit x.preOp
        (fd, { x with uninherit := some found }, found.value x.dirtied)

/-! ### Pre-op -/

/-- `afr_transaction_perform_fop`. -/
def afrTransactionPerformFop (fd : FdCtx n) (x : Transaction n) : FdCtx n × Transaction n :=
  let (fd, x) := if x.preOpCompat then afrChangelogPreOpUpdate fd x else (fd, x)
  (fd, { x with phase := .fop })

namespace ChangelogState

/-- Transaction `t` has run. -/
def run (s : ChangelogState n N) (t : Fin N) (result : FdCtx n × Transaction n) :
    ChangelogState n N :=
  { s with fd := result.1, threads := Function.update s.threads t result.2 }

/-- `afr_changelog_do`: every brick of the transaction adds `dirty` and accuses the bricks in
`pending`. -/
def afrChangelogDo (s : ChangelogState n N) (preOp : Subvols n) (dirty : ℤ)
    (pending : Subvols n) : ChangelogState n N :=
  { s with
    dirty := fun k => s.dirty k + if k ∈ preOp then dirty else 0
    accusations := fun k j => s.accusations k j + if k ∈ preOp ∧ j ∈ pending then 1 else 0 }

/-- `afr_changelog_pre_op`; without a lock or a quorum the transaction ends. -/
def afrChangelogPreOp (priv : AfrPrivate) (s : ChangelogState n N) (t : Fin N)
    (preOpCompat : Bool) (lockedNodes : Subvols n) : ChangelogState n N :=
  let x := Transaction.new preOpCompat lockedNodes
  if priv.quorumCount ≠ 0 ∧ ¬ afrHasQuorum priv lockedNodes ∨ lockedNodes = ∅ then
    s.run t (s.fd, { x with opRet := -1, phase := .done })
  else
    match afrChangelogPreOpInherit s.fd x with
    | some (fd, x) => s.run t (afrTransactionPerformFop fd x)
    | none =>
        let x := { x with dirtied := decide (1 < lockedNodes.card), pending := lockedNodesᶜ }
        if x.pending = ∅ ∧ ¬ x.dirtied then s.run t (afrTransactionPerformFop s.fd x)
        else
          -- without `pre_op_compat` the update goes along with the write
          (s.afrChangelogDo lockedNodes (if x.dirtied then 1 else 0) x.pending).run t
            (if preOpCompat then (s.fd, { x with phase := .preOp })
            else afrTransactionPerformFop s.fd x)

end ChangelogState

/-! ### The answers to the write -/

section Resume

variable (x : Transaction n) (replies : Fin n → FopReply)

/-- The `op_ret` of `__afr_inode_write_finalize`. -/
def afrInodeWriteFinalize : ℤ :=
  (List.finRange n).foldl
    (fun opRet i =>
      if i ∈ x.preOp ∧ 0 ≤ (replies i).opRet ∧ opRet < (replies i).opRet then (replies i).opRet
      else opRet)
    (-1)

/-- The loop of `afr_handle_symmetric_errors`. -/
def matchingErrors (opErrno : ℕ) : List FopReply → Bool
  | [] => true
  | reply :: rest =>
      if reply.opRet ≠ -1 then false
      else if reply.opErrno = enotconn then false
      else if opErrno = 0 then matchingErrors reply.opErrno rest
      else if opErrno ≠ reply.opErrno then false
      else matchingErrors opErrno rest

/-- `afr_handle_symmetric_errors`. -/
def afrHandleSymmetricErrors : Transaction n :=
  if matchingErrors 0 (((List.finRange n).filter (· ∈ x.preOp)).map replies) then
    { x with failedSubvols := ∅ }
  else x

/-- The callbacks of the write: `__afr_inode_write_fill`, `__afr_inode_write_finalize` and
`afr_writev_handle_short_writes`. -/
def afrWritevWindCbk : Transaction n :=
  let opRet := afrInodeWriteFinalize x replies
  { x with
    opRet := opRet
    failedSubvols := x.failedSubvols ∪ x.preOp.filter fun i =>
      (replies i).opRet < 0 ∨ (replies i).opRet ≠ -1 ∧ (replies i).opRet < opRet }

/-- `afr_transaction_resume`, up to the post-op. -/
def afrTransactionResume (fd : FdCtx n) : FdCtx n × Transaction n :=
  let x := afrHandleSymmetricErrors (afrWritevWindCbk x replies) replies
  let (fd, x) := if x.preOpCompat then (fd, x) else afrChangelogPreOpUpdate fd x
  (fd, { x with phase := .resumed })

end Resume

/-! ### Post-op -/

/-- `afr_changelog_post_op_now`, up to the point where it sends something. -/
def afrChangelogPostOpNow (priv : AfrPrivate) (fd : FdCtx n) (x : Transaction n) :
    FdCtx n × Transaction n :=
  let (fd, x, value) := afrChangelogPreOpUninherit fd (afrHandleQuorum priv x)
  (fd, { x with phase := .postOp !value })

/-- `afr_changelog_post_op_safe`; `witnessed` is what
`afr_fd_has_witnessed_unstable_write` says. -/
def afrChangelogPostOpSafe (priv : AfrPrivate) (fd : FdCtx n) (x : Transaction n)
    (witnessed : Bool) : FdCtx n × Transaction n :=
  let (fd, x, value) := afrChangelogPreOpUninherit fd x
  if value ∧ afrTxnNothingFailed x ∨ ¬ witnessed ∨ ¬ priv.ensureDurability then
    afrChangelogPostOpNow priv fd x
  else (fd, { x with phase := .fsync })

/-- `afr_changelog_post_op`; `delay` says that the descriptor is open only once and that the
transaction may be delayed. -/
def afrChangelogPostOp (priv : AfrPrivate) (fd : FdCtx n) (x : Transaction n)
    (delay witnessed : Bool) : FdCtx n × Transaction n :=
  if delay ∧ afrTxnNothingFailed x then (fd, { x with phase := .delayed })
  else afrChangelogPostOpSafe priv fd x witnessed

/-- The rest of `afr_changelog_post_op_now`. -/
def ChangelogState.afrChangelogPostOpSend (s : ChangelogState n N) (t : Fin N)
    (needUndirty : Bool) : ChangelogState n N :=
  let x := s.threads t
  let done := (s.fd, { x with phase := .done })
  if x.opRet < 0 then s.run t done
  else if afrTxnNothingFailed x ∧ ¬ needUndirty then s.run t done
  else
    (s.afrChangelogDo x.preOp (if needUndirty then -1 else 0) (x.pending ∪ x.failedSubvols)).run t
      done

/-! ### Runs -/

/-- What can happen.  `failed` are the bricks whose answer is an error. -/
inductive ChangelogAct (n N : ℕ)
  | preOp (t : Fin N) (preOpCompat : Bool) (lockedNodes : Subvols n)
  | performFop (t : Fin N) (failed : Subvols n)
  | resume (t : Fin N) (replies : Fin n → FopReply)
  | postOp (t : Fin N) (delay witnessed : Bool)
  | fsync (t : Fin N) (failed : Subvols n)
  | wakeUp (t : Fin N)
  | finish (t : Fin N)

/-- `afr_transaction_fop_failed`, for every brick that has failed. -/
def Transaction.fopFailed (x : Transaction n) (failed : Subvols n) : Transaction n :=
  { x with failedSubvols := x.failedSubvols ∪ x.preOp ∩ failed }

def changelogStep (priv : AfrPrivate) (s : ChangelogState n N) :
    ChangelogAct n N → Option (ChangelogState n N)
  | .preOp t preOpCompat lockedNodes =>
      if (s.threads t).phase = .idle then
        some (s.afrChangelogPreOp priv t preOpCompat lockedNodes)
      else none
  | .performFop t failed =>
      if (s.threads t).phase = .preOp then
        some (s.run t (afrTransactionPerformFop s.fd ((s.threads t).fopFailed failed)))
      else none
  | .resume t replies =>
      if (s.threads t).phase = .fop then
        some (s.run t (afrTransactionResume (s.threads t) replies s.fd))
      else none
  | .postOp t delay witnessed =>
      if (s.threads t).phase = .resumed then
        some (s.run t (afrChangelogPostOp priv s.fd (s.threads t) delay witnessed))
      else none
  | .fsync t failed =>
      if (s.threads t).phase = .fsync then
        some (s.run t (afrChangelogPostOpNow priv s.fd ((s.threads t).fopFailed failed)))
      else none
  | .wakeUp t =>
      if (s.threads t).phase = .delayed then
        some (s.run t (afrChangelogPostOpNow priv s.fd (s.threads t)))
      else none
  | .finish t =>
      match (s.threads t).phase with
      | .postOp needUndirty => some (s.afrChangelogPostOpSend t needUndirty)
      | _ => none

/-- A descriptor that has just been opened, and transactions that have not begun. -/
def ChangelogState.initial : ChangelogState n N where
  fd := ⟨∅, 0, 0⟩
  threads := fun _ => .new false ∅
  dirty := 0
  accusations := 0

/-- The transactions on one descriptor. -/
def changelogMachine (priv : AfrPrivate) (n N : ℕ) :
    Machine (ChangelogState n N) (ChangelogAct n N) where
  start := (· = .initial)
  step := changelogStep priv

/-! ## Shares

What a transaction has of the marks is read off its flags and its phase. -/

/-- `afr_changelog_pre_op_update` is still to come. -/
def Transaction.beforeUpdate (x : Transaction n) : Bool :=
  decide (x.phase = .preOp) || decide (x.phase = .fop) && !x.preOpCompat

/-- The `need_undirty` of a transaction that has called `afr_changelog_pre_op_uninherit`. -/
def Transaction.needUndirty (x : Transaction n) : Bool :=
  x.noUninherit || match x.uninherit with
    | some found => !found.value x.dirtied
    | none => false

/-- The share of a transaction in the marks on its bricks. -/
def Transaction.share (x : Transaction n) : Option Share :=
  match x.phase with
  | .idle | .done => none
  | .postOp _ => if x.needUndirty then some .due else none
  | .preOp | .fop | .resumed | .delayed | .fsync =>
      if x.noUninherit then some .isolated
      else if x.uninherit.isSome then if x.needUndirty then some .due else none
      else if x.inherited then some .borrower
      else if x.dirtied then some (if x.beforeUpdate then .fresh else .settled)
      else none

/-- A transaction that will leave a mark behind: it had inherited one, and the descriptor has
forgotten it; or it has to clear one, and ends without doing it. -/
def Transaction.Leaves (x : Transaction n) : Prop :=
  x.uninherit = some .mismatch ∧ x.inherited = true ∨
    x.phase = .done ∧ x.opRet < 0 ∧ x.needUndirty = true

/-- The descriptor's context: without a mark on disk there is nothing to inherit, and marks
are set on more than one brick only. -/
structure FdCtx.Ok (fd : FdCtx n) : Prop where
  drained : fd.onDisk = 0 → fd.inherited = 0 ∧ fd.preOpDone = ∅
  several : 0 < fd.onDisk → 1 < fd.preOpDone.card

/-- A transaction that has passed the checks of `afr_changelog_pre_op`. -/
structure Transaction.Working (x : Transaction n) : Prop where
  nonempty : x.preOp.Nonempty
  shared : 1 < x.preOp.card ↔ x.dirtied = true ∨ x.inherited = true
  exclusive : x.dirtied = true → x.inherited = false
  isolated : x.noUninherit = true → x.dirtied = true ∧ x.uninherit = none
  phase : match x.phase with
    | .idle => False
    | .preOp => x.preOpCompat = true ∧ x.inherited = false ∧ x.uninherit = none ∧
        x.noUninherit = false
    | .fop => x.uninherit = none ∧ (x.noUninherit = true → x.preOpCompat = true)
    | .resumed | .delayed => x.uninherit = none
    | .fsync | .done => x.noUninherit = true ∨ x.uninherit.isSome = true
    | .postOp needUndirty =>
        (x.noUninherit = true ∨ x.uninherit.isSome = true) ∧ needUndirty = x.needUndirty

/-- A transaction has not begun, has been refused by `afr_changelog_pre_op`, or is at work. -/
def Transaction.Ok (x : Transaction n) : Prop :=
  x = .new false ∅ ∨
    (∃ compat subvols, x = { Transaction.new compat subvols with opRet := -1, phase := .done }) ∨
    x.Working

/-! ### The account of a set of bricks -/

/-- The marks on the bricks `D` that are counted. -/
def FdCtx.counted (fd : FdCtx n) (D : Subvols n) : ℕ := if D = fd.preOpDone then fd.onDisk else 0

/-- The marks on the bricks `D` that are lent. -/
def FdCtx.lent (fd : FdCtx n) (D : Subvols n) : ℕ := if D = fd.preOpDone then fd.inherited else 0

/-- How many transactions on the bricks `D` have a given share. -/
def heldBy (threads : Fin N → Transaction n) (D : Subvols n) (c : Share) : ℕ :=
  tally Finset.univ (fun x : Transaction n => x.preOp = D ∧ x.share = some c) threads

/-- The accounts of all sets of bricks agree with a state. -/
structure Follows (s : ChangelogState n N) (account : Subvols n → Account) : Prop where
  held : ∀ D, (account D).held = heldBy s.threads D
  counted : ∀ D, (account D).counted = s.fd.counted D
  lent : ∀ D, (account D).lent = s.fd.lent D
  dirty : ∀ k, s.dirty k = ∑ D with k ∈ D, (account D).marks
  leaves : ∀ t, (s.threads t).Leaves → 0 < (account (s.threads t).preOp).kept
  ok : ∀ D, (account D).Ok

/-- Running a transaction from `x` to `y`, and the descriptor's context from `fd` to `fd'`, is
an entry in the account of its bricks, or none. -/
def Entry (fd fd' : FdCtx n) (x y : Transaction n) (added : ℤ) : Prop :=
  ∀ (a : Account) (held : Share → ℕ), a.counted = fd.counted y.preOp → a.lent = fd.lent y.preOp →
    Moves x.share y.share a.held held →
    ∃ b : Account, (b = a ∨ a.Step b) ∧ b.held = held ∧ b.counted = fd'.counted y.preOp ∧
      b.lent = fd'.lent y.preOp ∧ b.marks = a.marks + added ∧
      (y.Leaves → x.Leaves ∨ 0 < b.kept)

/-- The context has changed for the bricks `D` only. -/
def FdCtx.SameBut (fd fd' : FdCtx n) (D : Subvols n) : Prop :=
  ∀ D', D' ≠ D → fd'.counted D' = fd.counted D' ∧ fd'.lent D' = fd.lent D'

section Advance

variable {s : ChangelogState n N} {account : Subvols n → Account}

theorem moves_heldBy (threads : Fin N → Transaction n) (t : Fin N) (y : Transaction n)
    (hx : (threads t).share = none ∨ (threads t).preOp = y.preOp) :
    Moves (threads t).share y.share (heldBy threads y.preOp)
      (heldBy (Function.update threads t y) y.preOp) := by
  intro c
  have hupdate := @tally_update _ _ Finset.univ
    (fun x : Transaction n => x.preOp = y.preOp ∧ x.share = some c) _ _ threads t
    (Finset.mem_univ t) y
  have hold : ((threads t).preOp = y.preOp ∧ (threads t).share = some c) ↔
      (threads t).share = some c := by
    refine ⟨And.right, fun hc => ⟨?_, hc⟩⟩
    rcases hx with hnone | hsame
    · rw [hnone] at hc
      cases hc
    · exact hsame
  simpa only [heldBy, hold, true_and] using hupdate

theorem heldBy_update_of_ne (threads : Fin N → Transaction n) (t : Fin N) (y : Transaction n)
    (hx : (threads t).share = none ∨ (threads t).preOp = y.preOp) {D : Subvols n}
    (hD : D ≠ y.preOp) : heldBy (Function.update threads t y) D = heldBy threads D := by
  funext c
  have hupdate := @tally_update _ _ Finset.univ
    (fun x : Transaction n => x.preOp = D ∧ x.share = some c) _ _ threads t
    (Finset.mem_univ t) y
  have hold : ¬ ((threads t).preOp = D ∧ (threads t).share = some c) := by
    rintro ⟨hpre, hc⟩
    rcases hx with hnone | hsame
    · rw [hnone] at hc
      cases hc
    · exact hD (hpre.symm.trans hsame)
  have hnew : ¬ (y.preOp = D ∧ y.share = some c) := fun h => hD h.1.symm
  simpa only [heldBy, if_neg hold, if_neg hnew, add_zero] using hupdate

/-- Marks are added on the bricks of `D`. -/
theorem sum_marks_update (D : Subvols n) (b : Account) (k : Fin n) {added : ℤ}
    (hmarks : b.marks = (account D).marks + added) :
    ∑ D' with k ∈ D', (Function.update account D b D').marks =
      (∑ D' with k ∈ D', (account D').marks) + if k ∈ D then added else 0 := by
  by_cases hk : k ∈ D
  · have hmem : D ∈ Finset.univ.filter fun D' : Subvols n => k ∈ D' := by simpa using hk
    rw [← Finset.add_sum_erase _ _ hmem, ← Finset.add_sum_erase _ _ hmem, if_pos hk,
      Function.update_self, hmarks]
    have hrest : ∀ D' ∈ (Finset.univ.filter fun D' : Subvols n => k ∈ D').erase D,
        (Function.update account D b D').marks = (account D').marks := fun D' hD' => by
      rw [Function.update_of_ne (Finset.ne_of_mem_erase hD')]
    rw [Finset.sum_congr rfl hrest]
    ring
  · rw [if_neg hk, add_zero]
    refine Finset.sum_congr rfl fun D' hD' => ?_
    have hne : D' ≠ D := fun h => hk (h ▸ (Finset.mem_filter.mp hD').2)
    rw [Function.update_of_ne hne]

/-- **An entry in one account keeps all accounts in agreement.** -/
theorem Follows.advance (h : Follows s account) {t : Fin N} {fd' : FdCtx n} {y : Transaction n}
    {added : ℤ} (hx : (s.threads t).share = none ∨ (s.threads t).preOp = y.preOp)
    (hleaves : (s.threads t).Leaves → (s.threads t).preOp = y.preOp)
    (hfd : s.fd.SameBut fd' y.preOp) (hentry : Entry s.fd fd' (s.threads t) y added)
    (s' : ChangelogState n N) (hfd' : s'.fd = fd')
    (hthreads : s'.threads = Function.update s.threads t y)
    (hdirty : ∀ k, s'.dirty k = s.dirty k + if k ∈ y.preOp then added else 0) :
    ∃ account', Follows s' account' := by
  have hmoves := moves_heldBy s.threads t y hx
  rw [← h.held] at hmoves
  obtain ⟨b, hstep, hheld, hcounted, hlent, hmarks, hkept⟩ :=
    hentry _ _ (h.counted _) (h.lent _) hmoves
  have hmono : (account y.preOp).kept ≤ b.kept := by
    rcases hstep with rfl | hstep
    · exact le_rfl
    · exact hstep.kept_le
  have hkeptAll : ∀ D, (account D).kept ≤ (Function.update account y.preOp b D).kept := by
    intro D
    by_cases hD : D = y.preOp
    · rw [hD, Function.update_self]
      exact hmono
    · rw [Function.update_of_ne hD]
  refine ⟨Function.update account y.preOp b, ?_, ?_, ?_, ?_, ?_, ?_⟩
  · intro D
    rw [hthreads]
    by_cases hD : D = y.preOp
    · subst hD
      rw [Function.update_self, hheld]
    · rw [Function.update_of_ne hD, h.held, heldBy_update_of_ne _ _ _ hx hD]
  · intro D
    rw [hfd']
    by_cases hD : D = y.preOp
    · subst hD
      rw [Function.update_self, hcounted]
    · rw [Function.update_of_ne hD, h.counted, (hfd D hD).1]
  · intro D
    rw [hfd']
    by_cases hD : D = y.preOp
    · subst hD
      rw [Function.update_self, hlent]
    · rw [Function.update_of_ne hD, h.lent, (hfd D hD).2]
  · intro k
    rw [hdirty, h.dirty, sum_marks_update _ _ _ hmarks]
  · intro t' hl
    rw [hthreads] at hl ⊢
    by_cases ht : t' = t
    · subst ht
      rw [Function.update_self] at hl ⊢
      rw [Function.update_self]
      rcases hkept hl with hold | hnew
      · have := h.leaves t' hold
        rw [hleaves hold] at this
        exact this.trans_le hmono
      · exact hnew
    · rw [Function.update_of_ne ht] at hl ⊢
      exact (h.leaves t' hl).trans_le (hkeptAll _)
  · intro D
    by_cases hD : D = y.preOp
    · subst hD
      rw [Function.update_self]
      rcases hstep with rfl | hstep
      · exact h.ok _
      · exact (h.ok _).step hstep
    · rw [Function.update_of_ne hD]
      exact h.ok D

end Advance

/-! ## A volume of two bricks -/

/-- The instance behind the literals. -/
scoped instance neZero_two : NeZero 2 := ⟨by decide⟩

/-- Both bricks. -/
def bothBricks : Subvols 2 := Finset.univ

end GlusterFS.Afr
