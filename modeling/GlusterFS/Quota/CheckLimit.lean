import GlusterFS.Lib.Machine
import GlusterFS.Quota.Parents

/-!
# Checking the limits of a file operation

Before a file operation is passed on, `features/quota` walks from the file, or from the directory in
which something is created, to the root, and compares the size of every directory that has a limit.
`local->link_count` counts the walks of the operation: `quota_writev` begins one for each known link.
The stub of the operation is resumed by the last `quota_link_count_decrement`.

A walk is a loop with two asynchronous continuations.

* A size that is too old is looked up again; `quota_validate_cbk` goes on where `validate_loc` points
  to.  `validate_loc` and `just_validated` belong to the operation, not to the walk.
* An inode without a parent in the inode table gets its ancestry from the child translator; the walk
  then **forks** into one walk for each parent, and `link_count` is raised
  (`quota_check_limit_continuation`).

This module embeds the walks: a step of the machine is the beginning of a walk, one iteration of the
loop, or the answer to a lookup, and the inode table may change arbitrarily between two steps.
-/

namespace GlusterFS.Quota.CheckLimit

open GlusterFS.Quota.Parents (Dentry)

/-! ## The inode table -/

/-- `quota_inode_ctx_t`. -/
structure Ctx where
  hardLim : ℤ
  softLim : ℤ
  size : ℤ
  tv : ℤ
  parents : List Dentry

/-- What quota asks the inode table for. -/
structure Table where
  gfid : ℕ → ℕ
  inodeFind : ℕ → Option ℕ
  /-- `inode_parent`, with the dentry if one is named -/
  inodeParent : ℕ → Option Dentry → Option ℕ
  ctx : ℕ → Option Ctx

/-- The gfid of the root. -/
def rootGfid : ℕ := 1

/-- `quota_priv_t`. -/
structure Priv where
  softTimeout : ℕ
  hardTimeout : ℕ

def einval : ℤ := 22

def enomem : ℤ := 12

def eio : ℤ := 5

def edquot : ℤ := 122

/-- `quota_timeout`; the difference is taken as `uint64_t`. -/
def quotaTimeout (now tv : ℤ) (timeout : ℕ) : Bool := (timeout : ℤ) ≤ (now - tv) % 2 ^ 64

/-! ## The walks -/

/-- Where a walk is. -/
inductive Walk where
  /-- `quota_check_limit` is called next -/
  | start (inode : Option ℕ) (name : Option Dentry)
  /-- `inode_find` and `quota_check_limit` are called next, for a parent -/
  | startAt (par : ℕ)
  /-- at the top of the loop -/
  | loop (inode : ℕ) (justValidated hardLimitExceeded : Bool) (name : Option Dentry)
  /-- the lookup for `quota_validate_cbk` has been sent -/
  | validating
  /-- `open` or `opendir` has been sent for the ancestry -/
  | opening (inode : ℕ)
  /-- `readdirp` has been sent for the ancestry -/
  | building (inode : ℕ)
  /-- the lookup for `quota_rename_get_size_cbk` has been sent -/
  | sizing (newParent : Option ℕ)
  /-- `quota_link_count_decrement` has been called -/
  | ended
  /-- nothing has been sent, and nothing will be -/
  | lost
  deriving DecidableEq

/-- `quota_local_t`, its walks, and what has become of them. -/
structure State where
  table : Table
  now : ℤ
  pid : ℤ
  delta : ℤ
  linkCount : ℤ
  /-- `local->stub` is not `NULL` -/
  stub : Bool
  opRet : ℤ
  opErrno : ℤ
  spaceAvailable : ℤ
  justValidated : Bool
  validateLoc : Option ℕ
  walks : List Walk
  /-- how often the stub has been resumed -/
  resumed : ℕ
  /-- the walks that called `quota_link_count_decrement`, the newest first -/
  ends : List ℕ

def State.setWalk (s : State) (i : ℕ) (w : Walk) : State := { s with walks := s.walks.set i w }

/-- `quota_link_count_decrement`, at the end of a walk. -/
def quotaLinkCountDecrement (s : State) (i : ℕ) : State :=
  let linkCount := s.linkCount - 1
  let resume := decide (linkCount = 0) && s.stub
  { s with
    linkCount := linkCount
    stub := if linkCount = 0 then false else s.stub
    resumed := if resume then s.resumed + 1 else s.resumed
    walks := s.walks.set i .ended
    ends := i :: s.ends }

/-- `quota_handle_validate_error`. -/
def quotaHandleValidateError (s : State) (i : ℕ) (opRet opErrno : ℤ) : State :=
  quotaLinkCountDecrement
    (if opRet < 0 then { s with opRet := opRet, opErrno := opErrno } else s) i

/-- `quota_check_limit`, to the loop.  Without an inode, `local` is still `NULL` at `err`. -/
def quotaCheckLimit (s : State) (i : ℕ) (inode : Option ℕ) (name : Option Dentry) : State :=
  match inode with
  | none => s.setWalk i .lost
  | some inode =>
      if s.stub = false then quotaHandleValidateError s i (-1) einval
      else if s.pid < 0 then quotaLinkCountDecrement s i
      else { s with justValidated := false }.setWalk i (.loop inode s.justValidated false name)

/-- What becomes of the lookup of `quota_validate`. -/
inductive Sent where
  | submitted
  /-- the request dictionary cannot be built -/
  | noMemory
  /-- `quota_enforcer_submit_request` fails before the request is submitted -/
  | unsent
  deriving DecidableEq

/-- `quota_validate` for `quota_validate_cbk`.  What `quota_enforcer_submit_request` returns is only
logged. -/
def quotaValidate (s : State) (i inode : ℕ) (sent : Sent) : State :=
  let s := { s with validateLoc := some inode }
  match sent with
  | .noMemory => quotaHandleValidateError s i (-1) enomem
  | .submitted => s.setWalk i .validating
  | .unsent => s.setWalk i .lost

/-- The second half of an iteration: the end at the root, or the way to the parent. -/
def climb (s : State) (i inode : ℕ) (hardLimitExceeded : Bool) (name : Option Dentry) : State :=
  if s.table.gfid inode = rootGfid then quotaLinkCountDecrement s i
  else
    match s.table.inodeParent inode name with
    | none => s.setWalk i (.opening inode)
    | some parent => s.setWalk i (.loop parent false hardLimitExceeded none)

/-- The space that a directory has left, and the least of it on the way. -/
def noteExceeded (s : State) (spaceAvailable : ℤ) : State :=
  { s with
    opRet := -1
    opErrno := edquot
    spaceAvailable :=
      if s.spaceAvailable < 0 ∨ s.spaceAvailable > spaceAvailable then spaceAvailable
      else s.spaceAvailable }

/-- How old the size may be: less than usual beyond the soft limit. -/
def sizeTimeout (priv : Priv) (ctx : Ctx) (wouldbeSize : ℤ) : ℕ :=
  if 0 ≤ ctx.softLim ∧ ctx.softLim < wouldbeSize then priv.hardTimeout else priv.softTimeout

/-- One iteration of the loop of `quota_check_limit`.  `hard_limit_exceeded` is never cleared. -/
def iterate (priv : Priv) (s : State) (i inode : ℕ) (justValidated hardLimitExceeded : Bool)
    (name : Option Dentry) (sent : Sent) : State :=
  match s.table.ctx inode with
  | none => climb s i inode hardLimitExceeded name
  | some ctx =>
      if 0 < ctx.hardLim ∨ 0 < ctx.softLim then
        let wouldbeSize := ctx.size + s.delta
        let timeout := sizeTimeout priv ctx wouldbeSize
        if !justValidated && quotaTimeout s.now ctx.tv timeout then quotaValidate s i inode sent
        else
          let exceeded := hardLimitExceeded || decide (ctx.hardLim ≤ wouldbeSize)
          if exceeded then
            let spaceAvailable := max 0 (ctx.hardLim - ctx.size)
            let s := noteExceeded s spaceAvailable
            if spaceAvailable = 0 then quotaHandleValidateError s i (-1) edquot
            else climb s i inode exceeded name
          else climb s i inode exceeded name
      else climb s i inode hardLimitExceeded name

/-- The answer of the enforcer to a lookup: an error, or what `xdata` holds. -/
inductive LookupReply where
  | failed (opErrno : ℤ) (xdata : Bool)
  | noXdata
  | noSize
  | size (size : ℤ)
  deriving DecidableEq

/-- `quota_validate_cbk`.  The operation goes on at `validate_loc`, whoever set it; an answer without
the size ends the walk without an error. -/
def quotaValidateCbk (s : State) (i : ℕ) (reply : LookupReply) : State :=
  match reply with
  | .failed opErrno _ => quotaHandleValidateError s i (-1) opErrno
  | .noXdata | .noSize => quotaHandleValidateError s i 0 einval
  | .size size =>
      match s.validateLoc.bind s.table.ctx with
      | none => quotaHandleValidateError s i 0 einval
      | some ctx =>
          let refreshed := s.validateLoc.map fun inode =>
            Function.update s.table.ctx inode (some { ctx with size := size, tv := s.now })
          let s := { s with
            justValidated := true
            table := { s.table with ctx := refreshed.getD s.table.ctx } }
          quotaCheckLimit s i s.validateLoc none

/-- `quota_rename_get_size_cbk`.  Without `xdata`, `local` is still `NULL` at `out`. -/
def quotaRenameGetSizeCbk (s : State) (i : ℕ) (newParent : Option ℕ) (reply : LookupReply) : State :=
  match reply with
  | .failed _ false | .noXdata => s.setWalk i .lost
  | .failed opErrno true => quotaHandleValidateError s i (-1) opErrno
  | .noSize => quotaHandleValidateError s i (-1) einval
  | .size size => quotaCheckLimit { s with delta := size } i newParent none

/-- `quota_add_parent`, over the links of an inode: the distinct parents. -/
def quotaAddParent (parents : List ℕ) (par : ℕ) : List ℕ :=
  if parents.any fun entry => par = entry then parents else parents ++ [par]

/-- The parents that `quota_build_ancestry_cbk` hands on: those in the context of a file, or else the
parent of a directory. -/
def ancestryParents (table : Table) (inode parent : ℕ) : List ℕ :=
  let known := ((table.ctx inode).map fun ctx => ctx.parents).getD []
  let parents := (known.map Dentry.par).foldl quotaAddParent []
  if parents.isEmpty then quotaAddParent parents (table.gfid parent) else parents

/-- `quota_check_limit_continuation`. -/
def quotaCheckLimitContinuation (s : State) (i : ℕ) (parents : List ℕ) : State :=
  match parents with
  | [] => quotaHandleValidateError s i (-1) eio
  | par :: rest =>
      { s with
        linkCount := s.linkCount + (((par :: rest).length : ℤ) - 1)
        walks := s.walks.set i (.startAt par) ++ rest.map .startAt }

/-- `quota_build_ancestry_cbk`; the contexts have been filled from the entries. -/
def quotaBuildAncestryCbk (s : State) (i inode : ℕ) (error : Option ℤ) : State :=
  match error with
  | some opErrno => quotaHandleValidateError s i (-1) opErrno
  | none =>
      match s.table.inodeParent inode none with
      | none => quotaHandleValidateError s i (-1) einval
      | some parent => quotaCheckLimitContinuation s i (ancestryParents s.table inode parent)

/-- `quota_build_ancestry_open_cbk`. -/
def quotaBuildAncestryOpenCbk (s : State) (i inode : ℕ) (error : Option ℤ) : State :=
  match error with
  | some opErrno => quotaHandleValidateError s i (-1) opErrno
  | none => s.setWalk i (.building inode)

/-! ## The machine -/

inductive Action where
  /-- the call of `quota_check_limit` of a walk -/
  | begin (i : ℕ)
  | iterate (i : ℕ) (sent : Sent)
  | validated (i : ℕ) (reply : LookupReply)
  | sized (i : ℕ) (reply : LookupReply)
  | opened (i : ℕ) (error : Option ℤ)
  | built (i : ℕ) (error : Option ℤ)
  /-- time passes, and the inode table and the contexts change -/
  | change (table : Table) (now : ℤ)

/-- A step of a walk, by where it is. -/
def walkStep (priv : Priv) (s : State) (i : ℕ) (w : Walk) (a : Action) : Option State :=
  match w, a with
  | .start inode name, .begin _ => some (quotaCheckLimit s i inode name)
  | .startAt par, .begin _ => some (quotaCheckLimit s i (s.table.inodeFind par) none)
  | .loop inode justValidated exceeded name, .iterate _ sent =>
      some (CheckLimit.iterate priv s i inode justValidated exceeded name sent)
  | .validating, .validated _ reply => some (quotaValidateCbk s i reply)
  | .sizing newParent, .sized _ reply => some (quotaRenameGetSizeCbk s i newParent reply)
  | .opening inode, .opened _ error => some (quotaBuildAncestryOpenCbk s i inode error)
  | .building inode, .built _ error => some (quotaBuildAncestryCbk s i inode error)
  | _, _ => none

/-- The walk of an action. -/
def Action.walk : Action → Option ℕ
  | .begin i | .iterate i _ | .validated i _ | .sized i _ | .opened i _ | .built i _ => some i
  | .change _ _ => none

def step (priv : Priv) (s : State) (a : Action) : Option State :=
  match a with
  | .change table now => some { s with table := table, now := now }
  | _ => a.walk.bind fun i => (s.walks[i]?).bind fun w => walkStep priv s i w a

/-- The operations that check limits, with what they check. -/
inductive Fop where
  /-- `quota_writev`, with the known links of the file -/
  | writev (inode : ℕ) (parents : List Dentry)
  /-- `quota_link` and `quota_rename` of a file: the new parent -/
  | into (inode : Option ℕ)
  /-- `quota_rename` of a directory, whose size is looked up -/
  | renameDirectory (newParent : Option ℕ)

/-- The walks that an operation begins. -/
def Fop.walks : Fop → List Walk
  | .writev inode parents =>
      if parents.length = 0 then [.start (some inode) none]
      else parents.map fun dentry => .start (some inode) (some dentry)
  | .into inode => [.start inode none]
  | .renameDirectory newParent => [.sizing newParent]

/-- `local->link_count` at the start. -/
def Fop.linkCount : Fop → ℤ
  | .writev _ parents => if parents.length ≠ 0 then parents.length else 1
  | .into _ | .renameDirectory _ => 1

/-- `quota_local_new`, and the start of an operation. -/
def initial (fop : Fop) (table : Table) (now pid delta : ℤ) : State :=
  ⟨table, now, pid, delta, fop.linkCount, true, 0, 0, -1, false, none, fop.walks, 0, []⟩

def quota (priv : Priv) (fop : Fop) : Machine State Action where
  start s := ∃ table now pid delta, s = initial fop table now pid delta
  step := step priv

end GlusterFS.Quota.CheckLimit
