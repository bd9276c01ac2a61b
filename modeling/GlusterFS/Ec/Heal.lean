import GlusterFS.Ec.Answer
import GlusterFS.Ec.Fragment
import GlusterFS.Lib.Machine

/-!
# The heal of a file

`ec_manager_heal` (`ec-heal.c`) with `partial = 0`.  A heal looks the file up on all
bricks, takes the group of equal answers that has at least `fragments` bricks as the
**sources**, and brings the other bricks in line: it creates the missing entries, removes
and sets extended attributes, sets the attributes, truncates the fragment file and
copies the data window by window.  `healStep` is one state of the manager, with the
answers of the bricks to the child operations of that state as an `HealOutcome`.

The heal holds the whole-file lock from the second lookup until it has truncated the
files, the lock of one window while it copies that window, and the whole-file lock again
for the last two states.  Clients write whenever none of these locks is held
(`HealPhase.locked`); a client write goes to all the bricks of the volume that are up.

**What the model keeps.**  A brick has an `Entry` with the attributes, the version and
size attributes, the other extended attributes and the fragment file.  `ec_lookup`
answers are grouped by what `ec_combine_lookup` and the dictionary comparison look at;
the dictionary holds all extended attributes only when `list-xattr` is asked for, so the
first lookup does not see them.  `ec_lookup_rebuild` extracts version and size for the
answer only: in the other groups both fields stay zero, which is what
`ec_heal_needs_data_rebuild` compares (`Heal.cbkSize`, `Heal.cbkVersion`).

**What it assumes.**  `ec_readv` and `ec_writev` meet their contracts: a read
from the sources gives the bytes of the file, up to the size that the heal knows, and a
write stores the chunks of its stripes.  A brick answers a lookup truthfully or not at
all.  An operation that a brick acknowledges has taken effect there; one that fails may
have taken effect as well.
-/

namespace GlusterFS.Ec

open Striped

/-! ## What a brick stores -/

/-- The attributes and extended attributes of a file on one brick. -/
structure InodeInfo where
  gfid : ℕ
  type : IaType
  prot : BitVec 12
  uid : ℕ
  gid : ℕ
  atime : ℕ
  mtime : ℕ
  /-- `trusted.ec.version`. -/
  version : Option ℕ
  /-- `trusted.ec.size`. -/
  size : Option ℕ
  /-- All other extended attributes. -/
  xattrs : Finset (String × List Byte)
  deriving DecidableEq

/-- A file on one brick: its attributes and its fragment file. -/
structure Inode where
  info : InodeInfo
  data : File Byte

/-- What the path of the file leads to on one brick.  The inode may be there without the
entry. -/
inductive Entry
  | absent (inode : Option Inode)
  | present (inode : Inode)

namespace Entry

/-- The inode of a brick, whether or not the path leads to it. -/
def inode? : Entry → Option Inode
  | .absent i => i
  | .present i => some i

/-- An operation on the inode with the given gfid. -/
def modify (gfid : ℕ) (f : Inode → Inode) : Entry → Entry
  | .absent none => .absent none
  | .absent (some i) => .absent (some (if i.info.gfid = gfid then f i else i))
  | .present i => .present (if i.info.gfid = gfid then f i else i)

end Entry

/-- `ia_size` of a brick's answer.  It is compared for regular files only. -/
def Inode.rawSize (i : Inode) : ℕ := if i.info.type = .reg then i.data.size else 0

/-- What the grouping of lookup answers looks at: `ec_iatt_combine` does not compare times,
and the dictionary has the other extended attributes with `list-xattr` only. -/
def InodeInfo.compared (listXattr : Bool) (m : InodeInfo) : InodeInfo :=
  { m with atime := 0, mtime := 0, xattrs := if listXattr then m.xattrs else ∅ }

/-- The compared part of a brick's answer to a lookup; `none` is `ENOENT`. -/
def Entry.reply (listXattr : Bool) : Entry → Option (InodeInfo × ℕ)
  | .absent _ => none
  | .present i => some (i.info.compared listXattr, i.rawSize)

/-! ## Lookups -/

/-- The bricks that answer a lookup as the brick `b` does. -/
def answerGroup (bricks : ℕ → Entry) (listXattr : Bool) (asked : Finset ℕ) (b : ℕ) : Finset ℕ :=
  asked.filter fun c => (bricks c).reply listXattr = (bricks b).reply listXattr

/-- `fop->answer` of a lookup with `EC_MINIMUM_MIN`: the first brick of a group with
`fragments` bricks.  No two groups are that large. -/
def lookupAnswer (g : Geometry) (bricks : ℕ → Entry) (listXattr : Bool) (asked : Finset ℕ) :
    Option ℕ :=
  (List.range g.nodes).find? fun b =>
    b ∈ asked ∧ g.fragments ≤ (answerGroup bricks listXattr asked b).card

/-- A zeroed `struct iatt` and an empty dictionary. -/
def InodeInfo.zero : InodeInfo := ⟨0, .inval, 0, 0, 0, 0, 0, none, none, ∅⟩

/-- The answer of a group: `ec_iatt_time_merge` keeps the latest times. -/
def mergedInfo (bricks : ℕ → Entry) (group : Finset ℕ) (m : InodeInfo) : InodeInfo :=
  { m with
    atime := group.sup fun b => ((bricks b).inode?.map fun i => i.info.atime).getD 0
    mtime := group.sup fun b => ((bricks b).inode?.map fun i => i.info.mtime).getD 0 }

/-- `heal->lookup`: the groups of the last lookup.  `found` is the answer, zero for an
error; `others` are the bricks of other groups that have the entry, and `foreign` those
of them with another type or gfid. -/
structure HealLookup where
  answer : Finset ℕ
  others : Finset ℕ
  foreign : Finset ℕ
  absent : Finset ℕ
  found : InodeInfo

/-! ## The heal -/

/-- The states of `ec_manager_heal`.  `stopped` stands for a heal that died and for one
that gave up on an error; the callback then gets `-1` and empty masks. -/
inductive HealPhase
  | entryLookup | entryPrepare | preInodeLookup | xattributesRemove | xattributesSet
  | attributes | openFiles | unlock | data | postInodeLookup | setattr | reported | stopped
  deriving DecidableEq, Repr

/-- The heal holds the lock of the whole file. -/
def HealPhase.locked : HealPhase → Bool
  | .xattributesRemove | .xattributesSet | .attributes | .openFiles | .unlock | .setattr => true
  | _ => false

/-- `ec_heal_t`.  `iatt` also has `heal->version` and the size that child operations
take from the heal; `failures` are the bricks on which one of the operations that change a
brick has failed. -/
structure Heal where
  phase : HealPhase
  lookup : HealLookup
  iatt : InodeInfo
  rawSize : ℕ
  available : Finset ℕ
  good : Finset ℕ
  bad : Finset ℕ
  fixed : Finset ℕ
  opened : Finset ℕ
  offset : ℕ
  done : Bool
  failures : Finset ℕ

/-- `ec_heal_init`. -/
def Heal.init : Heal where
  phase := .entryLookup
  lookup := ⟨∅, ∅, ∅, ∅, InodeInfo.zero⟩
  iatt := InodeInfo.zero
  rawSize := 0
  available := ∅
  good := ∅
  bad := ∅
  fixed := ∅
  opened := ∅
  offset := 0
  done := false
  failures := ∅

/-- `heal->fop->pre_size`: `trusted.ec.size`, or the raw size without it. -/
def Heal.preSize (h : Heal) : ℕ := h.iatt.size.getD h.rawSize

/-- `heal->version`. -/
def Heal.version (h : Heal) : ℕ := h.iatt.version.getD 0

/-- `heal->size`: a page of the `iobuf` pool for each data brick. -/
def ecHealSize (g : Geometry) : ℕ := 128 * 1024 * g.fragments

theorem ecHealSize_pos (g : Geometry) : 0 < ecHealSize g := by
  have := g.two_le
  unfold ecHealSize
  omega

/-- How the bricks answer the child operations of one state.  Bricks in `late` answer with
an error although the operation took effect. -/
structure HealOutcome where
  silent : Finset ℕ
  linked : Finset ℕ
  removed : Finset ℕ
  failed : Finset ℕ
  late : Finset ℕ
  sourceFailed : Finset ℕ
  now : ℕ

/-- The operation takes effect on a brick. -/
def HealOutcome.takes (o : HealOutcome) (b : ℕ) : Prop := b ∉ o.failed ∨ b ∈ o.late

instance (o : HealOutcome) (b : ℕ) : Decidable (o.takes b) := by
  unfold HealOutcome.takes
  infer_instance

/-- A volume with its bricks that are up, and the file that is healed. -/
structure HealSetting where
  g : Geometry
  up : Finset ℕ
  up_lt : ∀ b ∈ up, b < g.nodes
  gfid : ℕ

/-- The bricks, the contents of the file and the heal. -/
structure HealState where
  bricks : ℕ → Entry
  content : File Byte
  heal : Heal

/-! ## The states of the manager -/

/-- An operation on the inodes of some bricks. -/
def windTo (bricks : ℕ → Entry) (targets : Finset ℕ) (o : HealOutcome) (gfid : ℕ)
    (f : ℕ → Inode → Inode) : ℕ → Entry := fun b =>
  if b ∈ targets ∧ o.takes b then (bricks b).modify gfid (f b) else bricks b

/-- `ec_heal_update`: the bricks that failed leave `heal->bad`. -/
def Heal.update (h : Heal) (targets : Finset ℕ) (o : HealOutcome) : Heal :=
  { h with bad := h.bad \ (targets ∩ o.failed), failures := h.failures ∪ (targets ∩ o.failed) }

/-- `ec_heal_lookup_resume` for the brick `b` of the answer group. -/
def Heal.lookupResume (h : Heal) (bricks : ℕ → Entry) (listXattr : Bool) (asked : Finset ℕ)
    (b : ℕ) : Heal :=
  let group := answerGroup bricks listXattr asked b
  let has := asked.filter fun c => (bricks c).reply listXattr ≠ none
  -- an answer with an error leaves `heal->iatt` alone
  let h := match bricks b with
    | .absent _ => h
    | .present i =>
        { h with iatt := mergedInfo bricks group i.info, rawSize := i.rawSize }
  let found := match bricks b with
    | .absent _ => InodeInfo.zero
    | .present _ => h.iatt
  let differs := fun c => ∃ i ∈ (bricks c).inode?, i.info.type ≠ h.iatt.type ∨
    i.info.gfid ≠ h.iatt.gfid
  { h with
    lookup :=
      { answer := group
        others := has \ group
        foreign := (has \ group).filter differs
        absent := (asked \ has) \ group
        found := found }
    good := group
    bad := asked \ group }

/-- A lookup of the heal on some bricks.  Without a large group it fails. -/
def healLookup (v : HealSetting) (s : HealState) (listXattr : Bool) (asked : Finset ℕ) :
    Option Heal :=
  (lookupAnswer v.g s.bricks listXattr asked).map fun b =>
    s.heal.lookupResume s.bricks listXattr asked b

/-- The value of `trusted.ec.config`, as `ec_dict_set_config` packs it. -/
def ecConfig (g : Geometry) : List Byte :=
  [0, 0, 8, BitVec.ofNat 8 g.nodes, BitVec.ofNat 8 (g.nodes - g.fragments), 0, 2, 0]

/-- The inode that `ec_heal_create` makes. -/
def createdInode (g : Geometry) (iatt : InodeInfo) (now : ℕ) : Inode where
  info :=
    { gfid := iatt.gfid
      type := iatt.type
      prot := iatt.prot
      uid := 0
      gid := 0
      atime := now
      mtime := now
      version := none
      size := none
      xattrs := if iatt.type = .reg then {("trusted.ec.config", ecConfig g)} else ∅ }
  data := File.empty

/-- `ec_link` finds the inode and makes the entry. -/
def linkTakes (h : Heal) (o : HealOutcome) (e : Entry) (b : ℕ) : Prop :=
  b ∈ h.lookup.absent ∧ b ∈ o.linked ∧ h.iatt.type = .reg ∧
    ∃ i ∈ e.inode?, i.info.gfid = h.iatt.gfid

instance (h : Heal) (o : HealOutcome) (e : Entry) (b : ℕ) : Decidable (linkTakes h o e b) := by
  unfold linkTakes
  infer_instance

/-- The bricks on which `ec_heal_prepare` creates an inode: the entry is missing and could
not be linked, or it led to something else and was removed. -/
def createTargets (s : HealState) (o : HealOutcome) : Finset ℕ :=
  (s.heal.lookup.absent.filter fun b => ¬ linkTakes s.heal o (s.bricks b) b) ∪
    (s.heal.lookup.foreign ∩ o.removed)

/-- A brick after `ec_heal_prepare_others`. -/
def preparedEntry (v : HealSetting) (s : HealState) (o : HealOutcome) (b : ℕ) : Entry :=
  if linkTakes s.heal o (s.bricks b) b then
    match (s.bricks b).inode? with
    | some i => .present i
    | none => s.bricks b
  else if b ∈ createTargets s o ∧ o.takes b then
    .present (createdInode v.g s.heal.iatt o.now)
  else if b ∈ s.heal.lookup.foreign ∩ o.removed then
    .absent none
  else
    s.bricks b

/-- `ec_heal_prepare`.  When the answer is `ENOENT` the entry is removed from the other
bricks, `ec_heal_remove_others`.  What it does to `heal->bad` is lost: the next lookup
assigns it. -/
def healPrepare (v : HealSetting) (s : HealState) (o : HealOutcome) : HealState :=
  let h := { s.heal with available := s.heal.good, phase := .preInodeLookup }
  if s.heal.lookup.found.type = .inval then
    { s with
      bricks := fun b =>
        if b ∈ s.heal.lookup.others ∩ o.removed then .absent none else s.bricks b
      heal := h }
  else
    { s with
      bricks := preparedEntry v s o
      heal :=
        { h with
          opened := h.opened ∪
            (if s.heal.iatt.type = .reg then createTargets s o \ o.failed else ∅) } }

/-- `ec_removexattr` with the keys that the answer does not have.  The version and the size
were deleted from the dictionary of the answer. -/
def removeXattrs (found : InodeInfo) (i : Inode) : Inode :=
  { i with
    info :=
      { i.info with
        version := none
        size := if found.type = .reg ∨ found.size = none then none else i.info.size
        xattrs := i.info.xattrs.filter fun p => p.1 ∈ found.xattrs.image Prod.fst } }

/-- `ec_setxattr` with the dictionary of the answer, the version and the size. -/
def setXattrs (found : InodeInfo) (iaSize : ℕ) (i : Inode) : Inode :=
  { i with
    info :=
      { i.info with
        version := if found.type = .reg ∨ found.type = .dir then some (found.version.getD 0)
          else i.info.version
        size := if found.type = .reg then some iaSize else found.size.or i.info.size
        xattrs := (i.info.xattrs.filter fun p => p.1 ∉ found.xattrs.image Prod.fst) ∪
          found.xattrs } }

/-- `ec_setattr` with mode, owner and times. -/
def setAttrs (iatt : InodeInfo) (i : Inode) : Inode :=
  { i with
    info :=
      { i.info with
        prot := iatt.prot
        uid := iatt.uid
        gid := iatt.gid
        atime := iatt.atime
        mtime := iatt.mtime } }

/-- `ec_heal_removexattr_others`. -/
def healRemovexattr (s : HealState) (o : HealOutcome) : HealState :=
  if s.heal.good = ∅ ∨ s.heal.bad = ∅ then
    { s with heal := { s.heal with phase := .xattributesSet } }
  else
    { s with
      bricks := windTo s.bricks s.heal.lookup.others o s.heal.iatt.gfid fun _ =>
        removeXattrs s.heal.lookup.found
      heal := { s.heal.update s.heal.lookup.others o with phase := .xattributesSet } }

/-- `ec_heal_setxattr_others`. -/
def healSetxattr (s : HealState) (o : HealOutcome) : HealState :=
  if s.heal.good = ∅ ∨ s.heal.bad = ∅ then
    { s with heal := { s.heal with phase := .attributes } }
  else
    { s with
      bricks := windTo s.bricks s.heal.bad o s.heal.iatt.gfid fun _ =>
        setXattrs s.heal.lookup.found s.heal.preSize
      heal := { s.heal.update s.heal.bad o with phase := .attributes } }

/-- `ec_heal_attr`. -/
def healAttr (s : HealState) (o : HealOutcome) : HealState :=
  if s.heal.good = ∅ ∨ s.heal.bad = ∅ then
    { s with heal := { s.heal with phase := .openFiles } }
  else
    { s with
      bricks := windTo s.bricks s.heal.bad o s.heal.iatt.gfid fun _ => setAttrs s.heal.iatt
      heal := { s.heal.update s.heal.bad o with phase := .openFiles } }

/-- `cbk->size` of the group of a brick. -/
def Heal.cbkSize (h : Heal) (b : ℕ) : ℕ := if b ∈ h.lookup.answer then h.rawSize else 0

/-- `cbk->version` of the group of a brick. -/
def Heal.cbkVersion (h : Heal) (b : ℕ) : ℕ := if b ∈ h.lookup.answer then h.version else 0

/-- The bricks that `ec_heal_needs_data_rebuild` puts into `heal->bad`. -/
def Heal.rebuildMask (h : Heal) : Finset ℕ :=
  (h.lookup.answer ∪ h.lookup.others).filter fun b =>
    h.cbkSize b ≠ h.rawSize ∨ h.cbkVersion b ≠ h.version

/-- `ec_heal_needs_data_rebuild`: what it returns, and `heal->bad`. -/
def Heal.needsDataRebuild (h : Heal) : Bool × Heal :=
  if h.good = ∅ ∨ h.iatt.type ≠ .reg then (false, h)
  else (h.rebuildMask ≠ ∅, { h with bad := h.rebuildMask })

/-- The bricks that `ec_heal_open_others` opens with `O_TRUNC`. -/
def Heal.openTargets (h : Heal) : Finset ℕ := (h.lookup.others \ h.lookup.foreign) \ h.opened

/-- `O_TRUNC`. -/
def truncateInode (now : ℕ) (i : Inode) : Inode :=
  ⟨{ i.info with mtime := now }, File.empty⟩

/-- `ec_heal_open`. -/
def healOpen (s : HealState) (o : HealOutcome) : HealState :=
  let (needed, h) := s.heal.needsDataRebuild
  if needed then
    let targets := h.openTargets
    let others := { h with bad := h.bad \ h.lookup.foreign }.update targets o
    { s with
      bricks := windTo s.bricks targets o h.iatt.gfid fun _ => truncateInode o.now
      heal :=
        { others with
          opened := h.opened ∪ (targets \ o.failed)
          -- the sources are opened when there is anything to write to
          good := if h.opened ∪ targets = ∅ then h.good else h.good \ o.sourceFailed
          phase := .unlock } }
  else
    { s with heal := { h with phase := .unlock } }

/-- The end of the locked part: `ec_heal_needs_data_rebuild` is called once more, and its
mask has the bricks again that failed in the states before. -/
def healUnlock (s : HealState) : HealState :=
  let (needed, h) := s.heal.needsDataRebuild
  { s with heal := { h with phase := if needed then .data else .reported } }

/-- The bytes that `ec_readv` returns for a window, `ec_readv_rebuild`: `avail` are the
bytes of all stripes.  The subtraction wraps around when the window starts after the
size that the heal knows. -/
def readvSize (g : Geometry) (preSize avail offset : ℕ) : ℕ :=
  let size := min (ecHealSize g) (avail - offset)
  if size = 0 then 0
  else min size (if preSize < offset then ecHealSize g else min (offset + size) preSize - offset)

/-- The bytes of all stripes of a file. -/
def paddedSize (g : Geometry) (f : File Byte) : ℕ :=
  (ecCode g).stripe * (ecCode g).stripes f.size

/-- One write of `ec_heal_readv_cbk` on a brick: the stripes of the bytes read. -/
def copyWindow (g : Geometry) (content : File Byte) (offset n now b : ℕ) (i : Inode) : Inode where
  info := { i.info with mtime := now }
  data := (ecCode g).store b i.data ((ecCode g).firstStripe offset)
    ((ecCode g).stripes (offset + n)) (content.truncate (offset + n))

/-- `ec_heal_data` under the lock of its window. -/
def healData (v : HealSetting) (s : HealState) (o : HealOutcome) : HealState :=
  let h := { s.heal with offset := s.heal.offset + ecHealSize v.g }
  let n := readvSize v.g s.heal.preSize (paddedSize v.g s.content) s.heal.offset
  if s.heal.done then
    { s with heal := { s.heal with phase := .postInodeLookup } }
  else if h.good = ∅ ∨ h.bad = ∅ ∨ h.iatt.type ≠ .reg then
    { s with heal := h }
  else if 0 < n then
    { s with
      bricks := windTo s.bricks h.bad o h.iatt.gfid
        (copyWindow v.g s.content s.heal.offset n o.now)
      heal := { h.update h.bad o with good := h.good \ o.sourceFailed } }
  else
    { s with heal := { h with good := h.good \ o.sourceFailed, done := true } }

/-- `EC_STATE_HEAL_SETATTR`. -/
def healSetattr (s : HealState) (o : HealOutcome) : HealState :=
  { s with
    bricks := windTo s.bricks s.heal.fixed o s.heal.iatt.gfid fun _ => setAttrs s.heal.iatt
    heal := { s.heal.update s.heal.fixed o with phase := .reported } }

/-- `ec_manager_heal`: the current state with the answers to its child operations. -/
def ecManagerHeal (v : HealSetting) (s : HealState) (o : HealOutcome) : Option HealState :=
  match s.heal.phase with
  | .entryLookup =>
      (healLookup v s false (v.up \ o.silent)).map fun h =>
        { s with heal := { h with phase := .entryPrepare } }
  | .entryPrepare => some (healPrepare v s o)
  | .preInodeLookup =>
      (healLookup v s true (v.up \ o.silent)).map fun h =>
        { s with heal := { h with phase := .xattributesRemove } }
  | .xattributesRemove => some (healRemovexattr s o)
  | .xattributesSet => some (healSetxattr s o)
  | .attributes => some (healAttr s o)
  | .openFiles => some (healOpen s o)
  | .unlock => some (healUnlock s)
  | .data => some (healData v s o)
  | .postInodeLookup =>
      (healLookup v s true (s.heal.good \ o.silent)).map fun h =>
        { s with heal := { h with fixed := s.heal.bad, phase := .setattr } }
  | .setattr => some (healSetattr s o)
  | .reported | .stopped => none

/-! ## Clients -/

/-- A client write on a brick: the data, and the `xattrop` of version and size. -/
def clientWrite (g : Geometry) (content : File Byte) (offset : ℕ) (data : List Byte)
    (now b : ℕ) (i : Inode) : Inode where
  info :=
    { i.info with
      mtime := now
      version := some (i.info.version.getD 0 + 1)
      -- the size is not in the dictionary when it does not change
      size := if (content.write offset data).size = content.size then i.info.size
        else some (i.info.size.getD 0 + ((content.write offset data).size - content.size)) }
  data := (ecCode g).store b i.data ((ecCode g).firstStripe offset)
    ((ecCode g).endStripe offset data) (content.write offset data)

/-- A client writes; it needs the lock of the whole file. -/
def healWrite (v : HealSetting) (s : HealState) (offset : ℕ) (data : List Byte) (now : ℕ) :
    Option HealState :=
  if data ≠ [] ∧ s.heal.phase.locked = false then
    some
      { s with
        bricks := fun b =>
          if b ∈ v.up then
            (s.bricks b).modify v.gfid (clientWrite v.g s.content offset data now b)
          else s.bricks b
        content := s.content.write offset data }
  else none

/-! ## The machine -/

/-- The heal takes its next state, ends early, or a client writes. -/
inductive HealAction
  | heal (o : HealOutcome)
  | stop
  | write (offset : ℕ) (data : List Byte) (now : ℕ)

/-- One step of the heal or of a client. -/
def healStep (v : HealSetting) (s : HealState) : HealAction → Option HealState
  | .heal o => ecManagerHeal v s o
  | .stop =>
      if s.heal.phase = .reported then none
      else some { s with heal := { s.heal with phase := .stopped } }
  | .write offset data now => healWrite v s offset data now

/-- A heal from its starting states. -/
def healMachine (v : HealSetting) (start : HealState → Prop) : Machine HealState HealAction where
  start := start
  step := healStep v

/-- A heal that has not begun. -/
def HealState.Fresh (s : HealState) : Prop := s.heal = Heal.init

/-- Every brick answers, and no operation fails. -/
def HealOutcome.success (now : ℕ) : HealOutcome := ⟨∅, ∅, ∅, ∅, ∅, ∅, now⟩

/-! ## A small volume -/

/-- Five bricks, three of them for data. -/
def healVolume : HealSetting where
  g := ⟨5, 3, by decide, by decide, by decide⟩
  up := {0, 1, 2, 3, 4}
  up_lt := by decide
  gfid := 7

/-- A file of one zero byte. -/
def oneByte : File Byte := File.empty.write 0 [0]

/-- The attributes of `oneByte` on the bricks that have seen its write. -/
def oneByteInfo : InodeInfo := ⟨7, .reg, 0o644#12, 0, 0, 10, 20, some 1, some 1, ∅⟩

/-- A volume with `oneByte` on the bricks `0`, `1` and `2`, and the given entries on the other
two. -/
def oneByteState (stale : ℕ → Entry) : HealState where
  bricks b := if b < 3 then .present ⟨oneByteInfo, (ecCode healVolume.g).fragment b oneByte⟩
    else stale b
  content := oneByte
  heal := Heal.init

end GlusterFS.Ec
