import GlusterFS.Ec.HealLoop

/-!
# The locks of a heal

`ec_manager_heal` changes the bricks under three kinds of locks: the **entrylk** of the parent
directory, the **inodelk** of the whole file, and the inodelk of one window after the other.  When a
child operation fails, `__ec_manager` enters the next state with the other sign, and the negative
cases of the `switch` fall into the code that unlocks what is held at that point.

Here the manager is modelled with both signs of all its states.  What the children answer, whether a
state finds anything to change, and what the inode table resolves at that moment are arguments of the
step.  A `log` of grants, releases and changes records what the run has done.  The states of the data
loop are those of `DataLoop`: each of its steps is one of the manager (`ecManagerHeal_of_dataStep`).

**Every change is covered** by the locks that are held, those of entries and of metadata by the lock
of the very directory that is the parent of `heal->loc` when the change is issued, and at dispatch
**every granted lock was released once** (`heal_locks`), in all runs that find the parent directory
again.  `ec_heal_entrylk` does not keep the directory that it has locked: it calls `ec_loc_parent` a
second time for the unlock.  If `heal->loc` has a path but no parent inode, and the directory was
renamed in the meantime, the lock stays (`heal_keeps_entrylk`).
-/

namespace GlusterFS.Ec.HealLocks

/-! ## The parent of a location -/

/-- A path with its names, absolute or not. -/
structure LocPath where
  absolute : Bool
  names : List ℕ
  deriving DecidableEq

/-- A `loc_t`.  An inode is named by its gfid; `0` is the null gfid and `1` that of the root. -/
structure HealLoc where
  inode : ℕ
  gfid : ℕ
  path : Option LocPath
  parent : Option ℕ
  pargfid : ℕ
  deriving DecidableEq

/-- What `inode_resolve` and `inode_find` return at some moment. -/
structure InodeTable where
  resolve : List ℕ → Option ℕ
  find : ℕ → Bool

/-- The test for the root at the head of `ec_loc_parent`. -/
def HealLoc.isRoot (loc : HealLoc) : Bool :=
  loc.inode = 1 ∨ loc.gfid = 1 ∨ loc.path = some ⟨true, []⟩

/-- The inode of the parent by the path, then by the gfid. -/
def resolveParent (table : InodeTable) (path : Option LocPath) (gfid : ℕ) : Option ℕ :=
  let byGfid := if gfid = 0 then none else if gfid = 1 then some 1
    else if table.find gfid then some gfid else none
  match path with
  | some path =>
      if path.absolute ∧ path.names.dropLast = [] then some 1
      else (table.resolve path.names.dropLast).or byGfid
  | none => byGfid

/-- `ec_loc_parent`, for the inode that it finds.  `none` stands for its errors and for a parent
without an inode, which `client3_3_entrylk` refuses. -/
def ecLocParent (table : InodeTable) (loc : HealLoc) : Option ℕ :=
  if loc.isRoot then if table.find 1 then some 1 else none
  -- `dirname` of the path has no slash
  else if loc.path.any fun path => !path.absolute && decide (path.names.length ≤ 2) then none
  else loc.parent.or (resolveParent table loc.path loc.pargfid)

/-- `ec_loc_gfid_check`: the new `dst`, and whether the two agree. -/
def ecLocGfidCheck (dst src : ℕ) : ℕ × Bool :=
  if src = 0 then (dst, true) else if dst = 0 then (src, true) else (dst, dst = src)

/-- `ec_loc_prepare` with the inode and the gfid of an answer. -/
def ecLocPrepare (loc : HealLoc) (inode : Option ℕ) (gfid : ℕ) : HealLoc × Bool :=
  let first : HealLoc × Bool :=
    match inode with
    | some inode =>
        if loc.inode ≠ inode then ({ loc with inode := inode, gfid := inode }, true)
        else ({ loc with gfid := (ecLocGfidCheck loc.gfid loc.inode).1 },
          (ecLocGfidCheck loc.gfid loc.inode).2)
    | none => ({ loc with gfid := (ecLocGfidCheck loc.gfid loc.inode).1 },
        (ecLocGfidCheck loc.gfid loc.inode).2)
  if first.2 = false then first
  else
    let second := ecLocGfidCheck first.1.gfid gfid
    let loc := { first.1 with gfid := second.1 }
    if second.2 = false then (loc, false)
    else
      match loc.parent with
      | some parent =>
          ({ loc with pargfid := (ecLocGfidCheck loc.pargfid parent).1 },
            (ecLocGfidCheck loc.pargfid parent).2)
      | none => (loc, true)

/-! ## The manager -/

/-- What a lock covers. -/
inductive Covers where
  /-- All entries of a directory. -/
  | entries (parent : ℕ)
  /-- The range of an inode; a length of `0` goes to the end. -/
  | range (offset size : ℕ)
  deriving DecidableEq

/-- A lock with the `lk_owner` of the frame that asked for it. -/
structure HealLock where
  covers : Covers
  owner : ℕ
  deriving DecidableEq

/-- What is changed on the bricks, with `heal->loc` at that moment. -/
inductive HealChange where
  /-- Entries are created or removed. -/
  | entry (loc : HealLoc)
  /-- Attributes and extended attributes are set, or the file is truncated. -/
  | inode (loc : HealLoc)
  /-- A window is written. -/
  | window (offset : ℕ)
  /-- The attributes are set once more, behind the data. -/
  | setattr
  deriving DecidableEq

inductive HealEvent where
  | grant (lock : HealLock)
  | release (lock : HealLock)
  | change (what : HealChange)
  deriving DecidableEq

/-- The states of the manager, of either sign. -/
inductive HealPc where
  | init
  | entryLookup
  | entryPrepare
  | preInodelkLock
  | preInodeLookup
  | xattributesRemove
  | xattributesSet
  | attributes
  | openFd
  | reopenFd
  | unlock
  | unlockEntry
  | dataLock
  | dataCopy
  | dataUnlock
  | postInodelkLock
  | postInodeLookup
  | setattr
  | postInodelkUnlock
  | dispatch
  | report
  deriving DecidableEq

/-- The heal with the `lk_owner` of its frame.  `error` gives the sign with which the next state is
entered. -/
structure HealRun where
  pc : HealPc
  error : Bool
  owner : ℕ
  loc : HealLoc
  partialHeal : Bool
  done : Bool
  offset : ℕ
  log : List HealEvent
  deriving DecidableEq

/-- What a state finds. -/
structure HealAnswer where
  /-- The inode table at that moment. -/
  table : InodeTable
  /-- `ec_heal_init` succeeds. -/
  initOk : Bool
  /-- Some child fails and leaves its error in the heal. -/
  failed : Bool
  /-- The agreed answer of a lookup: its inode and gfid, or `none` if it is an error such as
  `ENOENT`. -/
  found : Option (Option ℕ × ℕ)
  /-- It is a directory. -/
  isDir : Bool
  /-- There is something to change, or a window has bytes. -/
  issued : Bool
  /-- A read returns nothing. -/
  ended : Bool
  /-- Some brick has another size or version. -/
  rebuild : Bool

section Manager

variable (size : ℕ)

/-- Record what was done. -/
def HealRun.note (e : HealEvent) (h : HealRun) : HealRun := { h with log := e :: h.log }

/-- Go on to a state, with the error so far or a new one. -/
def HealRun.enter (pc : HealPc) (failed : Bool) (h : HealRun) : HealRun :=
  { h with pc := pc, error := h.error || failed }

/-- Issue the changes of a state, if it has any. -/
def HealRun.issue (what : HealChange) (issued : Bool) (h : HealRun) : HealRun :=
  if issued then h.note (.change what) else h

/-- `ec_heal_entrylk` with `ENTRYLK_LOCK`. -/
def entrylkLock (a : HealAnswer) (h : HealRun) : HealRun :=
  match ecLocParent a.table h.loc with
  | some parent =>
      if a.failed then h.enter .entryLookup true
      else (h.note (.grant ⟨.entries parent, h.owner⟩)).enter .entryLookup false
  | none => h.enter .entryLookup true

/-- `ec_heal_entrylk` with `ENTRYLK_UNLOCK`. -/
def entrylkUnlock (a : HealAnswer) (pc : HealPc) (h : HealRun) : HealRun :=
  match ecLocParent a.table h.loc with
  | some parent => (h.note (.release ⟨.entries parent, h.owner⟩)).enter pc a.failed
  | none => h.enter pc true

/-- `ec_heal_inodelk` with `F_WRLCK`. -/
def inodelkLock (offset size : ℕ) (failed : Bool) (pc : HealPc) (h : HealRun) : HealRun :=
  if failed then h.enter pc true
  else (h.note (.grant ⟨.range offset size, h.owner⟩)).enter pc false

/-- `ec_heal_inodelk` with `F_UNLCK`. -/
def inodelkUnlock (offset size : ℕ) (h : HealRun) : HealRun :=
  h.note (.release ⟨.range offset size, h.owner⟩)

/-- `ec_heal_lookup_resume`. -/
def healLookup (a : HealAnswer) (pc : HealPc) (h : HealRun) : HealRun :=
  match a.found with
  | some (inode, gfid) =>
      { h with loc := (ecLocPrepare h.loc inode gfid).1 }.enter pc
        (a.failed || !(ecLocPrepare h.loc inode gfid).2)
  | none => h.enter pc a.failed

/-- The state after the entry is unlocked, by `ec_heal_needs_data_rebuild`. -/
def afterEntry (a : HealAnswer) (h : HealRun) : HealPc :=
  if h.error = false ∧ a.rebuild = true then .dataLock else .dispatch

/-- `ec_manager_heal`, with the sign that `__ec_manager` gives the state. -/
def ecManagerHeal (h : HealRun) (a : HealAnswer) : Option HealRun :=
  match h.pc, h.error with
  | .init, false =>
      if a.initOk then some (entrylkLock a h) else some (h.enter .report true)
  -- an unhandled state
  | .init, true => some (h.enter .report true)
  | .entryLookup, false => some (healLookup a .entryPrepare h)
  | .entryPrepare, false =>
      some ((h.issue (.entry h.loc) ((!h.partialHeal || a.isDir) && a.issued)).enter
        (if h.partialHeal then .unlockEntry else .preInodelkLock) a.failed)
  | .preInodelkLock, false =>
      if h.loc.gfid = 0 then some (entrylkUnlock a .dispatch h)
      else some (inodelkLock 0 0 a.failed .preInodeLookup h)
  | .preInodeLookup, false => some (healLookup a .xattributesRemove h)
  | .xattributesRemove, false =>
      some ((h.issue (.inode h.loc) a.issued).enter .xattributesSet a.failed)
  | .xattributesSet, false => some ((h.issue (.inode h.loc) a.issued).enter .attributes a.failed)
  | .attributes, false => some ((h.issue (.inode h.loc) a.issued).enter .openFd a.failed)
  | .openFd, false => some ((h.issue (.inode h.loc) a.issued).enter .reopenFd a.failed)
  | .reopenFd, false => some (h.enter .unlock a.failed)
  | .xattributesRemove, true | .xattributesSet, true | .attributes, true | .openFd, true
  | .reopenFd, true | .unlock, _ =>
      some (entrylkUnlock a (afterEntry a h) (inodelkUnlock 0 0 h))
  | .entryPrepare, true | .preInodelkLock, true | .preInodeLookup, true | .unlockEntry, _ =>
      some (entrylkUnlock a (afterEntry a h) h)
  | .dataLock, false =>
      if h.done then some (h.enter .postInodelkLock false)
      else some (inodelkLock h.offset size a.failed .dataCopy h)
  | .dataCopy, false =>
      some ({ h.issue (.window h.offset) a.issued with done := h.done || a.ended }.enter
        .dataUnlock a.failed)
  | .dataCopy, true | .dataUnlock, _ =>
      some ({ inodelkUnlock h.offset size h with offset := h.offset + size }.enter .dataLock
        a.failed)
  | .postInodelkLock, false => some (inodelkLock 0 0 a.failed .postInodeLookup h)
  | .postInodeLookup, false => some (healLookup a .setattr h)
  | .setattr, false => some ((h.issue .setattr a.issued).enter .postInodelkUnlock a.failed)
  | .setattr, true | .postInodelkUnlock, _ =>
      some ((inodelkUnlock 0 0 h).enter .dispatch a.failed)
  | .postInodelkLock, true | .postInodeLookup, true | .entryLookup, true | .dataLock, true =>
      some (h.enter .dispatch false)
  | .dispatch, _ | .report, _ => none

/-- A heal from its first state.  The frame has the address of its own root as `lk_owner`. -/
def healManager : Machine HealRun HealAnswer where
  start h := h.pc = .init ∧ h.error = false ∧ h.done = false ∧ h.offset = 0 ∧ h.log = []
  step := ecManagerHeal size

/-! ## The data loop -/

/-- The states of the data loop. -/
def HealPc.ofData : DataPc → HealPc
  | .dataLock => .dataLock
  | .dataCopy => .dataCopy
  | .dataUnlock => .dataUnlock
  | .postInodelkLock => .postInodelkLock
  | .dispatch => .dispatch

/-- The manager where the loop is. -/
def HealRun.inLoop (h : HealRun) (l : DataLoop) : HealRun :=
  { h with pc := .ofData l.pc, error := l.error, done := l.done, offset := l.offset }

/-- What a state of the loop finds. -/
def loopAnswer (failed ended : Bool) : HealAnswer :=
  ⟨⟨fun _ => none, fun _ => false⟩, true, failed, none, false, true, ended, false⟩

/-- **A step of the data loop is a step of the manager.** -/
theorem ecManagerHeal_of_dataStep {g : Geometry} {fileSize : ℕ} {l l' : DataLoop} {a : DataAnswer}
    (h : HealRun) (hstep : dataStep g fileSize l a = some l') :
    ∃ answer log, ecManagerHeal (ecHealSize g) (h.inLoop l) answer =
      some ({ h with log := log }.inLoop l') := by
  obtain ⟨pc, error, good, bad, done, offset, rounds⟩ := l
  cases pc with
  | dataLock =>
      cases a with
      | copy read writeFailed => cases hstep
      | lock failed =>
          cases error <;> cases done <;> obtain rfl := Option.some.inj hstep
          · cases failed with
            | false => exact ⟨loopAnswer false false, _, rfl⟩
            | true => exact ⟨loopAnswer true false, _, rfl⟩
          all_goals exact ⟨loopAnswer failed false, _, rfl⟩
  | dataCopy =>
      cases a with
      | lock failed =>
          cases error with
          | false => cases hstep
          | true =>
              obtain rfl := Option.some.inj hstep
              exact ⟨loopAnswer failed false, _, rfl⟩
      | copy read writeFailed =>
          obtain ⟨⟨herror, -⟩, heq⟩ := Option.ite_none_right_eq_some.mp hstep
          obtain rfl := Option.some.inj heq
          obtain rfl : error = false := herror
          dsimp only [ecHealData]
          cases done <;> split_ifs
          all_goals first
            | exact ⟨loopAnswer false false, _, rfl⟩
            | exact ⟨loopAnswer false true, _, rfl⟩
            | exact ⟨loopAnswer true true, _, rfl⟩
  | dataUnlock =>
      cases a with
      | copy read writeFailed => cases hstep
      | lock failed =>
          obtain rfl := Option.some.inj hstep
          exact ⟨loopAnswer failed false, _, rfl⟩
  | postInodelkLock => cases hstep
  | dispatch => cases hstep

/-! ## What is to be shown -/

/-- Grants of a lock. -/
def grants (log : List HealEvent) (l : HealLock) : ℕ := log.count (.grant l)

/-- Releases of a lock. -/
def releases (log : List HealEvent) (l : HealLock) : ℕ := log.count (.release l)

def Held (log : List HealEvent) (l : HealLock) : Prop := releases log l < grants log l

/-- The entries of the directory are locked that is the parent of the location. -/
def ParentHeld (table : InodeTable) (log : List HealEvent) (owner : ℕ) (loc : HealLoc) : Prop :=
  ∃ parent, ecLocParent table loc = some parent ∧ Held log ⟨.entries parent, owner⟩

variable (table : InodeTable)

/-- The locks that a change needs are held. -/
def Covered (log : List HealEvent) (owner : ℕ) : HealChange → Prop
  | .entry loc => ParentHeld table log owner loc
  | .inode loc => Held log ⟨.range 0 0, owner⟩ ∧ ParentHeld table log owner loc
  | .window offset => Held log ⟨.range offset size, owner⟩
  | .setattr => Held log ⟨.range 0 0, owner⟩

/-- Every change was covered when it was issued. -/
def AllCovered (owner : ℕ) : List HealEvent → Prop
  | [] => True
  | .change what :: log => Covered size table log owner what ∧ AllCovered owner log
  | .grant _ :: log | .release _ :: log => AllCovered owner log

/-- Every lock that was granted has been released as often. -/
def AllReleased (log : List HealEvent) : Prop :=
  ∀ l, 0 < grants log l → releases log l = grants log l

end Manager

/-! ## Accounts -/

variable {size : ℕ} {table : InodeTable} {log : List HealEvent} {owner offset : ℕ}
  {held : List HealLock} {l : HealLock}

/-- A window in front of `offset`. -/
def Passed (size offset : ℕ) (l : HealLock) : Prop := ∃ o < offset, l.covers = .range o size

/-- A window from `offset` on. -/
def Ahead (size offset : ℕ) (l : HealLock) : Prop := ∃ o ≥ offset, l.covers = .range o size

/-- **The accounts of a run** that holds the locks `held` and works on the window at `offset`.  The
release of a window that was never granted is harmless, since the window does not come again. -/
structure Accounts (size : ℕ) (table : InodeTable) (owner offset : ℕ) (held : List HealLock)
    (log : List HealEvent) : Prop where
  covered : AllCovered size table owner log
  once : ∀ l ∈ held, grants log l = releases log l + 1
  rest : ∀ l ∉ held, grants log l = releases log l ∨ grants log l = 0 ∧ Passed size offset l
  ahead : ∀ l ∉ held, Ahead size offset l → grants log l = 0

theorem grants_grant (log : List HealEvent) (l k : HealLock) :
    grants (.grant l :: log) k = grants log k + if l = k then 1 else 0 := by
  simp [grants, List.count_cons]

theorem releases_release (log : List HealEvent) (l k : HealLock) :
    releases (.release l :: log) k = releases log k + if l = k then 1 else 0 := by
  simp [releases, List.count_cons]

@[simp] theorem releases_grant (log : List HealEvent) (l k : HealLock) :
    releases (.grant l :: log) k = releases log k := by
  simp [releases]

@[simp] theorem grants_release (log : List HealEvent) (l k : HealLock) :
    grants (.release l :: log) k = grants log k := by
  simp [grants]

@[simp] theorem grants_change (log : List HealEvent) (what : HealChange) (k : HealLock) :
    grants (.change what :: log) k = grants log k := by
  simp [grants]

@[simp] theorem releases_change (log : List HealEvent) (what : HealChange) (k : HealLock) :
    releases (.change what :: log) k = releases log k := by
  simp [releases]

theorem Accounts.nil (size : ℕ) (table : InodeTable) (owner offset : ℕ) :
    Accounts size table owner offset [] [] :=
  ⟨trivial, fun _ hl => absurd hl List.not_mem_nil, fun _ _ => Or.inl rfl, fun _ _ _ => rfl⟩

/-- A lock is granted that is not held, and is no window of the past. -/
theorem Accounts.grant (h : Accounts size table owner offset held log) (hnew : l ∉ held)
    (hpassed : ¬ Passed size offset l) :
    Accounts size table owner offset (l :: held) (.grant l :: log) := by
  refine ⟨h.covered, ?_, ?_, ?_⟩
  · intro k hk
    rw [grants_grant, releases_grant]
    rcases List.mem_cons.mp hk with rfl | hk
    · rw [if_pos rfl]
      rcases h.rest k hnew with heq | ⟨-, hdead⟩
      · rw [heq]
      · exact absurd hdead hpassed
    · rw [if_neg (fun heq : l = k => hnew (heq ▸ hk)), h.once k hk, Nat.add_zero]
  · intro k hk
    obtain ⟨hne, hk⟩ := not_or.mp (List.mem_cons.not.mp hk)
    rw [grants_grant, releases_grant, if_neg (Ne.symm hne), Nat.add_zero]
    exact h.rest k hk
  · intro k hk hahead
    obtain ⟨hne, hk⟩ := not_or.mp (List.mem_cons.not.mp hk)
    rw [grants_grant, if_neg (Ne.symm hne), Nat.add_zero]
    exact h.ahead k hk hahead

/-- A lock that is held is released; if it is a window, the next one begins behind it. -/
theorem Accounts.release {offset' : ℕ} (h : Accounts size table owner offset (l :: held) log)
    (honce : l ∉ held) (hoffset : offset ≤ offset') (hlast : ¬ Ahead size offset' l) :
    Accounts size table owner offset' held (.release l :: log) := by
  refine ⟨h.covered, ?_, ?_, ?_⟩
  · intro k hk
    rw [grants_release, releases_release, if_neg (fun heq : l = k => honce (heq ▸ hk)),
      Nat.add_zero]
    exact h.once k (List.mem_cons_of_mem _ hk)
  · intro k hk
    rw [grants_release, releases_release]
    by_cases heq : l = k
    · subst heq
      rw [if_pos rfl]
      exact Or.inl (h.once l List.mem_cons_self)
    · rw [if_neg heq, Nat.add_zero]
      refine (h.rest k (List.mem_cons.not.mpr (not_or.mpr ⟨Ne.symm heq, hk⟩))).imp_right ?_
      rintro ⟨hnone, o, ho, hcovers⟩
      exact ⟨hnone, o, ho.trans_le hoffset, hcovers⟩
  · rintro k hk ⟨o, ho, hcovers⟩
    rw [grants_release]
    have hne : k ≠ l := fun heq => hlast ⟨o, ho, heq ▸ hcovers⟩
    exact h.ahead k (List.mem_cons.not.mpr (not_or.mpr ⟨hne, hk⟩)) ⟨o, hoffset.trans ho, hcovers⟩

/-- The window at `offset` is released although it was never granted. -/
theorem Accounts.releaseUngranted (h : Accounts size table owner offset [] log) (hsize : 0 < size) :
    Accounts size table owner (offset + size) [] (.release ⟨.range offset size, owner⟩ :: log) := by
  have hmoved : offset < offset + size := Nat.lt_add_of_pos_right hsize
  refine ⟨h.covered, fun _ hl => absurd hl List.not_mem_nil, ?_, ?_⟩
  · intro k hk
    rw [grants_release, releases_release]
    by_cases heq : (⟨.range offset size, owner⟩ : HealLock) = k
    · subst heq
      exact Or.inr ⟨h.ahead _ hk ⟨offset, le_rfl, rfl⟩, offset, hmoved, rfl⟩
    · rw [if_neg heq, Nat.add_zero]
      refine (h.rest k hk).imp_right ?_
      rintro ⟨hnone, o, ho, hcovers⟩
      exact ⟨hnone, o, ho.trans hmoved, hcovers⟩
  · rintro k hk ⟨o, ho, hcovers⟩
    rw [grants_release]
    exact h.ahead k hk ⟨o, hmoved.le.trans ho, hcovers⟩

theorem Accounts.isHeld (h : Accounts size table owner offset held log) (hl : l ∈ held) : Held log l :=
  (Nat.lt_succ_self _).trans_eq (h.once l hl).symm

theorem Accounts.change {what : HealChange} (h : Accounts size table owner offset held log)
    (hcovered : Covered size table log owner what) :
    Accounts size table owner offset held (.change what :: log) := by
  refine ⟨⟨hcovered, h.covered⟩, ?_, ?_, ?_⟩
  · intro k hk
    rw [grants_change, releases_change]
    exact h.once k hk
  · intro k hk
    rw [grants_change, releases_change]
    exact h.rest k hk
  · intro k hk hahead
    rw [grants_change]
    exact h.ahead k hk hahead

theorem Accounts.allReleased (h : Accounts size table owner offset [] log) : AllReleased log := by
  intro l hgranted
  rcases h.rest l List.not_mem_nil with heq | ⟨hnone, -⟩
  · exact heq.symm
  · exact absurd hnone hgranted.ne'

/-! ## The parent stays -/

/-- The inode table resolves as it did at the lock, and a lookup does not turn the location into the
root, or the root into something else. -/
def Steady (table : InodeTable) (h : HealRun) (a : HealAnswer) : Prop :=
  a.table = table ∧ ∀ inode gfid, a.found = some (inode, gfid) →
    (ecLocPrepare h.loc inode gfid).1.isRoot = h.loc.isRoot

theorem ecLocPrepare_spec (loc : HealLoc) (inode : Option ℕ) (gfid : ℕ) :
    (ecLocPrepare loc inode gfid).1.path = loc.path ∧
      (ecLocPrepare loc inode gfid).1.parent = loc.parent ∧
      (loc.parent = none → (ecLocPrepare loc inode gfid).1.pargfid = loc.pargfid) := by
  obtain ⟨inode₀, gfid₀, path, parent, pargfid⟩ := loc
  cases inode with
  | none =>
      cases parent <;> simp only [ecLocPrepare] <;> split_ifs <;> simp
  | some inode =>
      cases parent <;> simp only [ecLocPrepare] <;> split_ifs <;> simp

/-- **The parent is found again.** -/
theorem ecLocParent_prepare (table : InodeTable) {loc : HealLoc} {inode : Option ℕ} {gfid : ℕ}
    (hroot : (ecLocPrepare loc inode gfid).1.isRoot = loc.isRoot) :
    ecLocParent table (ecLocPrepare loc inode gfid).1 = ecLocParent table loc := by
  obtain ⟨hpath, hparent, hpargfid⟩ := ecLocPrepare_spec loc inode gfid
  rw [ecLocParent, ecLocParent, hroot, hpath, hparent]
  cases hnone : loc.parent with
  | some parent => rfl
  | none => rw [hpargfid hnone]

/-! ## The invariant -/

/-- The lock of the parent's entries. -/
def entryLock (table : InodeTable) (h : HealRun) : HealLock :=
  ⟨.entries ((ecLocParent table h.loc).getD 0), h.owner⟩

/-- **What is held where**: the manager holds these locks when it enters a state. -/
def heldNow (size : ℕ) (table : InodeTable) (h : HealRun) : List HealLock :=
  match h.pc, h.error with
  | .entryLookup, false | .entryPrepare, _ | .preInodelkLock, _ | .preInodeLookup, true
  | .unlockEntry, _ => [entryLock table h]
  | .preInodeLookup, false | .xattributesRemove, _ | .xattributesSet, _ | .attributes, _
  | .openFd, _ | .reopenFd, _ | .unlock, _ => [⟨.range 0 0, h.owner⟩, entryLock table h]
  | .dataCopy, false | .dataUnlock, _ => [⟨.range h.offset size, h.owner⟩]
  | .postInodeLookup, false | .setattr, _ | .postInodelkUnlock, _ => [⟨.range 0 0, h.owner⟩]
  | _, _ => []

/-- The invariant.  While the entries are locked, their directory is the one that `ec_loc_parent`
finds. -/
structure HealOk (size : ℕ) (table : InodeTable) (h : HealRun) : Prop where
  accounts : Accounts size table h.owner h.offset (heldNow size table h) h.log
  found : entryLock table h ∈ heldNow size table h → (ecLocParent table h.loc).isSome

/-! ## One state -/

variable {h h' : HealRun} {a : HealAnswer} {pc : HealPc}

theorem not_passed_entries (size offset p owner : ℕ) :
    ¬ Passed size offset ⟨.entries p, owner⟩ := fun ⟨_, _, hcovers⟩ => Covers.noConfusion hcovers

theorem not_ahead_entries (size offset p owner : ℕ) :
    ¬ Ahead size offset ⟨.entries p, owner⟩ := fun ⟨_, _, hcovers⟩ => Covers.noConfusion hcovers

theorem not_passed_file (hsize : 0 < size) (offset owner : ℕ) :
    ¬ Passed size offset ⟨.range 0 0, owner⟩ :=
  fun ⟨_, _, hcovers⟩ => hsize.ne (Covers.range.inj hcovers).2

theorem not_ahead_file (hsize : 0 < size) (offset owner : ℕ) :
    ¬ Ahead size offset ⟨.range 0 0, owner⟩ :=
  fun ⟨_, _, hcovers⟩ => hsize.ne (Covers.range.inj hcovers).2

theorem file_ne_entryLock (table : InodeTable) (h : HealRun) (owner : ℕ) :
    (⟨.range 0 0, owner⟩ : HealLock) ∉ [entryLock table h] := by
  intro hmem
  have hcovers := congrArg HealLock.covers (List.mem_singleton.mp hmem)
  exact Covers.noConfusion hcovers

/-- A state that holds nothing is fine. -/
theorem HealOk.of_none (haccounts : Accounts size table h.owner h.offset [] h.log)
    (hnow : heldNow size table h = []) : HealOk size table h := by
  refine ⟨by rwa [hnow], fun hmem => ?_⟩
  rw [hnow] at hmem
  exact absurd hmem List.not_mem_nil

/-- A state that does not hold the entries. -/
theorem HealOk.of_range {o s : ℕ}
    (haccounts : Accounts size table h.owner h.offset [⟨.range o s, h.owner⟩] h.log)
    (hnow : heldNow size table h = [⟨.range o s, h.owner⟩]) : HealOk size table h := by
  refine ⟨by rwa [hnow], fun hmem => ?_⟩
  rw [hnow] at hmem
  have hcovers := congrArg HealLock.covers (List.mem_singleton.mp hmem)
  exact Covers.noConfusion hcovers

theorem issue_eq (what : HealChange) (issued : Bool) (h : HealRun) :
    h.issue what issued = { h with log := if issued then .change what :: h.log else h.log } := by
  cases issued <;> rfl

theorem Accounts.changeIf (h : Accounts size table owner offset held log) (what : HealChange)
    (hcovered : Covered size table log owner what) (issued : Bool) :
    Accounts size table owner offset held (if issued then .change what :: log else log) := by
  cases issued with
  | true => exact h.change hcovered
  | false => exact h

theorem Accounts.parentHeld (haccounts : Accounts size table h.owner offset held log)
    (hmem : entryLock table h ∈ held) (hfound : (ecLocParent table h.loc).isSome) :
    ParentHeld table log h.owner h.loc := by
  obtain ⟨parent, hparent⟩ := Option.isSome_iff_exists.mp hfound
  have hheld := haccounts.isHeld hmem
  rw [entryLock, hparent] at hheld
  exact ⟨parent, hparent, hheld⟩

/-- The first state locks the parent, or goes on with an error. -/
theorem HealOk.entrylkLock (haccounts : Accounts size table h.owner h.offset [] h.log)
    (herror : h.error = false) (htable : a.table = table) :
    HealOk size table (entrylkLock a h) := by
  obtain ⟨pc, error, owner, loc, partialHeal, done, offset, log⟩ := h
  cases herror
  rw [HealLocks.entrylkLock, htable]
  cases hparent : ecLocParent table loc with
  | none => exact .of_none haccounts rfl
  | some parent =>
      cases hfailed : a.failed with
      | true => exact .of_none haccounts rfl
      | false =>
          refine ⟨?_, fun _ => Option.isSome_iff_exists.mpr ⟨parent, hparent⟩⟩
          change Accounts size table owner offset
            [⟨.entries ((ecLocParent table loc).getD 0), owner⟩] _
          rw [hparent]
          exact haccounts.grant List.not_mem_nil (not_passed_entries _ _ _ _)

/-- The entries are unlocked, and nothing is held. -/
theorem HealOk.entrylkUnlock
    (haccounts : Accounts size table h.owner h.offset [entryLock table h] h.log)
    (hfound : (ecLocParent table h.loc).isSome) (htable : a.table = table)
    (hpc : pc = .dataLock ∨ pc = .dispatch) : HealOk size table (entrylkUnlock a pc h) := by
  obtain ⟨parent, hparent⟩ := Option.isSome_iff_exists.mp hfound
  rw [entryLock, hparent] at haccounts
  have hreleased := haccounts.release List.not_mem_nil le_rfl (not_ahead_entries _ _ _ _)
  simp only [HealLocks.entrylkUnlock, htable, hparent]
  rcases hpc with rfl | rfl <;> exact .of_none hreleased rfl

theorem afterEntry_eq (a : HealAnswer) (h : HealRun) :
    afterEntry a h = .dataLock ∨ afterEntry a h = .dispatch := by
  rw [afterEntry]
  split_ifs
  · exact Or.inl rfl
  · exact Or.inr rfl

/-- The file and then the entries are unlocked. -/
theorem HealOk.unlockBoth (hsize : 0 < size)
    (haccounts : Accounts size table h.owner h.offset [⟨.range 0 0, h.owner⟩, entryLock table h] h.log)
    (hfound : (ecLocParent table h.loc).isSome) (htable : a.table = table)
    (hpc : pc = .dataLock ∨ pc = .dispatch) :
    HealOk size table (HealLocks.entrylkUnlock a pc (inodelkUnlock 0 0 h)) :=
  HealOk.entrylkUnlock
    (haccounts.release (file_ne_entryLock _ _ _) le_rfl (not_ahead_file hsize _ _)) hfound htable hpc

/-- **A lookup** keeps the parent. -/
theorem healLookup_eq (pc : HealPc) (hsteady : Steady table h a) :
    ∃ loc failed, healLookup a pc h = { h with loc := loc }.enter pc failed ∧
      ecLocParent table loc = ecLocParent table h.loc := by
  rw [healLookup]
  cases hfound : a.found with
  | none => exact ⟨h.loc, a.failed, rfl, rfl⟩
  | some found =>
      obtain ⟨inode, gfid⟩ := found
      exact ⟨_, _, rfl, ecLocParent_prepare table (hsteady.2 inode gfid hfound)⟩

/-- A state that changes the inode under both locks. -/
theorem HealOk.changeInode (haccounts : Accounts size table h.owner h.offset
      [⟨.range 0 0, h.owner⟩, entryLock table h] h.log)
    (hfound : (ecLocParent table h.loc).isSome) (issued failed : Bool)
    (hnow : ∀ k : HealRun, k.pc = pc →
      heldNow size table k = [⟨.range 0 0, k.owner⟩, entryLock table k]) :
    HealOk size table ((h.issue (.inode h.loc) issued).enter pc failed) := by
  rw [issue_eq]
  refine ⟨?_, fun _ => hfound⟩
  rw [hnow _ rfl]
  exact haccounts.changeIf (.inode h.loc) ⟨haccounts.isHeld List.mem_cons_self,
    haccounts.parentHeld (List.mem_cons_of_mem _ List.mem_cons_self) hfound⟩ issued

/-- A lookup keeps the locks, that of the entries among them. -/
theorem HealOk.lookup (locks : HealLock → List HealLock) (hsteady : Steady table h a)
    (haccounts : Accounts size table h.owner h.offset (locks (entryLock table h)) h.log)
    (hfound : (ecLocParent table h.loc).isSome)
    (hnow : ∀ k : HealRun, k.pc = pc → k.owner = h.owner →
      heldNow size table k = locks (entryLock table k)) :
    HealOk size table (healLookup a pc h) := by
  obtain ⟨loc, failed, heq, hparent⟩ := healLookup_eq pc hsteady
  rw [heq]
  refine ⟨?_, fun _ => by rwa [← hparent] at hfound⟩
  rw [hnow (HealRun.enter pc failed { h with loc := loc }) rfl rfl]
  rw [entryLock, ← hparent] at haccounts
  exact haccounts

/-- The window is unlocked and the next one begins. -/
theorem HealOk.unlockWindow (hsize : 0 < size) (failed : Bool)
    (haccounts : Accounts size table h.owner h.offset [] h.log ∨
      Accounts size table h.owner h.offset [⟨.range h.offset size, h.owner⟩] h.log) :
    HealOk size table
      ({ inodelkUnlock h.offset size h with offset := h.offset + size }.enter .dataLock failed) := by
  refine .of_none ?_ rfl
  rcases haccounts with haccounts | haccounts
  · exact haccounts.releaseUngranted hsize
  · refine haccounts.release List.not_mem_nil (Nat.le_add_right _ _) ?_
    rintro ⟨o, ho, hcovers⟩
    have hsame := (Covers.range.inj hcovers).1
    change h.offset + size ≤ o at ho
    omega

/-- **One state of the manager.** -/
theorem HealOk.step (hsize : 0 < size) (hok : HealOk size table h) (hsteady : Steady table h a)
    (hstep : ecManagerHeal size h a = some h') : HealOk size table h' := by
  have haccounts := hok.accounts
  have hfound := hok.found
  obtain ⟨pc, error, owner, loc, partialHeal, done, offset, log⟩ := h
  have hafter := afterEntry_eq a ⟨pc, error, owner, loc, partialHeal, done, offset, log⟩
  cases pc with
  | init =>
      cases error with
      | false =>
          simp only [ecManagerHeal] at hstep
          split_ifs at hstep with hinitOk
          · obtain rfl := Option.some.inj hstep
            exact .entrylkLock haccounts rfl hsteady.1
          · obtain rfl := Option.some.inj hstep
            exact .of_none haccounts rfl
      | true =>
          obtain rfl := Option.some.inj hstep
          exact .of_none haccounts rfl
  | entryLookup =>
      cases error with
      | false =>
          obtain rfl := Option.some.inj hstep
          exact .lookup (fun l => [l]) hsteady haccounts (hfound List.mem_cons_self)
            (by rintro ⟨⟩ rfl _; rfl)
      | true =>
          obtain rfl := Option.some.inj hstep
          exact .of_none haccounts rfl
  | entryPrepare =>
      cases error with
      | false =>
          obtain rfl := Option.some.inj hstep
          rw [issue_eq]
          have hchanged := haccounts.changeIf (.entry loc)
            (haccounts.parentHeld List.mem_cons_self (hfound List.mem_cons_self))
            ((!partialHeal || a.isDir) && a.issued)
          cases partialHeal <;> exact ⟨hchanged, fun _ => hfound List.mem_cons_self⟩
      | true =>
          obtain rfl := Option.some.inj hstep
          exact .entrylkUnlock haccounts (hfound List.mem_cons_self) hsteady.1 hafter
  | preInodelkLock =>
      cases error with
      | false =>
          simp only [ecManagerHeal] at hstep
          split_ifs at hstep with hgfid
          · obtain rfl := Option.some.inj hstep
            exact .entrylkUnlock haccounts (hfound List.mem_cons_self) hsteady.1 (Or.inr rfl)
          · obtain rfl := Option.some.inj hstep
            cases hfailed : a.failed with
            | true => exact ⟨haccounts, fun _ => hfound List.mem_cons_self⟩
            | false =>
                exact ⟨haccounts.grant (file_ne_entryLock _ _ _) (not_passed_file hsize _ _),
                  fun _ => hfound List.mem_cons_self⟩
      | true =>
          obtain rfl := Option.some.inj hstep
          exact .entrylkUnlock haccounts (hfound List.mem_cons_self) hsteady.1 hafter
  | preInodeLookup =>
      cases error with
      | false =>
          obtain rfl := Option.some.inj hstep
          exact .lookup (fun l => [⟨.range 0 0, owner⟩, l]) hsteady haccounts
            (hfound (List.mem_cons_of_mem _ List.mem_cons_self)) (by rintro ⟨⟩ rfl rfl; rfl)
      | true =>
          obtain rfl := Option.some.inj hstep
          exact .entrylkUnlock haccounts (hfound List.mem_cons_self) hsteady.1 hafter
  | xattributesRemove | xattributesSet | attributes | openFd =>
      have hparent := hfound (List.mem_cons_of_mem _ List.mem_cons_self)
      cases error with
      | false =>
          obtain rfl := Option.some.inj hstep
          exact .changeInode haccounts hparent _ _ (by rintro ⟨⟩ rfl; rfl)
      | true =>
          obtain rfl := Option.some.inj hstep
          exact .unlockBoth hsize haccounts hparent hsteady.1 hafter
  | reopenFd =>
      have hparent := hfound (List.mem_cons_of_mem _ List.mem_cons_self)
      cases error with
      | false =>
          obtain rfl := Option.some.inj hstep
          exact ⟨haccounts, fun _ => hparent⟩
      | true =>
          obtain rfl := Option.some.inj hstep
          exact .unlockBoth hsize haccounts hparent hsteady.1 hafter
  | unlock =>
      obtain rfl := Option.some.inj hstep
      exact .unlockBoth hsize haccounts (hfound (List.mem_cons_of_mem _ List.mem_cons_self))
        hsteady.1 hafter
  | unlockEntry =>
      obtain rfl := Option.some.inj hstep
      exact .entrylkUnlock haccounts (hfound List.mem_cons_self) hsteady.1 hafter
  | dataLock =>
      cases error with
      | false =>
          simp only [ecManagerHeal] at hstep
          split_ifs at hstep with hdone
          · obtain rfl := Option.some.inj hstep
            exact .of_none haccounts rfl
          · obtain rfl := Option.some.inj hstep
            cases hfailed : a.failed with
            | true => exact .of_none haccounts rfl
            | false =>
                refine .of_range (haccounts.grant List.not_mem_nil ?_) rfl
                rintro ⟨o, ho, hcovers⟩
                exact ho.ne' (Covers.range.inj hcovers).1
      | true =>
          obtain rfl := Option.some.inj hstep
          exact .of_none haccounts rfl
  | dataCopy =>
      cases error with
      | false =>
          obtain rfl := Option.some.inj hstep
          rw [issue_eq]
          exact .of_range (haccounts.changeIf (.window offset)
            (haccounts.isHeld List.mem_cons_self) a.issued) rfl
      | true =>
          obtain rfl := Option.some.inj hstep
          exact .unlockWindow hsize a.failed (Or.inl haccounts)
  | dataUnlock =>
      obtain rfl := Option.some.inj hstep
      exact .unlockWindow hsize a.failed (Or.inr haccounts)
  | postInodelkLock =>
      cases error with
      | false =>
          obtain rfl := Option.some.inj hstep
          cases hfailed : a.failed with
          | true => exact .of_none haccounts rfl
          | false =>
              exact .of_range (haccounts.grant List.not_mem_nil (not_passed_file hsize _ _)) rfl
      | true =>
          obtain rfl := Option.some.inj hstep
          exact .of_none haccounts rfl
  | postInodeLookup =>
      cases error with
      | false =>
          obtain rfl := Option.some.inj hstep
          obtain ⟨loc', failed, heq, -⟩ := healLookup_eq .setattr hsteady
          rw [heq]
          exact .of_range haccounts rfl
      | true =>
          obtain rfl := Option.some.inj hstep
          exact .of_none haccounts rfl
  | setattr =>
      cases error with
      | false =>
          obtain rfl := Option.some.inj hstep
          rw [issue_eq]
          exact .of_range (haccounts.changeIf .setattr
            (haccounts.isHeld List.mem_cons_self) a.issued) rfl
      | true =>
          obtain rfl := Option.some.inj hstep
          exact .of_none (haccounts.release List.not_mem_nil le_rfl (not_ahead_file hsize _ _)) rfl
  | postInodelkUnlock =>
      obtain rfl := Option.some.inj hstep
      exact .of_none (haccounts.release List.not_mem_nil le_rfl (not_ahead_file hsize _ _)) rfl
  | dispatch => cases hstep
  | report => cases hstep

/-! ## Whole runs -/

/-- **The locks of a heal.**  In every run in which the parent is found again, every change was issued
under its locks: entries under the entrylk of the parent of `heal->loc`, metadata under it and the
inodelk of the whole file, a window under its own, the last attributes under the second inodelk of
the whole file.  At dispatch every lock that was granted has been released as often, for the same
directory or range and by the same owner. -/
theorem heal_locks (hsize : 0 < size)
    (hreach : (healManager size).ReachableWhen (Steady table) h) :
    AllCovered size table h.owner h.log ∧ (h.pc = .dispatch → AllReleased h.log) := by
  have hok : HealOk size table h := by
    refine Machine.ReachableWhen.invariant (HealOk size table) ?_ ?_ hreach
    · rintro ⟨pc, error, owner, loc, partialHeal, done, offset, log⟩ ⟨hpc, -, -, -, hlog⟩
      dsimp only at hpc hlog
      subst hpc hlog
      exact .of_none (.nil _ _ _ _) rfl
    · intro h a h' hh hsteady hstep
      exact hh.step hsize hsteady hstep
  refine ⟨hok.accounts.covered, fun hpc => ?_⟩
  have haccounts := hok.accounts
  rw [heldNow, hpc] at haccounts
  exact haccounts.allReleased

/-- The heal of `/a/f`, where only the path is known. -/
def freshHeal (partialHeal : Bool) : HealRun :=
  ⟨.init, false, 9, ⟨5, 5, some ⟨true, [10, 11]⟩, none, 0⟩, partialHeal, false, 0, []⟩

theorem freshHeal_start (partialHeal : Bool) :
    (healManager 4).start (freshHeal partialHeal) := ⟨rfl, rfl, rfl, rfl, rfl⟩

/-- The directory `/a` is inode `7`. -/
def tableBefore : InodeTable := ⟨fun names => if names = [10] then some 7 else none, fun _ => true⟩

/-- There is no directory `/a`. -/
def tableRenamed : InodeTable := ⟨fun _ => none, fun _ => true⟩

/-- An answer without failures. -/
def healAnswer (table : InodeTable) (ended : Bool) : HealAnswer :=
  ⟨table, true, false, none, false, true, ended, true⟩

theorem healAnswer_steady (h : HealRun) (ended : Bool) :
    Steady tableBefore h (healAnswer tableBefore ended) := by
  refine ⟨rfl, fun inode gfid hfound => ?_⟩
  cases hfound

/-- A whole heal of two windows. -/
theorem heal_locks_twoWindows :
    ∃ h, (healManager 4).ReachableWhen (Steady tableBefore) h ∧ h.pc = .dispatch ∧ h.offset = 8 ∧
      AllCovered 4 tableBefore h.owner h.log ∧ AllReleased h.log := by
  have hresult : ((healManager 4).exec (freshHeal false)
      (List.replicate 15 (healAnswer tableBefore false) ++
        List.replicate 7 (healAnswer tableBefore true))).map (fun h => (h.pc, h.offset)) =
      some (.dispatch, 8) := by
    decide +kernel
  obtain ⟨h, hrun, hvalues⟩ := Option.map_eq_some_iff.mp hresult
  obtain ⟨hpc, hoffset⟩ := Prod.mk.inj hvalues
  have hreach : (healManager 4).ReachableWhen (Steady tableBefore) h := by
    refine Machine.ReachableWhen.exec (.start (freshHeal_start false)) _ ?_ hrun
    intro a ha s
    rcases List.mem_append.mp ha with ha | ha
    · exact List.eq_of_mem_replicate ha ▸ healAnswer_steady s false
    · exact List.eq_of_mem_replicate ha ▸ healAnswer_steady s true
  obtain ⟨hcovered, hreleased⟩ := heal_locks (by decide) hreach
  exact ⟨h, hreach, hpc, hoffset, hcovered, hreleased hpc⟩

/-- **The lock of the directory stays** when the directory is renamed during the heal. -/
theorem heal_keeps_entrylk :
    ∃ h, (healManager 4).Reachable h ∧ h.pc = .dispatch ∧ ¬ AllReleased h.log := by
  have hresult : ((healManager 4).exec (freshHeal true)
      [healAnswer tableBefore false, healAnswer tableBefore false, healAnswer tableBefore false,
        { healAnswer tableRenamed false with rebuild := false }]).map (fun h => (h.pc,
          grants h.log ⟨.entries 7, 9⟩, releases h.log ⟨.entries 7, 9⟩)) =
      some (.dispatch, 1, 0) := by
    decide +kernel
  obtain ⟨h, hrun, hvalues⟩ := Option.map_eq_some_iff.mp hresult
  obtain ⟨hpc, hcounts⟩ := Prod.mk.inj hvalues
  obtain ⟨hgrants, hreleases⟩ := Prod.mk.inj hcounts
  refine ⟨h, Machine.Reachable.exec (.start (freshHeal_start true)) _ hrun, hpc, fun hall => ?_⟩
  have hsame := hall ⟨.entries 7, 9⟩ (by rw [hgrants]; exact Nat.one_pos)
  rw [hgrants, hreleases] at hsame
  exact Nat.zero_ne_one hsame

end GlusterFS.Ec.HealLocks
