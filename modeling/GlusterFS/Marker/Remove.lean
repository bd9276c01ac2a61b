import Mathlib

/-!
# The contribution of an unlinked name

A file has one contribution xattr for each **directory** in which it has a link, whatever the number
of its links there.  When a name is unlinked, `mq_reduce_parent_size` takes the contribution off the
size of the directory; at the end `_mq_inode_remove_done` decides whether the xattr is removed as
well.  It is to stay if the file has another link in the directory, and it can only be removed through
a link in another directory.

The module embeds `mq_reduce_parent_size_xattr`, `mq_inode_remove_done` and `_mq_inode_remove_done`
over any list of dentries.  The loop that looks for another link in the directory compares the
unlinked name **with itself**, so that it never finds one (`lastDentry_eq_true`).  What is
decided is therefore right if and only if the file has no other link in the directory, or none
elsewhere (`contribution_removed_iff`).
-/

namespace GlusterFS.Marker.Remove

/-- `dentry_t`: the directory and the name. -/
structure Dentry where
  parent : ℕ
  name : String
  deriving DecidableEq

/-- `inode_contribution_t`. -/
structure Contribution where
  gfid : ℕ
  contribution : ℤ
  deriving DecidableEq

/-- `quota_local_t` of a reduction.  The contribution node is that of the parent
(`mq_get_contribution_node`). -/
structure Local where
  parent : ℕ
  name : String
  inode : Option ℕ
  parentPath : String
  size : ℤ
  err : ℤ
  contri : Contribution
  contri_gfid : contri.gfid = parent

/-- The inode table, and what is on disk. -/
structure State where
  /-- `inode->dentry_list` -/
  dentryList : ℕ → List Dentry
  /-- `inode_grep` -/
  grep : ℕ → String → Option ℕ
  /-- `ctx->size` of a directory, if it has a context -/
  ctxSize : ℕ → Option ℤ
  /-- the contribution xattrs of an inode -/
  xattr : ℕ → ℕ → Option ℤ
  /-- the size xattr of a directory -/
  sizeXattr : ℕ → ℤ

/-- `strcmp`. -/
def strcmp (a b : String) : ℤ := if a = b then 0 else if a < b then -1 else 1

/-- The first loop over the dentries, for `last_dentry`. -/
def lastDentry (l : Local) : List Dentry → Bool
  | [] => true
  | tmp :: rest =>
      if l.parent = tmp.parent then
        if strcmp l.name l.name ≠ 0 then false else lastDentry l rest
      else lastDentry l rest

/-- The second loop, for `other_dentry`. -/
def otherDentry (l : Local) (dentries : List Dentry) : Option Dentry :=
  dentries.find? fun tmp => l.parent ≠ tmp.parent

/-- What `_mq_inode_remove_done` sends: a `removexattr` with its `loc` and key, and the transaction
for the parent. -/
structure Outcome where
  removexattr : Option (ℕ × Dentry × ℕ)
  startTxn : Bool
  deriving DecidableEq

/-- The inode of the unlinked name. -/
def Local.theInode (l : Local) (s : State) : Option ℕ :=
  match l.inode with
  | some inode => some inode
  | none => s.grep l.parent l.name

/-- `_mq_inode_remove_done`. -/
def mqInodeRemoveDone' (s : State) (l : Local) (opRet : ℤ) : Outcome :=
  if opRet = -1 ∨ l.err = -1 then ⟨none, false⟩
  else
    let request := (l.theInode s).bind fun inode =>
      let dentries := s.dentryList inode
      if lastDentry l dentries then
        (otherDentry l dentries).map fun other => (inode, other, l.contri.gfid)
      else none
    ⟨request, strcmp l.parentPath "/" ≠ 0⟩

/-- `mq_inode_remove_done`; the lock is released behind it. -/
def mqInodeRemoveDone (s : State) (l : Local) (opRet : ℤ) : State × Local :=
  let l := if opRet = -1 then { l with err := -1 } else l
  match s.ctxSize l.parent with
  | some size =>
      if l.contri.contribution = l.size then
        ({ s with ctxSize :=
            Function.update s.ctxSize l.parent (some (size - l.contri.contribution)) },
          { l with contri := { l.contri with contribution := 0 }, contri_gfid := l.contri_gfid })
      else (s, l)
  | none => (s, l)

/-- The child removes the xattr. -/
def Outcome.apply (o : Outcome) (s : State) : State :=
  match o.removexattr with
  | some (inode, _, gfid) =>
      { s with xattr := Function.update s.xattr inode (Function.update (s.xattr inode) gfid none) }
  | none => s

/-- The reduction with the lock held, from `mq_reduce_parent_size_xattr` on: the size xattr is
reduced, and the answers are `opRet` for the `xattrop` and `unlocked` for the release. -/
def mqReduceParentSizeXattr (s : State) (l : Local) (opRet unlocked : ℤ) : State :=
  let s := if opRet = -1 then s else
    { s with sizeXattr := Function.update s.sizeXattr l.parent (s.sizeXattr l.parent - l.size) }
  let (s, l) := mqInodeRemoveDone s l opRet
  (mqInodeRemoveDone' s l unlocked).apply s

/-! ## The decision -/

/-- The file has another link in the directory. -/
def LinkedBeside (l : Local) (dentries : List Dentry) : Prop :=
  ∃ d ∈ dentries, d.parent = l.parent ∧ d.name ≠ l.name

/-- The file has a link in another directory. -/
def LinkedElsewhere (l : Local) (dentries : List Dentry) : Prop :=
  ∃ d ∈ dentries, d.parent ≠ l.parent

/-- **The loop finds nothing.** -/
theorem lastDentry_eq_true (l : Local) (dentries : List Dentry) : lastDentry l dentries = true := by
  induction dentries with
  | nil => rfl
  | cons tmp rest ih =>
      rw [lastDentry, ih]
      simp [strcmp]

theorem otherDentry_isSome_iff (l : Local) (dentries : List Dentry) :
    (otherDentry l dentries).isSome = true ↔ LinkedElsewhere l dentries := by
  rw [otherDentry, List.find?_isSome, LinkedElsewhere]
  constructor
  · rintro ⟨d, hd, hne⟩
    exact ⟨d, hd, Ne.symm (of_decide_eq_true hne)⟩
  · rintro ⟨d, hd, hne⟩
    exact ⟨d, hd, decide_eq_true (Ne.symm hne)⟩

variable {s : State} {l : Local} {inode : ℕ}

/-- The request that is sent, if nothing has failed. -/
theorem mqInodeRemoveDone'_eq {opRet : ℤ} (hret : opRet ≠ -1) (herr : l.err ≠ -1)
    (hinode : l.theInode s = some inode) :
    (mqInodeRemoveDone' s l opRet).removexattr
      = (otherDentry l (s.dentryList inode)).map fun other => (inode, other, l.parent) := by
  rw [mqInodeRemoveDone', if_neg (not_or_intro hret herr)]
  simp only [hinode, Option.bind_some, lastDentry_eq_true, if_true, l.contri_gfid]

theorem mqInodeRemoveDone_eq {opRet : ℤ} (hret : opRet ≠ -1) (s : State) (l : Local) :
    (mqInodeRemoveDone s l opRet).1.dentryList = s.dentryList
      ∧ (mqInodeRemoveDone s l opRet).1.grep = s.grep
      ∧ (mqInodeRemoveDone s l opRet).1.xattr = s.xattr
      ∧ (mqInodeRemoveDone s l opRet).2.inode = l.inode
      ∧ (mqInodeRemoveDone s l opRet).2.parent = l.parent
      ∧ (mqInodeRemoveDone s l opRet).2.name = l.name
      ∧ (mqInodeRemoveDone s l opRet).2.err = l.err := by
  simp only [mqInodeRemoveDone, if_neg hret]
  cases s.ctxSize l.parent with
  | none => simp
  | some size => by_cases hsize : l.contri.contribution = l.size <;> simp [hsize]

/-- **What a reduction without errors removes**: the contribution to the directory, if and only if
the file has a link elsewhere; nothing else. -/
theorem xattr_reduced {opRet unlocked : ℤ} (hret : opRet ≠ -1) (hunlock : unlocked ≠ -1)
    (herr : l.err ≠ -1) (hinode : l.theInode s = some inode) (i gfid : ℕ) :
    (mqReduceParentSizeXattr s l opRet unlocked).xattr i gfid
      = if i = inode ∧ gfid = l.parent ∧ (otherDentry l (s.dentryList inode)).isSome = true then none
        else s.xattr i gfid := by
  simp only [mqReduceParentSizeXattr, if_neg hret]
  set s₁ : State :=
    { s with sizeXattr := Function.update s.sizeXattr l.parent (s.sizeXattr l.parent - l.size) }
  obtain ⟨hdentries, hgrep, hxattr, hi, hparent, hname, he⟩ := mqInodeRemoveDone_eq hret s₁ l
  set s₂ := (mqInodeRemoveDone s₁ l opRet).1
  set l₂ := (mqInodeRemoveDone s₁ l opRet).2
  have hinode₂ : l₂.theInode s₂ = some inode := by
    rw [Local.theInode, hi, hparent, hname, hgrep]
    exact hinode
  have hother : otherDentry l₂ (s₂.dentryList inode) = otherDentry l (s.dentryList inode) := by
    rw [otherDentry, otherDentry, hparent, hdentries]
  rw [Outcome.apply, mqInodeRemoveDone'_eq hunlock (he ▸ herr) hinode₂, hother, hparent]
  cases hdentry : otherDentry l (s.dentryList inode) with
  | none => simpa using congrFun (congrFun hxattr i) gfid
  | some other =>
      simp only [Option.map_some, Option.isSome_some, and_true, hxattr]
      by_cases h : i = inode
      · subst h
        rw [Function.update_self]
        by_cases hg : gfid = l.parent
        · rw [hg, Function.update_self, if_pos ⟨rfl, rfl⟩]
        · rw [Function.update_of_ne hg, if_neg fun hboth => hg hboth.2]
      · rw [Function.update_of_ne h, if_neg fun hboth => h hboth.1]

/-- **When the decision is right.**  For a file with any dentries and a contribution to the directory
of the unlinked name: the contribution is removed exactly if the file has no other link there and
some link elsewhere, if and only if it does not have both another link there and one elsewhere. -/
theorem contribution_removed_iff {opRet unlocked : ℤ} (hret : opRet ≠ -1) (hunlock : unlocked ≠ -1)
    (herr : l.err ≠ -1) (hinode : l.theInode s = some inode) {value : ℤ}
    (hvalue : s.xattr inode l.parent = some value) :
    ((mqReduceParentSizeXattr s l opRet unlocked).xattr inode l.parent = none
        ↔ ¬ LinkedBeside l (s.dentryList inode) ∧ LinkedElsewhere l (s.dentryList inode))
      ↔ ¬ (LinkedBeside l (s.dentryList inode) ∧ LinkedElsewhere l (s.dentryList inode)) := by
  have hremoved : (mqReduceParentSizeXattr s l opRet unlocked).xattr inode l.parent = none
      ↔ LinkedElsewhere l (s.dentryList inode) := by
    rw [xattr_reduced hret hunlock herr hinode, ← otherDentry_isSome_iff]
    simp [hvalue, Option.isSome_iff_ne_none]
  rw [hremoved]
  tauto

/-- A file `f` with one link in the directory `1` and one in the directory `2`; the first is
unlinked. -/
def twoLinks : State where
  dentryList _ := [⟨1, "a"⟩, ⟨2, "b"⟩]
  grep _ _ := none
  ctxSize _ := some 512
  xattr _ _ := some 512
  sizeXattr _ := 512

/-- The unlinked name `a` in the directory `1`. -/
def unlinkA : Local := ⟨1, "a", some 9, "/d", 512, 0, ⟨1, 512⟩, rfl⟩

/-- The contribution to the directory is removed, and the other one stays. -/
theorem contribution_removed_twoLinks :
    (mqReduceParentSizeXattr twoLinks unlinkA 0 0).xattr 9 1 = none
      ∧ (mqReduceParentSizeXattr twoLinks unlinkA 0 0).xattr 9 2 = some 512 := by
  have hnot : ¬ LinkedBeside unlinkA (twoLinks.dentryList 9) := by
    rintro ⟨d, hd, hparent, hname⟩
    simp only [twoLinks, unlinkA, List.mem_cons, List.not_mem_nil, or_false] at hd hparent hname
    rcases hd with rfl | rfl
    · exact hname rfl
    · cases hparent
  refine ⟨?_, rfl⟩
  have hvalue : twoLinks.xattr 9 unlinkA.parent = some 512 := rfl
  refine ((contribution_removed_iff (by decide) (by decide) (by decide) rfl
    hvalue).mpr fun hboth => hnot hboth.1).mpr ⟨hnot, ⟨⟨2, "b"⟩, ?_, ?_⟩⟩
  · exact List.mem_cons_of_mem _ List.mem_cons_self
  · decide

/-- A file with two links in the directory `1` and one in the directory `2`. -/
def threeLinks : State := { twoLinks with dentryList := fun _ => [⟨1, "a"⟩, ⟨1, "c"⟩, ⟨2, "b"⟩] }

/-- **The contribution of a file that is still there is removed.** -/
theorem contribution_lost :
    (mqReduceParentSizeXattr threeLinks unlinkA 0 0).xattr 9 1 = none
      ∧ LinkedBeside unlinkA (threeLinks.dentryList 9) :=
  ⟨rfl, ⟨1, "c"⟩, List.mem_cons_of_mem _ List.mem_cons_self, rfl, by decide⟩

end GlusterFS.Marker.Remove
