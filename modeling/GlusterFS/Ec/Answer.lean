import Mathlib
import GlusterFS.CommonUtils.IovLength

/-!
# Brick answers and when they are compatible

`ec-combine.c` compares the answers that the bricks give to one request.
`ec_combine_check` requires the same return code, the same `errno` of a failure,
equal extra dictionaries and, for a success, whatever the request's own callback
compares.  An answer joins a group after a comparison with the newest answer
of that group only, so that a group is uniform **only because the comparison is
transitive**: `ecCombineCheck_trans`.

Transitivity needs no assumption on the dictionaries.  `ec_dict_compare` walks
the pairs of the second dictionary, looks each key up in the first and compares
the number of pairs; that is not symmetric when a dictionary holds a key twice,
but it composes.  `ecCombineCheck_symm` adds symmetry for dictionaries without
repeated keys.

The callbacks also merge block counts, times and file system statistics into the
newest answer.  No comparison reads these, and they are not modelled.
-/

namespace GlusterFS.Ec

/-! ## Dictionaries -/

/-- `dict_t`: its pairs, newest first, as `dict_foreach` visits them. -/
abbrev Dict := List (String × List UInt8)

/-- `dict_get`: the newest value of a key. -/
def dictGet (d : Dict) (key : String) : Option (List UInt8) := d.lookup key

/-- `fnmatch("<start>*<stop>", key, 0) == 0`. -/
def fnmatchStar (start stop key : String) : Bool :=
  start.length + stop.length ≤ key.length && key.startsWith start && key.endsWith stop

/-- The keys whose values are allowed to differ between bricks. -/
def valueMayDiffer (key : String) : Bool :=
  key == "glusterfs.content" || key == "trusted.glusterfs.pathinfo" ||
  key == "glusterfs.pathinfo" || key == "trusted.glusterfs.lockinfo" ||
  key == "glusterfs.clrlk" || key == "glusterfs.open-fd-count" ||
  fnmatchStar "trusted.glusterfs." ".stime" key ||
  fnmatchStar "trusted.glusterfs." ".xtime" key ||
  key.startsWith "trusted.glusterfs.node-uuid"

/-- `ec_dict_data_compare` on one pair of the other dictionary. -/
def ecDictDataCompare (d : Dict) (pair : String × List UInt8) : Bool :=
  match dictGet d pair.1 with
  | none => false
  | some value => valueMayDiffer pair.1 || value == pair.2

/-- `ec_dict_compare`; a missing dictionary compares as an empty one. -/
def ecDictCompare (dict1 dict2 : Option Dict) : Bool :=
  match dict1, dict2 with
  | some d1, some d2 => d2.all (ecDictDataCompare d1) && d1.length == d2.length
  | some d1, none => d1.length == 0
  | none, some d2 => d2.length == 0
  | none, none => true

/-! ## Attributes, locks and vectors -/

/-- `ia_type_t`. -/
inductive IaType
  | inval | reg | dir | lnk | blk | chr | fifo | sock
  deriving DecidableEq, Repr

/-- The type bits of `st_mode`. -/
def IaType.bits : IaType → ℕ
  | .inval => 0
  | .reg => 0o100000
  | .dir => 0o040000
  | .lnk => 0o120000
  | .blk => 0o060000
  | .chr => 0o020000
  | .fifo => 0o010000
  | .sock => 0o140000

/-- The fields of `struct iatt` that are compared; `prot` holds the twelve
permission bits. -/
structure Iatt where
  ino : ℕ
  gfid : ℕ
  type : IaType
  prot : BitVec 12
  uid : ℕ
  gid : ℕ
  rdev : ℕ
  size : ℕ
  deriving DecidableEq, Repr

/-- `st_mode_from_ia`. -/
def stModeFromIa (prot : BitVec 12) (type : IaType) : ℕ := type.bits ||| prot.toNat

/-- The comparison of two `struct iatt` in `ec_iatt_combine`. -/
def iattMatches (dst src : Iatt) : Bool :=
  dst.ino == src.ino && dst.uid == src.uid && dst.gid == src.gid &&
  (!(dst.type == .blk || dst.type == .chr) || dst.rdev == src.rdev) &&
  (!(dst.type == .reg) || dst.size == src.size) &&
  stModeFromIa dst.prot dst.type == stModeFromIa src.prot src.type &&
  dst.gfid == src.gfid

/-- `ec_iatt_combine`.  The loop counts to `count` but moves neither pointer, so it
compares the first attributes every time. -/
def ecIattCombine (dst src : Fin 5 → Iatt) (count : ℕ) : Bool :=
  (List.range count).all fun _ => iattMatches (dst 0) (src 0)

/-- `struct gf_flock`. -/
structure Flock where
  type : ℕ
  whence : ℕ
  start : ℕ
  len : ℕ
  pid : ℕ
  owner : List UInt8
  deriving DecidableEq, Repr

/-- `ec_flock_compare`. -/
def ecFlockCompare (dst src : Flock) : Bool :=
  dst.type == src.type && dst.whence == src.whence && dst.start == src.start &&
  dst.len == src.len && dst.pid == src.pid && dst.owner == src.owner

/-- `ec_vector_compare`: `iov_length` of both, which is zero for no vectors. -/
def ecVectorCompare (dst src : List ℕ) : Bool :=
  CommonUtils.iovLength dst == CommonUtils.iovLength src

/-! ## Answers -/

/-- The contents of an answer, `ec_cbk_data_t`.  `vector` holds the lengths of the
buffers read. -/
structure Answer where
  opRet : ℤ
  opErrno : ℕ
  xdata : Option Dict
  dict : Option Dict
  fd : Option ℕ
  iatt : Fin 5 → Iatt
  flock : Flock
  vector : List ℕ

/-- `ec_combine_f`; the source passes `NULL` for `none`. -/
abbrev CombineFn := Option (Answer → Answer → Bool)

/-- The callbacks that compare the first attributes. -/
def combineIatt (count : ℕ) (dst src : Answer) : Bool :=
  ecIattCombine dst.iatt src.iatt count

/-- The callbacks that compare descriptors. -/
def combineFd (dst src : Answer) : Bool := dst.fd == src.fd

/-- The callbacks that compare dictionaries. -/
def combineDict (dst src : Answer) : Bool := ecDictCompare dst.dict src.dict

/-- `ec_combine_opendir`. -/
def ecCombineOpendir : Answer → Answer → Bool := combineFd

/-- `ec_combine_open`. -/
def ecCombineOpen : Answer → Answer → Bool := combineFd

/-- `ec_combine_create`. -/
def ecCombineCreate (dst src : Answer) : Bool := combineFd dst src && combineIatt 3 dst src

/-- `ec_combine_link`. -/
def ecCombineLink : Answer → Answer → Bool := combineIatt 3

/-- `ec_combine_mkdir`. -/
def ecCombineMkdir : Answer → Answer → Bool := combineIatt 3

/-- `ec_combine_mknod`. -/
def ecCombineMknod : Answer → Answer → Bool := combineIatt 3

/-- `ec_combine_symlink`. -/
def ecCombineSymlink : Answer → Answer → Bool := combineIatt 3

/-- `ec_combine_rename`. -/
def ecCombineRename : Answer → Answer → Bool := combineIatt 5

/-- `ec_combine_rmdir`. -/
def ecCombineRmdir : Answer → Answer → Bool := combineIatt 2

/-- `ec_combine_unlink`. -/
def ecCombineUnlink : Answer → Answer → Bool := combineIatt 2

/-- `ec_combine_fsync`. -/
def ecCombineFsync : Answer → Answer → Bool := combineIatt 2

/-- `ec_combine_lookup`. -/
def ecCombineLookup : Answer → Answer → Bool := combineIatt 2

/-- `ec_combine_setattr`. -/
def ecCombineSetattr : Answer → Answer → Bool := combineIatt 2

/-- `ec_combine_truncate`. -/
def ecCombineTruncate : Answer → Answer → Bool := combineIatt 2

/-- `ec_combine_writev`. -/
def ecCombineWritev : Answer → Answer → Bool := combineIatt 2

/-- `ec_combine_stat`. -/
def ecCombineStat : Answer → Answer → Bool := combineIatt 1

/-- `ec_combine_readv`. -/
def ecCombineReadv (dst src : Answer) : Bool :=
  ecVectorCompare dst.vector src.vector && combineIatt 1 dst src

/-- `ec_combine_statfs`, which only merges. -/
def ecCombineStatfs (_ _ : Answer) : Bool := true

/-- `ec_combine_xattrop`. -/
def ecCombineXattrop : Answer → Answer → Bool := combineDict

/-- `ec_combine_getxattr`. -/
def ecCombineGetxattr : Answer → Answer → Bool := combineDict

/-- `ec_combine_lk`. -/
def ecCombineLk (dst src : Answer) : Bool := ecFlockCompare dst.flock src.flock

/-- Every callback that the translator passes to `ec_combine`. -/
def combineCallbacks : List CombineFn :=
  [none, some ecCombineOpendir, some ecCombineOpen, some ecCombineCreate,
    some ecCombineLink, some ecCombineMkdir, some ecCombineMknod, some ecCombineSymlink,
    some ecCombineRename, some ecCombineRmdir, some ecCombineUnlink, some ecCombineFsync,
    some ecCombineLookup, some ecCombineSetattr, some ecCombineTruncate,
    some ecCombineWritev, some ecCombineStat, some ecCombineReadv, some ecCombineStatfs,
    some ecCombineXattrop, some ecCombineGetxattr, some ecCombineLk]

/-- `ec_combine_check`. -/
def ecCombineCheck (dst src : Answer) (combine : CombineFn) : Bool :=
  if dst.opRet ≠ src.opRet then false
  else if dst.opRet < 0 ∧ dst.opErrno ≠ src.opErrno then false
  else if !ecDictCompare dst.xdata src.xdata then false
  else if dst.opRet ≥ 0 then
    match combine with
    | none => true
    | some f => f dst src
  else true

/-! ## Comparing dictionaries composes -/

theorem ecDictDataCompare_iff {d : Dict} {pair : String × List UInt8} :
    ecDictDataCompare d pair = true ↔
      ∃ value, dictGet d pair.1 = some value ∧
        (valueMayDiffer pair.1 = true ∨ value = pair.2) := by
  unfold ecDictDataCompare
  cases dictGet d pair.1 with
  | none => simp
  | some value => simp

/-- A missing dictionary is an empty one. -/
theorem ecDictCompare_iff {dict1 dict2 : Option Dict} :
    ecDictCompare dict1 dict2 = true ↔
      (∀ pair ∈ dict2.getD [], ecDictDataCompare (dict1.getD []) pair = true) ∧
        (dict1.getD []).length = (dict2.getD []).length := by
  cases dict1 with
  | none =>
      cases dict2 with
      | none => simp [ecDictCompare]
      | some d =>
          have empty : 0 = d.length ↔ d = [] := by rw [eq_comm, List.length_eq_zero_iff]
          simp only [ecDictCompare, beq_iff_eq, Option.getD_none, Option.getD_some,
            List.length_nil, List.length_eq_zero_iff, empty]
          refine ⟨fun h => ⟨fun pair hpair => ?_, h⟩, And.right⟩
          rw [h] at hpair
          cases hpair
  | some d => cases dict2 <;> simp [ecDictCompare]

theorem mem_of_dictGet {d : Dict} {key : String} {value : List UInt8}
    (h : dictGet d key = some value) : (key, value) ∈ d := by
  obtain ⟨before, after, rfl, -⟩ := List.lookup_eq_some_iff.mp h
  exact List.mem_append_right _ List.mem_cons_self

/-- **Comparing dictionaries is transitive**, whatever they hold. -/
theorem ecDictCompare_trans {c b a : Option Dict} (hcb : ecDictCompare c b = true)
    (hba : ecDictCompare b a = true) : ecDictCompare c a = true := by
  rw [ecDictCompare_iff] at *
  refine ⟨fun pair hpair => ?_, hcb.2.trans hba.2⟩
  obtain ⟨value, hvalue, hsame⟩ := ecDictDataCompare_iff.mp (hba.1 pair hpair)
  obtain ⟨value', hvalue', hsame'⟩ :=
    ecDictDataCompare_iff.mp (hcb.1 _ (mem_of_dictGet hvalue))
  refine ecDictDataCompare_iff.mpr ⟨value', hvalue', ?_⟩
  rcases hsame with hdiffer | rfl
  · exact Or.inl hdiffer
  · exact hsame'

/-- A dictionary without repeated keys. -/
def UniqueKeys (d : Option Dict) : Prop := ((d.getD []).map Prod.fst).Nodup

theorem dictGet_of_mem {d : Dict} (hd : (d.map Prod.fst).Nodup) {key : String}
    {value : List UInt8} (h : (key, value) ∈ d) : dictGet d key = some value := by
  induction d with
  | nil => cases h
  | cons pair d ih =>
      rw [List.map_cons, List.nodup_cons] at hd
      rw [dictGet, List.lookup_cons]
      rcases List.mem_cons.mp h with rfl | hmem
      · simp
      · have hne : key ≠ pair.1 := fun heq =>
          hd.1 (heq ▸ List.mem_map_of_mem (f := Prod.fst) hmem)
        rw [beq_eq_false_iff_ne.mpr hne]
        exact ih hd.2 hmem

/-- Without repeated keys the comparison is symmetric: the same number of keys,
each of them found, is the same set of keys. -/
theorem ecDictCompare_symm {b a : Option Dict} (hb : UniqueKeys b) (ha : UniqueKeys a)
    (h : ecDictCompare b a = true) : ecDictCompare a b = true := by
  rw [ecDictCompare_iff] at *
  obtain ⟨found, length⟩ := h
  have subset : (a.getD []).map Prod.fst ⊆ (b.getD []).map Prod.fst := by
    intro key hkey
    obtain ⟨pair, hpair, rfl⟩ := List.mem_map.mp hkey
    obtain ⟨value, hvalue, -⟩ := ecDictDataCompare_iff.mp (found pair hpair)
    exact List.mem_map.mpr ⟨_, mem_of_dictGet hvalue, rfl⟩
  have perm : ((a.getD []).map Prod.fst).Perm ((b.getD []).map Prod.fst) := by
    refine (List.subperm_of_subset ha subset).perm_of_length_le ?_
    rw [List.length_map, List.length_map, length]
  refine ⟨fun pair hpair => ?_, length.symm⟩
  obtain ⟨⟨key, value⟩, hmem, hkey⟩ := List.mem_map.mp
    (perm.symm.subset (List.mem_map_of_mem (f := Prod.fst) hpair))
  obtain rfl : key = pair.1 := hkey
  obtain ⟨value', hvalue', hsame⟩ := ecDictDataCompare_iff.mp (found _ hmem)
  rw [dictGet_of_mem hb (show (pair.1, pair.2) ∈ b.getD [] from hpair)] at hvalue'
  cases hvalue'
  exact ecDictDataCompare_iff.mpr
    ⟨value, dictGet_of_mem ha hmem, hsame.imp_right Eq.symm⟩

/-! ## Comparing attributes composes -/

/-- The mode determines the type. -/
theorem type_eq_of_stModeFromIa {prot prot' : BitVec 12} {type type' : IaType}
    (h : stModeFromIa prot type = stModeFromIa prot' type') : type = type' := by
  have high : ∀ (p : BitVec 12) (t : IaType), stModeFromIa p t >>> 12 = t.bits >>> 12 := by
    intro p t
    rw [stModeFromIa, Nat.shiftRight_or_distrib, Nat.shiftRight_eq_div_pow p.toNat,
      Nat.div_eq_of_lt p.isLt, Nat.or_zero]
  have bits : type.bits >>> 12 = type'.bits >>> 12 := by rw [← high prot, ← high prot', h]
  cases type <;> cases type' <;> first | rfl | exact absurd bits (by decide)

theorem iattMatches_iff {dst src : Iatt} :
    iattMatches dst src = true ↔
      dst.ino = src.ino ∧ dst.uid = src.uid ∧ dst.gid = src.gid ∧
      (dst.type = .blk ∨ dst.type = .chr → dst.rdev = src.rdev) ∧
      (dst.type = .reg → dst.size = src.size) ∧
      stModeFromIa dst.prot dst.type = stModeFromIa src.prot src.type ∧
      dst.gfid = src.gfid := by
  simp only [iattMatches, Bool.and_eq_true, Bool.or_eq_true, Bool.not_eq_true',
    Bool.or_eq_false_iff, beq_iff_eq, beq_eq_false_iff_ne]
  tauto

theorem iattMatches_trans {c b a : Iatt} (hcb : iattMatches c b = true)
    (hba : iattMatches b a = true) : iattMatches c a = true := by
  rw [iattMatches_iff] at *
  obtain ⟨ino, uid, gid, rdev, size, mode, gfid⟩ := hcb
  obtain ⟨ino', uid', gid', rdev', size', mode', gfid'⟩ := hba
  have type := type_eq_of_stModeFromIa mode
  refine ⟨ino.trans ino', uid.trans uid', gid.trans gid', fun h => ?_, fun h => ?_,
    mode.trans mode', gfid.trans gfid'⟩
  · exact (rdev h).trans (rdev' (type ▸ h))
  · exact (size h).trans (size' (type ▸ h))

theorem iattMatches_symm {b a : Iatt} (h : iattMatches b a = true) :
    iattMatches a b = true := by
  rw [iattMatches_iff] at *
  obtain ⟨ino, uid, gid, rdev, size, mode, gfid⟩ := h
  have type := type_eq_of_stModeFromIa mode
  exact ⟨ino.symm, uid.symm, gid.symm, fun h => (rdev (type ▸ h)).symm,
    fun h => (size (type ▸ h)).symm, mode.symm, gfid.symm⟩

/-! ## The comparison of answers composes -/

/-- The comparison composes; it is used with the newest answer first. -/
def Composes (f : Answer → Answer → Bool) : Prop :=
  ∀ c b a, f c b = true → f b a = true → f c a = true

theorem composes_combineIatt (count : ℕ) : Composes (combineIatt count) := by
  intro c b a hcb hba
  simp only [combineIatt, ecIattCombine, List.all_eq_true] at *
  exact fun i hi => iattMatches_trans (hcb i hi) (hba i hi)

theorem composes_combineFd : Composes combineFd := by
  intro c b a hcb hba
  simp only [combineFd, beq_iff_eq] at *
  exact hcb.trans hba

theorem composes_combineDict : Composes combineDict :=
  fun _ _ _ => ecDictCompare_trans

theorem Composes.and {f g : Answer → Answer → Bool} (hf : Composes f) (hg : Composes g) :
    Composes fun dst src => f dst src && g dst src := by
  intro c b a hcb hba
  simp only [Bool.and_eq_true] at *
  exact ⟨hf c b a hcb.1 hba.1, hg c b a hcb.2 hba.2⟩

theorem composes_ecCombineLk : Composes ecCombineLk := by
  intro c b a hcb hba
  simp only [ecCombineLk, ecFlockCompare, Bool.and_eq_true, beq_iff_eq] at *
  obtain ⟨⟨⟨⟨⟨type, whence⟩, start⟩, len⟩, pid⟩, owner⟩ := hcb
  simp only [type, whence, start, len, pid, owner, hba, and_self]

theorem composes_vector : Composes fun dst src => ecVectorCompare dst.vector src.vector := by
  intro c b a hcb hba
  simp only [ecVectorCompare, beq_iff_eq] at *
  exact hcb.trans hba

theorem composes_ecCombineReadv : Composes ecCombineReadv :=
  composes_vector.and (composes_combineIatt 1)

/-- Every callback of the translator composes. -/
theorem composes_of_mem {f : Answer → Answer → Bool} (hf : some f ∈ combineCallbacks) :
    Composes f := by
  simp only [combineCallbacks, List.mem_cons, Option.some.injEq, List.not_mem_nil,
    or_false, reduceCtorEq, false_or] at hf
  rcases hf with rfl | rfl | rfl | rfl | rfl | rfl | rfl | rfl | rfl | rfl | rfl | rfl | rfl |
    rfl | rfl | rfl | rfl | rfl | rfl | rfl | rfl
  case inr.inr.inl => exact composes_combineFd.and (composes_combineIatt 3)
  all_goals first
    | with_reducible exact composes_ecCombineReadv
    | exact composes_combineFd
    | exact composes_combineIatt _
    | exact composes_combineDict
    | exact fun _ _ _ _ _ => rfl
    | exact composes_ecCombineLk

theorem ecCombineCheck_iff {dst src : Answer} {combine : CombineFn} :
    ecCombineCheck dst src combine = true ↔
      dst.opRet = src.opRet ∧ (dst.opRet < 0 → dst.opErrno = src.opErrno) ∧
      ecDictCompare dst.xdata src.xdata = true ∧
      ∀ f, combine = some f → 0 ≤ dst.opRet → f dst src = true := by
  unfold ecCombineCheck
  by_cases hret : dst.opRet = src.opRet
  swap
  · simp [hret]
  by_cases herrno : dst.opRet < 0 ∧ dst.opErrno ≠ src.opErrno
  · simp only [hret, ne_eq, not_true_eq_false, ↓reduceIte, true_and]
    rw [hret] at herrno
    rw [if_pos herrno]
    simp [herrno.1, herrno.2]
  have herrno' : dst.opRet < 0 → dst.opErrno = src.opErrno := fun h => by
    by_contra hne
    exact herrno ⟨h, hne⟩
  rw [if_neg (not_not.mpr hret), if_neg herrno]
  cases hdict : ecDictCompare dst.xdata src.xdata with
  | false => simp
  | true =>
      simp only [Bool.not_true, Bool.false_eq_true, ↓reduceIte, hret, true_and]
      rw [hret] at herrno'
      by_cases hpos : src.opRet ≥ 0
      · rw [if_pos hpos]
        cases combine with
        | none => simpa using herrno'
        | some f =>
            simp only [Option.some.injEq, forall_eq']
            exact ⟨fun h => ⟨herrno', fun _ => h⟩, fun h => h.2 hpos⟩
      · rw [if_neg hpos]
        simp only [true_iff]
        exact ⟨herrno', fun _ _ h => absurd h hpos⟩

/-- **The comparison of answers is transitive.** -/
theorem ecCombineCheck_trans {combine : CombineFn} (hcombine : combine ∈ combineCallbacks)
    {c b a : Answer} (hcb : ecCombineCheck c b combine = true)
    (hba : ecCombineCheck b a combine = true) : ecCombineCheck c a combine = true := by
  rw [ecCombineCheck_iff] at *
  obtain ⟨ret, errno, xdata, callback⟩ := hcb
  obtain ⟨ret', errno', xdata', callback'⟩ := hba
  refine ⟨ret.trans ret', fun h => (errno h).trans (errno' (ret ▸ h)),
    ecDictCompare_trans xdata xdata', fun f hf hpos => ?_⟩
  subst hf
  exact composes_of_mem hcombine c b a (callback f rfl hpos) (callback' f rfl (ret ▸ hpos))

/-! ## Symmetry -/

/-- An answer whose dictionaries repeat no key. -/
structure Answer.UniqueKeys (a : Answer) : Prop where
  xdata : Ec.UniqueKeys a.xdata
  dict : Ec.UniqueKeys a.dict

/-- The comparison does not depend on the order of its arguments. -/
def Mirrors (f : Answer → Answer → Bool) : Prop :=
  ∀ b a : Answer, b.UniqueKeys → a.UniqueKeys → f b a = true → f a b = true

theorem mirrors_combineIatt (count : ℕ) : Mirrors (combineIatt count) := by
  intro b a _ _ h
  simp only [combineIatt, ecIattCombine, List.all_eq_true] at *
  exact fun i hi => iattMatches_symm (h i hi)

theorem mirrors_combineFd : Mirrors combineFd := by
  intro b a _ _ h
  simp only [combineFd, beq_iff_eq] at *
  exact h.symm

theorem mirrors_combineDict : Mirrors combineDict :=
  fun _ _ hb ha => ecDictCompare_symm hb.dict ha.dict

theorem Mirrors.and {f g : Answer → Answer → Bool} (hf : Mirrors f) (hg : Mirrors g) :
    Mirrors fun dst src => f dst src && g dst src := by
  intro b a hb ha h
  simp only [Bool.and_eq_true] at *
  exact ⟨hf b a hb ha h.1, hg b a hb ha h.2⟩

theorem mirrors_ecCombineLk : Mirrors ecCombineLk := by
  intro b a _ _ h
  simp only [ecCombineLk, ecFlockCompare, Bool.and_eq_true, beq_iff_eq] at *
  obtain ⟨⟨⟨⟨⟨type, whence⟩, start⟩, len⟩, pid⟩, owner⟩ := h
  simp only [type, whence, start, len, pid, owner, and_self]

theorem mirrors_vector : Mirrors fun dst src => ecVectorCompare dst.vector src.vector := by
  intro b a _ _ h
  simp only [ecVectorCompare, beq_iff_eq] at *
  exact h.symm

theorem mirrors_ecCombineReadv : Mirrors ecCombineReadv :=
  mirrors_vector.and (mirrors_combineIatt 1)

theorem mirrors_of_mem {f : Answer → Answer → Bool} (hf : some f ∈ combineCallbacks) :
    Mirrors f := by
  simp only [combineCallbacks, List.mem_cons, Option.some.injEq, List.not_mem_nil,
    or_false, reduceCtorEq, false_or] at hf
  rcases hf with rfl | rfl | rfl | rfl | rfl | rfl | rfl | rfl | rfl | rfl | rfl | rfl | rfl |
    rfl | rfl | rfl | rfl | rfl | rfl | rfl | rfl
  case inr.inr.inl => exact mirrors_combineFd.and (mirrors_combineIatt 3)
  all_goals first
    | with_reducible exact mirrors_ecCombineReadv
    | exact mirrors_combineFd
    | exact mirrors_combineIatt _
    | exact mirrors_combineDict
    | exact fun _ _ _ _ _ => rfl
    | exact mirrors_ecCombineLk

/-- **Without repeated keys the comparison of answers is symmetric.** -/
theorem ecCombineCheck_symm {combine : CombineFn} (hcombine : combine ∈ combineCallbacks)
    {b a : Answer} (hb : b.UniqueKeys) (ha : a.UniqueKeys)
    (h : ecCombineCheck b a combine = true) : ecCombineCheck a b combine = true := by
  rw [ecCombineCheck_iff] at *
  obtain ⟨ret, errno, xdata, callback⟩ := h
  refine ⟨ret.symm, fun hneg => (errno (ret ▸ hneg)).symm,
    ecDictCompare_symm hb.xdata ha.xdata xdata, fun f hf hpos => ?_⟩
  subst hf
  exact mirrors_of_mem hcombine b a hb ha (callback f rfl (ret ▸ hpos))

end GlusterFS.Ec
