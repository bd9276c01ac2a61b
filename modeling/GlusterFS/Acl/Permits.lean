import GlusterFS.Lib.KeyedSort

/-!
# Access by POSIX ACL

The translator `system/posix-acl` decides about access from an access ACL that was parsed from an
extended attribute, and from the mode bits of the inode.  This module embeds `posix_ace_cmp`,
`posix_acl_normalize`, `posix_acl_from_xattr`, `frame_in_group`, `posix_acl_access_set_mode` and
`acl_permits`, and proves that the verdict is that of POSIX.1e.

`acl_permits` walks the entries once and relies on their order.  `posix_acl_normalize` sorts them by
tag and then by id, with a comparison that subtracts.  The difference of two ids wraps around, so
the comparison is not transitive among the named entries of one kind; the tags are small, so that
the tags come out in order all the same (`posixAclNormalize_sorted`), and no entry gets lost
(`posixAclNormalize_perm`).  A sorted ACL is its entries
of one tag after those of another, and the walk is followed through these sections
(`scan_user`, `scan_group`).

The mode bits hold the permissions of the owner and of the others once more.  They were set from the
ACL by `posix_acl_access_set_mode`, and `acl_permits` reads them back (`setMode_bits`).
-/

namespace GlusterFS.Acl

open KeyedSort

/-! ## Entries -/

/-- The tags `POSIX_ACL_USER_OBJ` to `POSIX_ACL_OTHER`. -/
inductive Tag
  | userObj
  | user
  | groupObj
  | group
  | mask
  | other
  deriving DecidableEq, Repr

/-- The value of a tag. -/
def Tag.value : Tag → ℕ
  | userObj => 0x01
  | user => 0x02
  | groupObj => 0x04
  | group => 0x08
  | mask => 0x10
  | other => 0x20

/-- The tag of a value. -/
def tagOf (value : ℕ) : Option Tag :=
  match value with
  | 0x01 => some .userObj
  | 0x02 => some .user
  | 0x04 => some .groupObj
  | 0x08 => some .group
  | 0x10 => some .mask
  | 0x20 => some .other
  | _ => none

/-- `struct posix_ace`. -/
structure PosixAce where
  tag : Tag
  perm : BitVec 16
  id : BitVec 32
  deriving DecidableEq, Repr

/-- `posix_ace_cmp`; the difference of the ids is an `int`. -/
def posixAceCmp (ace₁ ace₂ : PosixAce) : ℤ :=
  let ret := (ace₁.tag.value : ℤ) - ace₂.tag.value
  if ret = 0 then (ace₁.id - ace₂.id).toInt else ret

/-- `posix_acl_normalize`. -/
def posixAclNormalize (acl : List PosixAce) : List PosixAce :=
  msort (fun ace₁ ace₂ => decide (posixAceCmp ace₁ ace₂ ≤ 0)) acl

/-- `letoh16`. -/
def letoh16 (b₀ b₁ : UInt8) : BitVec 16 := BitVec.ofNat 16 (b₀.toNat + 2 ^ 8 * b₁.toNat)

/-- `letoh32`. -/
def letoh32 (b₀ b₁ b₂ b₃ : UInt8) : BitVec 32 :=
  BitVec.ofNat 32 (b₀.toNat + 2 ^ 8 * b₁.toNat + 2 ^ 16 * b₂.toNat + 2 ^ 24 * b₃.toNat)

/-- `POSIX_ACL_UNDEFINED_ID`. -/
def undefinedId : BitVec 32 := -1

/-- The loop of `posix_acl_from_xattr`. -/
def parseEntries : List UInt8 → Option (List PosixAce)
  | [] => some []
  | t₀ :: t₁ :: p₀ :: p₁ :: i₀ :: i₁ :: i₂ :: i₃ :: rest =>
      match tagOf (letoh16 t₀ t₁).toNat with
      | none => none
      | some tag =>
          let id := match tag with
            | .userObj | .mask | .other => undefinedId
            | .group | .user | .groupObj => letoh32 i₀ i₁ i₂ i₃
          (parseEntries rest).map (⟨tag, letoh16 p₀ p₁, id⟩ :: ·)
  | _ => none

/-- `posix_acl_from_xattr`. -/
def posixAclFromXattr (buf : List UInt8) : Option (List PosixAce) :=
  match buf with
  | v₀ :: v₁ :: v₂ :: v₃ :: entries =>
      if entries.length % 8 ≠ 0 then none
      else if letoh32 v₀ v₁ v₂ v₃ ≠ 2 then none
      else (parseEntries entries).map posixAclNormalize
  | _ => none

/-! ## Access -/

/-- What of a `call_frame_t` matters here. -/
structure Caller where
  uid : BitVec 32
  gid : BitVec 32
  groups : List (BitVec 32)
  deriving DecidableEq, Repr

/-- `struct posix_acl_ctx` without the ACLs. -/
structure PosixAclCtx where
  uid : BitVec 32
  gid : BitVec 32
  perm : BitVec 32
  deriving DecidableEq, Repr

/-- `frame_is_super_user`; `superUid` is that of the configuration. -/
def frameIsSuperUser (superUid : BitVec 32) (frame : Caller) : Bool :=
  frame.uid = superUid || frame.uid = 0

/-- `frame_in_group`. -/
def frameInGroup (frame : Caller) (gid : BitVec 32) : Bool :=
  frame.gid = gid || frame.groups.any (· = gid)

/-- The permissions of an entry as an `int`. -/
def PosixAce.perms (ace : PosixAce) : BitVec 32 := ace.perm.setWidth 32

/-- What the loop of `posix_acl_access_set_mode` knows. -/
structure ModeScan where
  mask : BitVec 32
  mode : BitVec 32
  groupCe : Option PosixAce
  maskCe : Option PosixAce

/-- One turn of the loop of `posix_acl_access_set_mode`. -/
def ModeScan.next (s : ModeScan) (ace : PosixAce) : ModeScan :=
  match ace.tag with
  | .userObj => { s with mask := s.mask ||| 0o700#32, mode := s.mode ||| (ace.perms <<< 6) }
  | .groupObj => { s with groupCe := some ace }
  | .mask => { s with maskCe := some ace }
  | .other => { s with mask := s.mask ||| 0o007#32, mode := s.mode ||| ace.perms }
  | _ => s

/-- `posix_acl_access_set_mode`: the new `ctx->perm`. -/
def posixAclAccessSetMode (acl : List PosixAce) (perm : BitVec 32) : BitVec 32 :=
  let s := acl.foldl ModeScan.next ⟨0, 0, none, none⟩
  match s.maskCe.or s.groupCe with
  | none => (perm &&& ~~~ s.mask) ||| s.mode
  | some ace => (perm &&& ~~~ (s.mask ||| 0o070#32)) ||| (s.mode ||| (ace.perms <<< 3))

/-- Where the loop of `acl_permits` jumps to. -/
inductive Jump
  | permCheck (perm : BitVec 32)
  | maskCheck (perm : BitVec 32)
  | red
  deriving DecidableEq, Repr

section Walk

variable (frame : Caller) (ctx : PosixAclCtx) (aclPresent : Bool) (want : BitVec 32)

/-- The permissions contain what is wanted. -/
def Contains (perm want : BitVec 32) : Prop := perm &&& want = want

instance (perm want : BitVec 32) : Decidable (Contains perm want) :=
  inferInstanceAs (Decidable (_ = _))

/-- The loop of `acl_permits`. -/
def scan : List PosixAce → Bool → BitVec 32 → Jump
  | [], _, perm => .maskCheck perm
  | ace :: rest, found, perm =>
      match ace.tag with
      | .userObj =>
          let perm := (ctx.perm &&& 0o700#32) >>> 6
          if frame.uid = ctx.uid then .permCheck perm else scan rest found perm
      | .user => if frame.uid = ace.id then .maskCheck ace.perms else scan rest found ace.perms
      | .groupObj =>
          let perm := if aclPresent then ace.perms else (ctx.perm &&& 0o070#32) >>> 3
          if frameInGroup frame ctx.gid then
            if Contains perm want then .maskCheck perm else scan rest true perm
          else scan rest found perm
      | .group =>
          if frameInGroup frame ace.id then
            if Contains ace.perms want then .maskCheck ace.perms else scan rest true ace.perms
          else scan rest found ace.perms
      | .mask => scan rest found perm
      | .other =>
          if found then .red else .permCheck (ctx.perm &&& 0o007#32)

end Walk

/-- The end of `acl_permits`. -/
def verdict (acl : List PosixAce) (want : BitVec 32) : Jump → Bool
  | .permCheck perm => Contains perm want
  | .maskCheck perm =>
      match acl.find? fun ace => ace.tag = .mask with
      | some ace => Contains (ace.perms &&& perm) want
      | none => Contains perm want
  | .red => false

/-- `acl_permits` for an inode with an ACL. -/
def aclPermits (superUid : BitVec 32) (ctx : PosixAclCtx) (acl : List PosixAce) (frame : Caller)
    (want : BitVec 32) : Bool :=
  if frameIsSuperUser superUid frame then true
  else verdict acl want (scan frame ctx (decide (acl.length > 3)) want acl false 0)

/-! ## POSIX.1e -/

/-- The entries of an attribute as they stand in it, if it can be read. -/
def xattrEntries (buf : List UInt8) : Option (List PosixAce) :=
  match buf with
  | v₀ :: v₁ :: v₂ :: v₃ :: entries =>
      if entries.length % 8 ≠ 0 then none
      else if letoh32 v₀ v₁ v₂ v₃ ≠ 2 then none
      else parseEntries entries
  | _ => none

/-- **A valid access ACL**: one entry each for the owner, the owning group and the others, at most
one for each named user and group, and a mask if anyone is named. -/
structure Valid (acl : List PosixAce) : Prop where
  userObj : ∃ ace, acl.filter (fun ace => ace.tag = .userObj) = [ace]
  groupObj : ∃ ace, acl.filter (fun ace => ace.tag = .groupObj) = [ace]
  other : ∃ ace, acl.filter (fun ace => ace.tag = .other) = [ace]
  users : ((acl.filter fun ace => ace.tag = .user).map fun ace => ace.id).Nodup
  groups : ((acl.filter fun ace => ace.tag = .group).map fun ace => ace.id).Nodup
  oneMask : (acl.filter fun ace => ace.tag = .mask).length ≤ 1
  named : ∀ ace ∈ acl, ace.tag = .user ∨ ace.tag = .group → ∃ ace ∈ acl, ace.tag = .mask
  perms : ∀ ace ∈ acl, ace.perm.toNat < 8

section Rule

variable (acl : List PosixAce) (ctx : PosixAclCtx) (frame : Caller) (want : BitVec 32)

/-- The permissions of an entry contain what is wanted, and so does the mask. -/
def MaskedContains (ace : PosixAce) : Prop :=
  Contains ace.perms want ∧ ∀ m ∈ acl, m.tag = .mask → Contains m.perms want

/-- The entry of a group that the caller is in. -/
def GroupMatches (ace : PosixAce) : Prop :=
  ace.tag = .groupObj ∧ frameInGroup frame ctx.gid = true ∨
    ace.tag = .group ∧ frameInGroup frame ace.id = true

/-- The entry of the caller as a named user. -/
def UserMatches (ace : PosixAce) : Prop := ace.tag = .user ∧ ace.id = frame.uid

instance (ace : PosixAce) : Decidable (GroupMatches ctx frame ace) :=
  inferInstanceAs (Decidable (_ ∨ _))

instance (ace : PosixAce) : Decidable (UserMatches frame ace) :=
  inferInstanceAs (Decidable (_ ∧ _))

/-- **The access check of POSIX.1e.** -/
def PosixGrants : Prop :=
  if frame.uid = ctx.uid then ∃ ace ∈ acl, ace.tag = .userObj ∧ Contains ace.perms want
  else if ∃ ace ∈ acl, UserMatches frame ace then
    ∃ ace ∈ acl, UserMatches frame ace ∧ MaskedContains acl want ace
  else if ∃ ace ∈ acl, GroupMatches ctx frame ace then
    ∃ ace ∈ acl, GroupMatches ctx frame ace ∧ MaskedContains acl want ace
  else ∃ ace ∈ acl, ace.tag = .other ∧ Contains ace.perms want

end Rule

/-! ## The order of the entries -/

theorem posixAceCmp_decides :
    Decides (fun ace₁ ace₂ => decide (posixAceCmp ace₁ ace₂ ≤ 0)) fun ace => ace.tag.value := by
  intro a b
  refine ⟨fun h => ?_, fun h => ?_⟩
  · have hle : posixAceCmp a b ≤ 0 := of_decide_eq_true h
    show a.tag.value ≤ b.tag.value
    rw [posixAceCmp] at hle
    split_ifs at hle <;> omega
  · have hlt : ¬ posixAceCmp a b ≤ 0 := of_decide_eq_false h
    show b.tag.value ≤ a.tag.value
    rw [posixAceCmp] at hlt
    split_ifs at hlt <;> omega

/-- **The tags are in order**, whatever the ids are. -/
theorem posixAclNormalize_sorted (acl : List PosixAce) :
    (posixAclNormalize acl).Pairwise fun a b => a.tag.value ≤ b.tag.value :=
  msort_sorted posixAceCmp_decides acl

/-- **Every entry is kept**, and none is added. -/
theorem posixAclNormalize_perm (acl : List PosixAce) : (posixAclNormalize acl).Perm acl :=
  msort_perm _ acl

theorem posixAclFromXattr_eq (buf : List UInt8) :
    posixAclFromXattr buf = (xattrEntries buf).map posixAclNormalize := by
  unfold posixAclFromXattr xattrEntries
  split
  · split_ifs <;> rfl
  · rfl

theorem Tag.value_injective {t₁ t₂ : Tag} : t₁.value = t₂.value ↔ t₁ = t₂ := by
  cases t₁ <;> cases t₂ <;> decide

/-- A sorted ACL is its sections. -/
theorem sections {acl : List PosixAce} (h : acl.Pairwise fun a b => a.tag.value ≤ b.tag.value) :
    acl = (acl.filter fun ace => ace.tag = .userObj) ++ ((acl.filter fun ace => ace.tag = .user) ++
      ((acl.filter fun ace => ace.tag = .groupObj) ++ ((acl.filter fun ace => ace.tag = .group) ++
        ((acl.filter fun ace => ace.tag = .mask) ++ acl.filter fun ace => ace.tag = .other)))) := by
  have hks : ([0x01, 0x02, 0x04, 0x08, 0x10, 0x20] : List ℕ).Pairwise (· < ·) := by decide
  have hmem : ∀ ace ∈ acl, ace.tag.value ∈ ([0x01, 0x02, 0x04, 0x08, 0x10, 0x20] : List ℕ) := by
    intro ace _
    cases ace.tag <;> decide
  have hfilter : ∀ tag : Tag, (acl.filter fun ace => ace.tag.value = tag.value) =
      acl.filter fun ace => ace.tag = tag := fun tag =>
    List.filter_congr fun ace _ => by simp only [Tag.value_injective]
  have heq := eq_flatMap_filter hks h hmem
  simp only [List.flatMap_cons, List.flatMap_nil, List.append_nil] at heq
  rw [← hfilter .userObj, ← hfilter .user, ← hfilter .groupObj, ← hfilter .group, ← hfilter .mask,
    ← hfilter .other]
  exact heq

/-! ## The mode bits -/

/-- Three permissions are put into a mode, and the bits around them are cleared. -/
theorem mode_bits (perm : BitVec 32) (u g o : BitVec 3) :
    let mode := (perm &&& ~~~ (0#32 ||| 0o700#32 ||| 0o007#32 ||| 0o070#32)) |||
      (0#32 ||| (u.setWidth 32 <<< 6) ||| o.setWidth 32 ||| (g.setWidth 32 <<< 3))
    (mode &&& 0o700#32) >>> 6 = u.setWidth 32 ∧ (mode &&& 0o070#32) >>> 3 = g.setWidth 32 ∧
      mode &&& 0o007#32 = o.setWidth 32 := by
  refine ⟨?_, ?_, ?_⟩ <;>
  · ext i hi
    simp only [BitVec.getElem_ushiftRight, BitVec.getElem_and, BitVec.getLsbD_and,
      BitVec.getLsbD_or, BitVec.getElem_or, BitVec.getLsbD_not, BitVec.getLsbD_shiftLeft,
      BitVec.getElem_shiftLeft, BitVec.getLsbD_setWidth, BitVec.getElem_setWidth]
    interval_cases i <;> simp

/-- The permissions of an entry fit into three bits. -/
theorem perms_eq {ace : PosixAce} (h : ace.perm.toNat < 8) :
    ace.perms = (ace.perm.setWidth 3).setWidth 32 := by
  apply BitVec.eq_of_toNat_eq
  simp only [PosixAce.perms, BitVec.toNat_setWidth]
  omega

/-- A section leaves the loop of `posix_acl_access_set_mode` as it is. -/
theorem foldl_next_skip {aces : List PosixAce}
    (h : ∀ ace ∈ aces, ace.tag = .user ∨ ace.tag = .group) (s : ModeScan) :
    aces.foldl ModeScan.next s = s := by
  induction aces with
  | nil => rfl
  | cons ace aces ih =>
      have hskip : s.next ace = s := by
        rcases h ace List.mem_cons_self with htag | htag <;> simp [ModeScan.next, htag]
      rw [List.foldl_cons, hskip]
      exact ih fun a ha => h a (List.mem_cons_of_mem ace ha)

theorem mem_filter_tag {acl : List PosixAce} {tag : Tag} {ace : PosixAce} :
    ace ∈ acl.filter (fun ace => ace.tag = tag) ↔ ace ∈ acl ∧ ace.tag = tag := by
  simp [List.mem_filter]

theorem mem_of_section {acl : List PosixAce} {tag : Tag} {ace : PosixAce}
    (h : acl.filter (fun ace => ace.tag = tag) = [ace]) : ace ∈ acl ∧ ace.tag = tag :=
  mem_filter_tag.mp (h ▸ List.mem_singleton_self ace)

/-- A sorted valid ACL, section by section. -/
structure Sections where
  userObj : PosixAce
  users : List PosixAce
  groupObj : PosixAce
  groups : List PosixAce
  mask : Option PosixAce
  other : PosixAce
  userObj_tag : userObj.tag = .userObj
  users_tag : ∀ ace ∈ users, ace.tag = .user
  groupObj_tag : groupObj.tag = .groupObj
  groups_tag : ∀ ace ∈ groups, ace.tag = .group
  mask_tag : ∀ ace ∈ mask, ace.tag = .mask
  other_tag : other.tag = .other

/-- The entries of the sections. -/
def Sections.acl (v : Sections) : List PosixAce :=
  v.userObj :: (v.users ++ v.groupObj :: (v.groups ++ (v.mask.toList ++ [v.other])))

theorem Sections.mem_acl (v : Sections) {ace : PosixAce} :
    ace ∈ v.acl ↔ ace = v.userObj ∨ ace ∈ v.users ∨ ace = v.groupObj ∨ ace ∈ v.groups ∨
      ace ∈ v.mask ∨ ace = v.other := by
  simp [Sections.acl]

theorem Valid.sections {acl : List PosixAce} (h : Valid acl)
    (hs : acl.Pairwise fun a b => a.tag.value ≤ b.tag.value) :
    ∃ v : Sections, acl = v.acl := by
  obtain ⟨u, hu⟩ := h.userObj
  obtain ⟨g, hg⟩ := h.groupObj
  obtain ⟨o, ho⟩ := h.other
  have heq := Acl.sections hs
  rw [hu, hg, ho] at heq
  have hmask : ∃ m : Option PosixAce, acl.filter (fun ace => ace.tag = .mask) = m.toList := by
    have hone := h.oneMask
    match hm : acl.filter fun ace => ace.tag = .mask with
    | [] => exact ⟨none, hm⟩
    | [m] => exact ⟨some m, hm⟩
    | _ :: _ :: _ =>
        rw [hm] at hone
        simp at hone
  obtain ⟨m, hm⟩ := hmask
  rw [hm] at heq
  exact ⟨{
    userObj := u
    users := acl.filter fun ace => ace.tag = .user
    groupObj := g
    groups := acl.filter fun ace => ace.tag = .group
    mask := m
    other := o
    userObj_tag := (mem_of_section hu).2
    users_tag := fun ace hace => (mem_filter_tag.mp hace).2
    groupObj_tag := (mem_of_section hg).2
    groups_tag := fun ace hace => (mem_filter_tag.mp hace).2
    mask_tag := fun ace hace => by
      have hin : ace ∈ acl.filter fun ace => ace.tag = .mask := hm ▸ Option.mem_toList.mpr hace
      exact (mem_filter_tag.mp hin).2
    other_tag := (mem_of_section ho).2 }, heq⟩

section Permits

variable {acl : List PosixAce} {ctx : PosixAclCtx} {frame : Caller} {want : BitVec 32}
  {aclPresent found : Bool} {perm : BitVec 32} {rest : List PosixAce}

/-- **The mode bits are those of the owner, of the mask or the owning group, and of the others.** -/
theorem setMode_bits (v : Sections) (hperms : ∀ ace ∈ v.acl, ace.perm.toNat < 8)
    (perm : BitVec 32) :
    (posixAclAccessSetMode v.acl perm &&& 0o700#32) >>> 6 = v.userObj.perms ∧
      (v.mask = none →
        (posixAclAccessSetMode v.acl perm &&& 0o070#32) >>> 3 = v.groupObj.perms) ∧
      (∀ m, v.mask = some m →
        (posixAclAccessSetMode v.acl perm &&& 0o070#32) >>> 3 = m.perms) ∧
      posixAclAccessSetMode v.acl perm &&& 0o007#32 = v.other.perms := by
  have hfold : v.acl.foldl ModeScan.next ⟨0, 0, none, none⟩ =
      ⟨0#32 ||| 0o700#32 ||| 0o007#32, 0#32 ||| (v.userObj.perms <<< 6) ||| v.other.perms,
        some v.groupObj, v.mask⟩ := by
    rw [Sections.acl, List.foldl_cons, List.foldl_append,
      foldl_next_skip fun ace hace => .inl (v.users_tag ace hace), List.foldl_cons,
      List.foldl_append, foldl_next_skip fun ace hace => .inr (v.groups_tag ace hace),
      List.foldl_append]
    cases hm : v.mask with
    | none => simp [ModeScan.next, v.userObj_tag, v.groupObj_tag, v.other_tag]
    | some m =>
        have hmtag := v.mask_tag m hm
        simp [ModeScan.next, v.userObj_tag, v.groupObj_tag, v.other_tag, hmtag]
  have hu : v.userObj ∈ v.acl := v.mem_acl.mpr (.inl rfl)
  have hg : v.groupObj ∈ v.acl := v.mem_acl.mpr (.inr (.inr (.inl rfl)))
  have ho : v.other ∈ v.acl := v.mem_acl.mpr (.inr (.inr (.inr (.inr (.inr rfl)))))
  unfold posixAclAccessSetMode
  dsimp only
  rw [hfold, perms_eq (hperms _ hu), perms_eq (hperms _ ho), perms_eq (hperms _ hg)]
  cases hmask : v.mask with
  | none =>
      simp only [Option.none_or]
      rw [perms_eq (hperms _ hg)]
      obtain ⟨h1, h2, h3⟩ := mode_bits perm (v.userObj.perm.setWidth 3)
        (v.groupObj.perm.setWidth 3) (v.other.perm.setWidth 3)
      exact ⟨h1, fun _ => h2, (fun m hm => by cases hm), h3⟩
  | some m =>
      have hm := hperms m (v.mem_acl.mpr (.inr (.inr (.inr (.inr (.inl hmask))))))
      simp only [Option.some_or]
      rw [perms_eq hm]
      obtain ⟨h1, h2, h3⟩ := mode_bits perm (v.userObj.perm.setWidth 3)
        (m.perm.setWidth 3) (v.other.perm.setWidth 3)
      refine ⟨h1, (fun hnone => by cases hnone), ?_, h3⟩
      intro m' hm'
      cases hm'
      rw [perms_eq hm]
      exact h2

/-! ## The walk -/

/-- The section of the named users. -/
theorem scan_user {aces : List PosixAce} (h : ∀ ace ∈ aces, ace.tag = .user) :
    (∃ ace ∈ aces, frame.uid = ace.id ∧
      scan frame ctx aclPresent want (aces ++ rest) found perm = .maskCheck ace.perms) ∨
    (∀ ace ∈ aces, frame.uid ≠ ace.id) ∧ ∃ perm',
      scan frame ctx aclPresent want (aces ++ rest) found perm =
        scan frame ctx aclPresent want rest found perm' := by
  induction aces generalizing perm with
  | nil => exact .inr ⟨nofun, perm, rfl⟩
  | cons ace aces ih =>
      have htag := h ace List.mem_cons_self
      by_cases huid : frame.uid = ace.id
      · refine .inl ⟨ace, List.mem_cons_self, huid, ?_⟩
        simp [scan, htag, huid]
      · have hstep : scan frame ctx aclPresent want (ace :: aces ++ rest) found perm =
            scan frame ctx aclPresent want (aces ++ rest) found ace.perms := by
          simp [scan, htag, huid]
        rw [hstep]
        rcases ih (fun a ha => h a (List.mem_cons_of_mem ace ha)) with
          ⟨a, ha, hid, hscan⟩ | ⟨hall, perm', hscan⟩
        · exact .inl ⟨a, List.mem_cons_of_mem ace ha, hid, hscan⟩
        · exact .inr ⟨List.forall_mem_cons.mpr ⟨huid, hall⟩, perm', hscan⟩

/-- The section of the named groups. -/
theorem scan_group {aces : List PosixAce} (h : ∀ ace ∈ aces, ace.tag = .group) :
    (∃ ace ∈ aces, frameInGroup frame ace.id = true ∧ Contains ace.perms want ∧
      scan frame ctx aclPresent want (aces ++ rest) found perm = .maskCheck ace.perms) ∨
    (∀ ace ∈ aces, frameInGroup frame ace.id = true → ¬ Contains ace.perms want) ∧ ∃ perm',
      scan frame ctx aclPresent want (aces ++ rest) found perm =
        scan frame ctx aclPresent want rest
          (found || aces.any fun ace => frameInGroup frame ace.id) perm' := by
  induction aces generalizing perm found with
  | nil =>
      refine .inr ⟨nofun, perm, ?_⟩
      rw [List.any_nil, Bool.or_false, List.nil_append]
  | cons ace aces ih =>
      have htag := h ace List.mem_cons_self
      have hrest := fun a ha => h a (List.mem_cons_of_mem ace ha)
      by_cases hin : frameInGroup frame ace.id = true
      · by_cases hcontains : Contains ace.perms want
        · refine .inl ⟨ace, List.mem_cons_self, hin, hcontains, ?_⟩
          simp [scan, htag, hin, hcontains]
        · have hstep : scan frame ctx aclPresent want (ace :: aces ++ rest) found perm =
              scan frame ctx aclPresent want (aces ++ rest) true ace.perms := by
            simp [scan, htag, hin, hcontains]
          rw [hstep]
          rcases ih hrest with ⟨a, ha, hin', hcon, hscan⟩ | ⟨hall, perm', hscan⟩
          · exact .inl ⟨a, List.mem_cons_of_mem ace ha, hin', hcon, hscan⟩
          · refine .inr ⟨List.forall_mem_cons.mpr ⟨fun _ => hcontains, hall⟩, perm', ?_⟩
            rw [hscan]
            simp [hin]
      · have hstep : scan frame ctx aclPresent want (ace :: aces ++ rest) found perm =
            scan frame ctx aclPresent want (aces ++ rest) found ace.perms := by
          simp [scan, htag, hin]
        rw [hstep]
        rcases ih hrest with ⟨a, ha, hin', hcon, hscan⟩ | ⟨hall, perm', hscan⟩
        · exact .inl ⟨a, List.mem_cons_of_mem ace ha, hin', hcon, hscan⟩
        · refine .inr ⟨List.forall_mem_cons.mpr ⟨fun hin' => absurd hin' hin, hall⟩, perm', ?_⟩
          rw [hscan]
          simp [hin]

theorem contains_and {p q : BitVec 32} :
    Contains (p &&& q) want ↔ Contains q want ∧ Contains p want := by
  unfold Contains
  constructor
  · intro h
    constructor
    · calc q &&& want = q &&& (p &&& q &&& want) := by rw [h]
        _ = p &&& q &&& want := by
          rw [BitVec.and_comm p q, BitVec.and_assoc, ← BitVec.and_assoc, BitVec.and_self]
        _ = want := h
    · calc p &&& want = p &&& (p &&& q &&& want) := by rw [h]
        _ = p &&& q &&& want := by
          rw [BitVec.and_assoc, ← BitVec.and_assoc p p, BitVec.and_self]
        _ = want := h
  · rintro ⟨hq, hp⟩
    rw [BitVec.and_assoc, hq, hp]

/-- The entries of a tag. -/
def Sections.Has (v : Sections) (ace : PosixAce) : Tag → Prop
  | .userObj => ace = v.userObj
  | .user => ace ∈ v.users
  | .groupObj => ace = v.groupObj
  | .group => ace ∈ v.groups
  | .mask => ace ∈ v.mask
  | .other => ace = v.other

theorem Sections.has_iff (v : Sections) {ace : PosixAce} {tag : Tag} :
    ace ∈ v.acl ∧ ace.tag = tag ↔ v.Has ace tag := by
  rw [v.mem_acl]
  constructor
  · rintro ⟨h, rfl⟩
    rcases h with rfl | h | rfl | h | h | rfl
    · rw [v.userObj_tag]
      rfl
    · rw [v.users_tag ace h]
      exact h
    · rw [v.groupObj_tag]
      rfl
    · rw [v.groups_tag ace h]
      exact h
    · rw [v.mask_tag ace h]
      exact h
    · rw [v.other_tag]
      rfl
  · intro h
    cases tag with
    | userObj =>
        obtain rfl : ace = v.userObj := h
        exact ⟨.inl rfl, v.userObj_tag⟩
    | user => exact ⟨.inr (.inl h), v.users_tag ace h⟩
    | groupObj =>
        obtain rfl : ace = v.groupObj := h
        exact ⟨.inr (.inr (.inl rfl)), v.groupObj_tag⟩
    | group => exact ⟨.inr (.inr (.inr (.inl h))), v.groups_tag ace h⟩
    | mask => exact ⟨.inr (.inr (.inr (.inr (.inl h)))), v.mask_tag ace h⟩
    | other =>
        obtain rfl : ace = v.other := h
        exact ⟨.inr (.inr (.inr (.inr (.inr rfl)))), v.other_tag⟩

theorem Sections.exists_iff (v : Sections) {tag : Tag} {P : PosixAce → Prop} :
    (∃ ace ∈ v.acl, ace.tag = tag ∧ P ace) ↔ ∃ ace, v.Has ace tag ∧ P ace :=
  exists_congr fun ace => by rw [← and_assoc, v.has_iff]

/-- The second pass applies the mask. -/
theorem verdict_maskCheck (v : Sections) (ace : PosixAce) :
    verdict v.acl want (.maskCheck ace.perms) = true ↔ MaskedContains v.acl want ace := by
  have hmask : MaskedContains v.acl want ace ↔
      Contains ace.perms want ∧ ∀ m ∈ v.mask, Contains m.perms want := by
    refine and_congr_right fun _ => ⟨fun h m hm => ?_, fun h m hm htag => ?_⟩
    · obtain ⟨hin, htag⟩ : m ∈ v.acl ∧ m.tag = .mask := v.has_iff.mpr hm
      exact h m hin htag
    · exact h m (v.has_iff.mp ⟨hm, htag⟩)
  rw [hmask, verdict]
  cases hfind : v.acl.find? fun ace => ace.tag = .mask with
  | none =>
      have hnone : v.mask = none := by
        cases hm : v.mask with
        | none => rfl
        | some m =>
            obtain ⟨hin, htag⟩ : m ∈ v.acl ∧ m.tag = .mask := v.has_iff.mpr hm
            exact absurd (by simpa using htag) (List.find?_eq_none.mp hfind m hin)
      rw [hnone]
      simp
  | some m =>
      have hhas : v.Has m .mask := v.has_iff.mp
        ⟨List.mem_of_find?_eq_some hfind, by simpa using List.find?_some hfind⟩
      rw [show v.mask = some m from hhas]
      simp [contains_and]

/-- The permissions of the owning group come from its entry, or from the mode bits that were set
from it. -/
theorem groupObj_perm (v : Sections) (hvalid : Valid v.acl) (perm : BitVec 32)
    (hctx : ctx.perm = posixAclAccessSetMode v.acl perm) :
    (if decide (v.acl.length > 3) then v.groupObj.perms else (ctx.perm &&& 0o070#32) >>> 3) =
      v.groupObj.perms := by
  split_ifs with hlong
  · rfl
  · have hnone : v.mask = none := by
      cases hm : v.mask with
      | none => rfl
      | some m =>
          refine absurd (decide_eq_true ?_) hlong
          simp only [Sections.acl, hm, List.length_cons, List.length_append, Option.toList_some,
            List.length_nil]
          omega
    rw [hctx]
    exact (setMode_bits v hvalid.perms perm).2.1 hnone

/-- The end of the walk. -/
theorem scan_tail (v : Sections) :
    scan frame ctx aclPresent want (v.mask.toList ++ [v.other]) found perm =
      if found then .red else .permCheck (ctx.perm &&& 0o007#32) := by
  cases hm : v.mask with
  | none => simp [scan, v.other_tag]
  | some m => simp [scan, v.mask_tag m hm, v.other_tag]

/-- **The walk over the groups** stops at the first matching group that contains the request. -/
theorem scan_groups (v : Sections)
    (hg : (if aclPresent then v.groupObj.perms else (ctx.perm &&& 0o070#32) >>> 3) =
      v.groupObj.perms) :
    (∃ ace ∈ v.acl, GroupMatches ctx frame ace ∧ Contains ace.perms want ∧
      scan frame ctx aclPresent want (v.groupObj :: (v.groups ++ (v.mask.toList ++ [v.other])))
        false perm = .maskCheck ace.perms) ∨
    (∀ ace ∈ v.acl, GroupMatches ctx frame ace → ¬ Contains ace.perms want) ∧
      ((∃ ace ∈ v.acl, GroupMatches ctx frame ace) →
        scan frame ctx aclPresent want (v.groupObj :: (v.groups ++ (v.mask.toList ++ [v.other])))
          false perm = .red) ∧
      ((¬ ∃ ace ∈ v.acl, GroupMatches ctx frame ace) →
        scan frame ctx aclPresent want (v.groupObj :: (v.groups ++ (v.mask.toList ++ [v.other])))
          false perm = .permCheck (ctx.perm &&& 0o007#32)) := by
  have hobj : v.groupObj ∈ v.acl := v.mem_acl.mpr (.inr (.inr (.inl rfl)))
  have hmatch : ∀ ace, ace ∈ v.acl ∧ GroupMatches ctx frame ace ↔
      ace = v.groupObj ∧ frameInGroup frame ctx.gid = true ∨
        ace ∈ v.groups ∧ frameInGroup frame ace.id = true := by
    intro ace
    have h1 : ace ∈ v.acl ∧ ace.tag = .groupObj ↔ ace = v.groupObj := v.has_iff
    have h2 : ace ∈ v.acl ∧ ace.tag = .group ↔ ace ∈ v.groups := v.has_iff
    rw [GroupMatches, and_or_left, ← and_assoc, ← and_assoc, h1, h2]
  by_cases hin : frameInGroup frame ctx.gid = true
  · by_cases hcontains : Contains v.groupObj.perms want
    · refine .inl ⟨v.groupObj, hobj, .inl ⟨v.groupObj_tag, hin⟩, hcontains, ?_⟩
      simp only [scan, v.groupObj_tag, hg, hin, if_true, if_pos hcontains]
    · have hstep : ∀ p, scan frame ctx aclPresent want
          (v.groupObj :: (v.groups ++ (v.mask.toList ++ [v.other]))) false p =
          scan frame ctx aclPresent want (v.groups ++ (v.mask.toList ++ [v.other])) true
            v.groupObj.perms := fun p => by
        simp only [scan, v.groupObj_tag, hg, hin, if_true, if_neg hcontains]
      rw [hstep]
      rcases scan_group v.groups_tag with ⟨ace, hace, hin', hcon, hscan⟩ | ⟨hall, perm', hscan⟩
      · exact .inl ⟨ace, (hmatch ace).mpr (.inr ⟨hace, hin'⟩) |>.1,
          (hmatch ace).mpr (.inr ⟨hace, hin'⟩) |>.2, hcon, hscan⟩
      · refine .inr ⟨fun ace hace hm => ?_, fun _ => ?_, fun hnone => ?_⟩
        · rcases (hmatch ace).mp ⟨hace, hm⟩ with ⟨rfl, -⟩ | ⟨hace, hin'⟩
          · exact hcontains
          · exact hall ace hace hin'
        · rw [hscan, scan_tail]
          rfl
        · exact absurd ⟨v.groupObj, (hmatch _).mpr (.inl ⟨rfl, hin⟩)⟩ hnone
  · have hstep : ∀ p, scan frame ctx aclPresent want
        (v.groupObj :: (v.groups ++ (v.mask.toList ++ [v.other]))) false p =
        scan frame ctx aclPresent want (v.groups ++ (v.mask.toList ++ [v.other])) false
          v.groupObj.perms := fun p => by
      simp only [scan, v.groupObj_tag, hg, if_neg hin]
    rw [hstep]
    rcases scan_group v.groups_tag with ⟨ace, hace, hin', hcon, hscan⟩ | ⟨hall, perm', hscan⟩
    · exact .inl ⟨ace, (hmatch ace).mpr (.inr ⟨hace, hin'⟩) |>.1,
        (hmatch ace).mpr (.inr ⟨hace, hin'⟩) |>.2, hcon, hscan⟩
    · refine .inr ⟨fun ace hace hm => ?_, fun hsome => ?_, fun hnone => ?_⟩
      · rcases (hmatch ace).mp ⟨hace, hm⟩ with ⟨-, hin'⟩ | ⟨hace, hin'⟩
        · exact absurd hin' hin
        · exact hall ace hace hin'
      · obtain ⟨ace, hace⟩ := hsome
        rcases (hmatch ace).mp hace with ⟨-, hin'⟩ | ⟨hace, hin'⟩
        · exact absurd hin' hin
        · have hany : (v.groups.any fun ace => frameInGroup frame ace.id) = true :=
            List.any_eq_true.mpr ⟨ace, hace, hin'⟩
          rw [hscan, scan_tail, hany]
          rfl
      · have hany : (v.groups.any fun ace => frameInGroup frame ace.id) = false := by
          refine List.any_eq_false.mpr fun ace hace hin' => hnone ⟨ace, ?_⟩
          exact (hmatch ace).mpr (.inr ⟨hace, hin'⟩)
        rw [hscan, scan_tail, hany]
        rfl

/-- **The verdict on a sorted valid ACL is that of POSIX.1e.** -/
theorem permits_sections (v : Sections) (hvalid : Valid v.acl) (perm : BitVec 32)
    (hctx : ctx.perm = posixAclAccessSetMode v.acl perm) :
    verdict v.acl want (scan frame ctx (decide (v.acl.length > 3)) want v.acl false 0) = true ↔
      PosixGrants v.acl ctx frame want := by
  obtain ⟨hu, -, -, ho⟩ := setMode_bits v hvalid.perms perm
  rw [← hctx] at hu ho
  have hg := groupObj_perm v hvalid perm hctx
  generalize decide (v.acl.length > 3) = present at hg ⊢
  have hscan : scan frame ctx present want v.acl false 0 =
      if frame.uid = ctx.uid then .permCheck v.userObj.perms
      else scan frame ctx present want
        (v.users ++ v.groupObj :: (v.groups ++ (v.mask.toList ++ [v.other]))) false
        v.userObj.perms := by
    rw [Sections.acl, scan, v.userObj_tag]
    simp only [hu]
  rw [hscan, PosixGrants]
  by_cases howner : frame.uid = ctx.uid
  · rw [if_pos howner, if_pos howner, v.exists_iff]
    simp [verdict, Sections.Has]
  rw [if_neg howner, if_neg howner]
  have huserIff : ∀ ace, ace ∈ v.acl ∧ UserMatches frame ace ↔
      ace ∈ v.users ∧ frame.uid = ace.id := by
    intro ace
    have h1 : ace ∈ v.acl ∧ ace.tag = .user ↔ ace ∈ v.users := v.has_iff
    rw [UserMatches, ← and_assoc, h1, eq_comm]
  rcases scan_user v.users_tag with ⟨ace, hace, hid, hjump⟩ | ⟨hnone, perm', hjump⟩
  · have hmatch := (huserIff ace).mpr ⟨hace, hid⟩
    rw [if_pos ⟨ace, hmatch⟩, hjump, verdict_maskCheck]
    refine ⟨fun h => ⟨ace, hmatch.1, hmatch.2, h⟩, ?_⟩
    rintro ⟨ace', hin, hmatch', h⟩
    -- the ids of the named users are distinct
    have hsame : ace' = ace := by
      refine List.inj_on_of_nodup_map hvalid.users (mem_filter_tag.mpr ⟨hin, hmatch'.1⟩)
        (mem_filter_tag.mpr ⟨hmatch.1, hmatch.2.1⟩) ?_
      exact hmatch'.2.trans hmatch.2.2.symm
    exact hsame ▸ h
  · have hno : ¬ ∃ ace ∈ v.acl, UserMatches frame ace := by
      rintro ⟨ace, hace⟩
      obtain ⟨hin, hid⟩ := (huserIff ace).mp hace
      exact hnone ace hin hid
    rw [if_neg hno, hjump]
    rcases scan_groups v hg with ⟨ace, hace, hmatch, hcon, hjump⟩ | ⟨hall, hred, hother⟩
    · rw [if_pos ⟨ace, hace, hmatch⟩, hjump, verdict_maskCheck]
      refine ⟨fun h => ⟨ace, hace, hmatch, h⟩, ?_⟩
      rintro ⟨ace', -, -, h⟩
      exact ⟨hcon, h.2⟩
    · by_cases hsome : ∃ ace ∈ v.acl, GroupMatches ctx frame ace
      · rw [if_pos hsome, hred hsome]
        refine iff_of_false (by simp [verdict]) ?_
        rintro ⟨ace, hace, hmatch, h⟩
        exact hall ace hace hmatch h.1
      · rw [if_neg hsome, hother hsome, v.exists_iff, ho]
        simp [verdict, Sections.Has]

end Permits

/-- The entries may come in any order. -/
theorem Valid.perm {acl acl' : List PosixAce} (h : Valid acl) (hp : acl'.Perm acl) :
    Valid acl' := by
  have hone : ∀ tag : Tag, (∃ ace, acl.filter (fun ace => ace.tag = tag) = [ace]) →
      ∃ ace, acl'.filter (fun ace => ace.tag = tag) = [ace] := by
    rintro tag ⟨ace, hace⟩
    have hf := hp.filter fun ace => decide (ace.tag = tag)
    rw [hace] at hf
    exact ⟨ace, List.perm_singleton.mp hf⟩
  refine ⟨hone _ h.userObj, hone _ h.groupObj, hone _ h.other, ?_, ?_, ?_, fun ace hace htag => ?_,
    fun ace hace => h.perms ace (hp.mem_iff.mp hace)⟩
  · exact ((hp.filter _).map _).nodup_iff.mpr h.users
  · exact ((hp.filter _).map _).nodup_iff.mpr h.groups
  · rw [(hp.filter _).length_eq]
    exact h.oneMask
  · obtain ⟨m, hm, hmtag⟩ := h.named ace (hp.mem_iff.mp hace) htag
    exact ⟨m, hp.mem_iff.mpr hm, hmtag⟩

theorem PosixGrants.perm {acl acl' : List PosixAce} {ctx ctx' : PosixAclCtx} {frame : Caller}
    {want : BitVec 32} (hp : acl'.Perm acl) (huid : ctx'.uid = ctx.uid) (hgid : ctx'.gid = ctx.gid) :
    PosixGrants acl' ctx' frame want ↔ PosixGrants acl ctx frame want := by
  have hgroup : ∀ ace, GroupMatches ctx' frame ace ↔ GroupMatches ctx frame ace := fun ace => by
    rw [GroupMatches, GroupMatches, hgid]
  have hmasked : ∀ ace, MaskedContains acl' want ace ↔ MaskedContains acl want ace := fun ace => by
    simp only [MaskedContains, hp.mem_iff]
  have hexists : ∀ {P P' : PosixAce → Prop}, (∀ ace, P' ace ↔ P ace) →
      ((∃ ace ∈ acl', P' ace) ↔ ∃ ace ∈ acl, P ace) := fun h =>
    exists_congr fun ace => and_congr hp.mem_iff (h ace)
  refine Iff.of_eq (if_congr (by rw [huid]) ?_ (if_congr (hexists fun _ => Iff.rfl) ?_
    (if_congr (hexists hgroup) ?_ ?_)))
  · exact propext (hexists fun _ => Iff.rfl)
  · exact propext (hexists fun ace => and_congr_right fun _ => hmasked ace)
  · exact propext (hexists fun ace => and_congr (hgroup ace) (hmasked ace))
  · exact propext (hexists fun _ => Iff.rfl)

/-- **`acl_permits` is the access check of POSIX.1e** for the entries that stand in an attribute, if
they are valid, for every caller and every request.  The order in which they stand there does not
matter. -/
theorem acl_permits_posix (superUid uid gid : BitVec 32) (buf : List UInt8)
    (entries : List PosixAce) (hread : xattrEntries buf = some entries) (hvalid : Valid entries)
    (perm : BitVec 32) (frame : Caller) (want : BitVec 32) :
    ∃ acl, posixAclFromXattr buf = some acl ∧
      (aclPermits superUid ⟨uid, gid, posixAclAccessSetMode acl perm⟩ acl frame want = true ↔
        frameIsSuperUser superUid frame = true ∨
          PosixGrants entries ⟨uid, gid, posixAclAccessSetMode acl perm⟩ frame want) ∧
      ∀ (buf' : List UInt8) (entries' : List PosixAce) (perm' : BitVec 32),
        xattrEntries buf' = some entries' → entries'.Perm entries →
        ∃ acl', posixAclFromXattr buf' = some acl' ∧
          aclPermits superUid ⟨uid, gid, posixAclAccessSetMode acl' perm'⟩ acl' frame want =
            aclPermits superUid ⟨uid, gid, posixAclAccessSetMode acl perm⟩ acl frame want := by
  have hone : ∀ (entries : List PosixAce) (perm : BitVec 32), Valid entries →
      (aclPermits superUid ⟨uid, gid, posixAclAccessSetMode (posixAclNormalize entries) perm⟩
          (posixAclNormalize entries) frame want = true ↔
        frameIsSuperUser superUid frame = true ∨ PosixGrants entries
          ⟨uid, gid, posixAclAccessSetMode (posixAclNormalize entries) perm⟩ frame want) := by
    intro entries perm hvalid
    have hperm := posixAclNormalize_perm entries
    have hnormal := hvalid.perm hperm
    rw [← PosixGrants.perm hperm rfl rfl]
    obtain ⟨v, hv⟩ := hnormal.sections (posixAclNormalize_sorted entries)
    rw [hv] at hnormal ⊢
    unfold aclPermits
    by_cases hsuper : frameIsSuperUser superUid frame = true
    · simp [hsuper]
    · rw [if_neg hsuper, permits_sections v hnormal perm rfl, or_iff_right hsuper]
  refine ⟨_, by rw [posixAclFromXattr_eq, hread, Option.map_some], hone entries perm hvalid,
    fun buf' entries' perm' hread' hp => ?_⟩
  refine ⟨_, by rw [posixAclFromXattr_eq, hread', Option.map_some], ?_⟩
  rw [Bool.eq_iff_iff, hone entries perm hvalid, hone entries' perm' (hvalid.perm hp)]
  exact or_congr_right (PosixGrants.perm hp rfl rfl)

/-- An attribute whose entries are not in order: the owner may do all, the user 4000000000 may read
and write, the user 7 and the group 100 may read, the owning group and the others may do nothing,
and the mask is read only. -/
def sampleXattr : List UInt8 :=
  [2, 0, 0, 0, 0x20, 0, 0, 0, 0, 0, 0, 0, 0x10, 0, 4, 0, 0, 0, 0, 0,
    2, 0, 6, 0, 0, 0x28, 0x6b, 0xee, 2, 0, 4, 0, 7, 0, 0, 0, 8, 0, 4, 0, 100, 0, 0, 0,
    1, 0, 7, 0, 0, 0, 0, 0, 4, 0, 0, 0, 0, 0, 0, 0]

/-- The entries of `sampleXattr`. -/
def sampleAcl : List PosixAce :=
  [⟨.other, 0, undefinedId⟩, ⟨.mask, 4, undefinedId⟩, ⟨.user, 6, 4000000000⟩, ⟨.user, 4, 7⟩,
    ⟨.group, 4, 100⟩, ⟨.userObj, 7, undefinedId⟩, ⟨.groupObj, 0, 0⟩]

theorem sampleXattr_entries : xattrEntries sampleXattr = some sampleAcl := by decide +kernel

theorem sampleAcl_valid : Valid sampleAcl where
  userObj := ⟨⟨.userObj, 7, undefinedId⟩, by decide⟩
  groupObj := ⟨⟨.groupObj, 0, 0⟩, by decide⟩
  other := ⟨⟨.other, 0, undefinedId⟩, by decide⟩
  users := by decide
  groups := by decide
  oneMask := by decide
  named := fun _ _ _ => ⟨⟨.mask, 4, undefinedId⟩, by decide, rfl⟩
  perms := by decide

/-- The user 4000000000 may read. -/
theorem acl_permits_posix_sample : ∃ acl, posixAclFromXattr sampleXattr = some acl ∧
    aclPermits 0 ⟨1000, 1000, posixAclAccessSetMode acl 0⟩ acl ⟨4000000000, 5, [100]⟩ 4 = true := by
  obtain ⟨acl, hparse, hverdict, -⟩ := acl_permits_posix 0 1000 1000 sampleXattr sampleAcl
    sampleXattr_entries sampleAcl_valid 0 ⟨4000000000, 5, [100]⟩ 4
  refine ⟨acl, hparse, hverdict.mpr (.inr ?_)⟩
  rw [PosixGrants, if_neg (show ¬ (4000000000 : BitVec 32) = 1000 by decide), if_pos (by decide)]
  refine ⟨⟨.user, 6, 4000000000⟩, by decide, by decide, by decide, ?_⟩
  decide

end GlusterFS.Acl
