import GlusterFS.Dht.Anomalies

/-!
# The layout of a directory on its subvolumes

`dht_disk_layout_extract` turns an entry of a layout into the 16 bytes that the subvolume keeps in
an extended attribute.  A lookup asks all subvolumes, and `dht_layout_merge` puts their answers
together as they come; `dht_layout_normalize` sorts the result and looks for anomalies.
`dht_layout_dir_mismatch` compares an answer with a layout that the client has.

The order of the answers is not that of the layout, and the sort puts the entries `0-0` of the
subvolumes that take no part in front.  `directory_layout_survives_disk` says what is the same
afterwards, and what is not.
-/

namespace GlusterFS.Dht

open KeyedSort Tiling

/-! ## The bytes -/

/-- `hton32`, as the bytes in memory. -/
def hton32 (x : ℕ) : List UInt8 :=
  [.ofNat (x / 2 ^ 24), .ofNat (x / 2 ^ 16), .ofNat (x / 2 ^ 8), .ofNat x]

/-- `ntoh32` of the word `k`. -/
def ntoh32 (raw : List UInt8) (k : ℕ) : ℕ :=
  (raw.getD (4 * k) 0).toNat * 2 ^ 24 + (raw.getD (4 * k + 1) 0).toNat * 2 ^ 16 +
    (raw.getD (4 * k + 2) 0).toNat * 2 ^ 8 + (raw.getD (4 * k + 3) 0).toNat

/-- `dht_disk_layout_extract`: a count of 1, the type, and the range. -/
def dhtDiskLayoutExtract (type : ℕ) (e : LayoutEntry) : List UInt8 :=
  hton32 1 ++ hton32 type ++ hton32 e.start ++ hton32 e.stop

/-- `DHT_HASH_TYPE_DM` and `DHT_HASH_TYPE_DM_USER`. -/
def hashTypeDm : ℕ := 0

@[inherit_doc hashTypeDm]
def hashTypeDmUser : ℕ := 1

/-! ## Lookups -/

/-- An entry of a layout that is being put together; its subvolume may not be known. -/
structure MergeEntry where
  err : ℤ
  start : ℕ
  stop : ℕ
  xlator : Option ℕ
  deriving DecidableEq, Repr

/-- An entry after `GF_CALLOC`. -/
def MergeEntry.blank : MergeEntry := ⟨0, 0, 0, none⟩

/-- A layout that is being put together. -/
structure MergeLayout where
  type : ℕ
  list : List MergeEntry
  deriving DecidableEq, Repr

/-- `dht_layout_new`. -/
def dhtLayoutNew (cnt : ℕ) : MergeLayout := ⟨hashTypeDm, List.replicate cnt MergeEntry.blank⟩

/-- `dht_disk_layout_merge`; `none` is an attribute that it refuses. -/
def dhtDiskLayoutMerge (layout : MergeLayout) (pos : ℕ) (raw : List UInt8) : Option MergeLayout :=
  if ntoh32 raw 0 ≠ 1 then none
  else if ntoh32 raw 1 ≠ hashTypeDmUser ∧ ntoh32 raw 1 ≠ hashTypeDm then none
  else some
    { type := if ntoh32 raw 1 = hashTypeDmUser then hashTypeDmUser else layout.type
      list := layout.list.modify pos fun e =>
        { e with start := ntoh32 raw 2, stop := ntoh32 raw 3 } }

/-- The entry has a subvolume, which has not answered, or not as it should. -/
def MergeLayout.claim (layout : MergeLayout) (i : ℕ) (err : ℤ) (subvol : ℕ) : MergeLayout :=
  { layout with list := layout.list.modify i fun e => { e with err, xlator := some subvol } }

/-- `layout->list[i].err = 0`. -/
def MergeLayout.found (layout : MergeLayout) (i : ℕ) : MergeLayout :=
  { layout with list := layout.list.modify i fun e => { e with err := 0 } }

/-- `dht_layout_merge` from the entry on that it has found, and what it returns. -/
def mergeAt (layout : MergeLayout) (i subvol : ℕ) (opRet opErrno : ℤ) :
    Option (List UInt8) → MergeLayout × ℤ
  | none =>
    if opRet ≠ 0 then (layout.claim i opErrno subvol, 0)
    else ((layout.claim i (-1) subvol).found i, 0)
  | some raw =>
    if opRet ≠ 0 then (layout.claim i opErrno subvol, 0)
    else
      match dhtDiskLayoutMerge (layout.claim i (-1) subvol) i raw with
      | none => (layout.claim i (-1) subvol, -1)
      | some layout => (layout.found i, 0)

/-- `dht_layout_merge`: the first entry without a subvolume; `none` would be an answer too many. -/
def dhtLayoutMerge (layout : MergeLayout) (subvol : ℕ) (opRet opErrno : ℤ)
    (xattr : Option (List UInt8)) : Option (MergeLayout × ℤ) :=
  (layout.list.findIdx? (·.xlator.isNone)).map fun i =>
    mergeAt layout i subvol opRet opErrno xattr

/-- An answer to the lookup of a directory. -/
structure DirReply where
  subvol : ℕ
  opRet : ℤ
  opErrno : ℤ
  xattr : Option (List UInt8)
  deriving DecidableEq, Repr

/-- The answers, as they come. -/
def mergeAll (cnt : ℕ) (replies : List DirReply) : Option MergeLayout :=
  replies.foldlM (fun layout r =>
    (dhtLayoutMerge layout r.subvol r.opRet r.opErrno r.xattr).map Prod.fst) (dhtLayoutNew cnt)

/-- The entries of a layout to which all subvolumes have answered. -/
def MergeLayout.entries (layout : MergeLayout) : List LayoutEntry :=
  layout.list.filterMap fun e => e.xlator.map fun x => ⟨e.err, e.start, e.stop, x⟩

/-- `dht_layout_search`: the subvolume. -/
def hashedSubvol (list : List LayoutEntry) (hash : ℕ) : Option ℕ :=
  (dhtLayoutSearch list hash).bind fun i => list[i]?.map (·.xlator)

/-- `dht_layout_dir_mismatch`, for an attribute that is there. -/
def dhtLayoutDirMismatch (list : List LayoutEntry) (subvol : ℕ) (raw : List UInt8) : ℤ :=
  match list.find? (·.xlator == subvol) with
  | none => 1
  | some e =>
    if ntoh32 raw 0 ≠ 1 then -1
    else if e.start ≠ ntoh32 raw 2 ∨ e.stop ≠ ntoh32 raw 3 then 1 else 0

/-! ## Words -/

theorem toNat_bytes {x : ℕ} (hx : x < 2 ^ 32) :
    (UInt8.ofNat (x / 2 ^ 24)).toNat * 2 ^ 24 + (UInt8.ofNat (x / 2 ^ 16)).toNat * 2 ^ 16 +
      (UInt8.ofNat (x / 2 ^ 8)).toNat * 2 ^ 8 + (UInt8.ofNat x).toNat = x := by
  simp only [UInt8.toNat_ofNat']
  omega

/-- The words of what `dht_disk_layout_extract` writes. -/
theorem ntoh32_extract {type : ℕ} {e : LayoutEntry} (htype : type < 2 ^ 32)
    (hstart : e.start < 2 ^ 32)
    (hstop : e.stop < 2 ^ 32) :
    ntoh32 (dhtDiskLayoutExtract type e) 0 = 1 ∧ ntoh32 (dhtDiskLayoutExtract type e) 1 = type ∧
      ntoh32 (dhtDiskLayoutExtract type e) 2 = e.start ∧
      ntoh32 (dhtDiskLayoutExtract type e) 3 = e.stop :=
  ⟨toNat_bytes (x := 1) (by norm_num), toNat_bytes htype, toNat_bytes hstart, toNat_bytes hstop⟩

/-! ## The answers -/

/-- The answer of a subvolume that has the entry on disk. -/
def LayoutEntry.reply (type : ℕ) (e : LayoutEntry) : DirReply :=
  ⟨e.xlator, 0, 0, some (dhtDiskLayoutExtract type e)⟩

/-- An entry that a subvolume has answered with. -/
def LayoutEntry.merged (e : LayoutEntry) : MergeEntry := ⟨0, e.start, e.stop, some e.xlator⟩

/-- An entry without its error. -/
def LayoutEntry.cleared (e : LayoutEntry) : LayoutEntry := { e with err := 0 }

theorem modify_length_append {α : Type*} (l : List α) (x : α) (rest : List α) (f : α → α) :
    (l ++ x :: rest).modify l.length f = l ++ f x :: rest := by
  induction l with
  | nil => rfl
  | cons y l ih => simpa using ih

theorem findIdx?_isNone (done : List LayoutEntry) (k : ℕ) :
    (done.map LayoutEntry.merged ++ List.replicate (k + 1) MergeEntry.blank).findIdx?
      (·.xlator.isNone) = some done.length := by
  rw [List.findIdx?_append]
  have hnone : (done.map LayoutEntry.merged).findIdx? (·.xlator.isNone) = none := by
    simp [List.findIdx?_eq_none_iff, LayoutEntry.merged]
  rw [hnone, List.replicate_succ, List.findIdx?_cons]
  simp [MergeEntry.blank]

theorem hashType_lt {type : ℕ} (htype : type = hashTypeDm ∨ type = hashTypeDmUser) :
    type < 2 ^ 32 := by
  have hle : type ≤ 1 := by
    rcases htype with rfl | rfl
    · exact Nat.zero_le 1
    · exact Nat.le_refl 1
  omega

/-- An attribute of one of the two types is taken over. -/
theorem dhtDiskLayoutMerge_found {type : ℕ} (htype : type = hashTypeDm ∨ type = hashTypeDmUser)
    (layout : MergeLayout) (pos : ℕ) {raw : List UInt8} (hcount : ntoh32 raw 0 = 1)
    (htyp : ntoh32 raw 1 = type) :
    dhtDiskLayoutMerge layout pos raw = some
      ⟨if type = hashTypeDmUser then hashTypeDmUser else layout.type,
        layout.list.modify pos fun e =>
          { e with start := ntoh32 raw 2, stop := ntoh32 raw 3 }⟩ := by
  have hgood : ¬ (type ≠ hashTypeDmUser ∧ type ≠ hashTypeDm) := by
    rcases htype with rfl | rfl <;> decide
  rw [dhtDiskLayoutMerge, if_neg (not_not.mpr hcount), htyp, if_neg hgood]

/-- An answer goes to the first entry that is free. -/
theorem dhtLayoutMerge_found {type ty : ℕ} (htype : type = hashTypeDm ∨ type = hashTypeDmUser)
    (done : List LayoutEntry) (k : ℕ) {e : LayoutEntry} {raw : List UInt8}
    (hcount : ntoh32 raw 0 = 1)
    (htyp : ntoh32 raw 1 = type) (hstart : ntoh32 raw 2 = e.start) (hstop : ntoh32 raw 3 = e.stop) :
    dhtLayoutMerge ⟨ty, done.map LayoutEntry.merged ++ List.replicate (k + 1) MergeEntry.blank⟩
        e.xlator 0 0 (some raw)
      = some (⟨if type = hashTypeDmUser then hashTypeDmUser else ty,
          (done ++ [e]).map LayoutEntry.merged ++ List.replicate k MergeEntry.blank⟩, 0) := by
  have hmodify (f : MergeEntry → MergeEntry) (x : MergeEntry) (rest : List MergeEntry) :
      (done.map LayoutEntry.merged ++ x :: rest).modify done.length f
        = done.map LayoutEntry.merged ++ f x :: rest := by
    simpa using modify_length_append (done.map LayoutEntry.merged) x rest f
  rw [dhtLayoutMerge, findIdx?_isNone, Option.map_some, mergeAt, if_neg (not_not.mpr rfl),
    dhtDiskLayoutMerge_found htype _ _ hcount htyp, hstart, hstop]
  simp only [MergeLayout.claim, MergeLayout.found, List.replicate_succ, hmodify, List.map_append,
    List.append_assoc]
  rfl

/-- All answers of a layout that is on disk. -/
theorem mergeAll_replies {type : ℕ} (htype : type = hashTypeDm ∨ type = hashTypeDmUser)
    {order : List LayoutEntry} (hproper : Proper order) (hne : order ≠ []) :
    mergeAll order.length (order.map (·.reply type))
      = some ⟨type, order.map LayoutEntry.merged⟩ := by
  suffices h : ∀ (done : List LayoutEntry) (ty : ℕ), (order.map (·.reply type)).foldlM
      (fun layout r => (dhtLayoutMerge layout r.subvol r.opRet r.opErrno r.xattr).map Prod.fst)
      (⟨ty, done.map LayoutEntry.merged ++ List.replicate order.length MergeEntry.blank⟩ :
        MergeLayout)
      = some ⟨if order = [] then ty else if type = hashTypeDmUser then hashTypeDmUser else ty,
          (done ++ order).map LayoutEntry.merged⟩ by
    have := h [] hashTypeDm
    rw [if_neg hne] at this
    rw [mergeAll, dhtLayoutNew]
    rcases htype with rfl | rfl <;> simpa [hashTypeDm, hashTypeDmUser] using this
  clear hne
  induction order with
  | nil => intro done ty; simp
  | cons e order ih =>
    intro done ty
    have he := hproper e List.mem_cons_self
    obtain ⟨hcount, htyp, hstart, hstop⟩ :=
      ntoh32_extract (hashType_lt htype) (show e.start < 2 ^ 32 by omega) he.2
    rw [List.map_cons, List.foldlM_cons, List.length_cons, LayoutEntry.reply,
      dhtLayoutMerge_found htype done order.length hcount htyp hstart hstop, Option.map_some,
      Option.bind_eq_bind, Option.bind_some, ih (fun x hx => hproper x (List.mem_cons_of_mem _ hx))]
    by_cases hnil : order = []
    · simp [hnil]
    · by_cases huser : type = hashTypeDmUser <;> simp [hnil, huser]

/-! ## The search -/

section Search

variable {list : List LayoutEntry} {hash : ℕ}

/-- The range of the entry has the hash. -/
def LayoutEntry.has (hash : ℕ) (e : LayoutEntry) : Bool :=
  decide (e.start ≤ hash) && decide (hash ≤ e.stop)

theorem LayoutEntry.has_iff {e : LayoutEntry} :
    e.has hash = true ↔ e.start ≤ hash ∧ hash ≤ e.stop := by
  simp [LayoutEntry.has]

theorem hashedSubvol_eq (list : List LayoutEntry) (hash : ℕ) :
    hashedSubvol list hash = (list.find? (·.has hash)).map (·.xlator) := by
  rw [hashedSubvol, dhtLayoutSearch]
  induction list with
  | nil => rfl
  | cons e list ih =>
    rw [List.findIdx?_cons, List.find?_cons]
    cases he : e.has hash with
    | true =>
      have hp : (decide (e.start ≤ hash) && decide (hash ≤ e.stop)) = true := he
      simp [hp]
    | false =>
      have hp : (decide (e.start ≤ hash) && decide (hash ≤ e.stop)) = false := he
      rw [hp, if_neg (by decide), ← ih, Option.bind_map]
      rfl

theorem find?_eq_of_unique {α : Type*} {l : List α} {p : α → Bool} {x : α} (hx : x ∈ l)
    (hp : p x = true) (hunique : ∀ y ∈ l, p y = true → y = x) : l.find? p = some x := by
  cases h : l.find? p with
  | none => exact absurd hp (List.find?_eq_none.mp h x hx)
  | some y => rw [hunique y (List.mem_of_find?_eq_some h) (List.find?_some h)]

/-- Two entries that take part do not share a hash. -/
theorem eq_of_has (htiles : Tiles (2 ^ 32) 0 ((participants list).map LayoutEntry.range))
    {e e' : LayoutEntry} (he : e ∈ participants list) (he' : e' ∈ participants list)
    (hhas : e.has hash = true) (hhas' : e'.has hash = true) : e' = e := by
  by_contra hne
  have hapart := List.pairwise_map.mp htiles.apart
  have hsymm : Std.Symm fun a b : LayoutEntry => Apart a.range b.range := ⟨fun _ _ => Apart.symm⟩
  have h := List.Pairwise.forall hapart he he' (Ne.symm hne)
  rw [LayoutEntry.has_iff] at hhas hhas'
  simp only [Apart, LayoutEntry.range] at h
  omega

/-- The entry whose range has the hash. -/
theorem exists_has (htiles : Tiles (2 ^ 32) 0 ((participants list).map LayoutEntry.range))
    (hhash : hash < 2 ^ 32) : ∃ e ∈ participants list, e.has hash = true := by
  obtain ⟨r, hr, hin⟩ := htiles.cover hash (Nat.zero_le _) hhash
  obtain ⟨e, he, rfl⟩ := List.mem_map.mp hr
  exact ⟨e, he, LayoutEntry.has_iff.mpr hin⟩

end Search

/-! ## The round trip -/

section RoundTrip

variable {list order : List LayoutEntry}

theorem entries_merged (order : List LayoutEntry) (type : ℕ) :
    (⟨type, order.map LayoutEntry.merged⟩ : MergeLayout).entries
      = order.map LayoutEntry.cleared := by
  rw [MergeLayout.entries, List.filterMap_map, ← List.filterMap_eq_map]
  rfl

theorem participants_cleared (order : List LayoutEntry) :
    participants (order.map LayoutEntry.cleared)
      = (participants order).map LayoutEntry.cleared := by
  rw [participants, participants, List.filter_map]
  rfl

theorem proper_cleared (h : Proper order) : Proper (order.map LayoutEntry.cleared) := by
  intro e he
  obtain ⟨x, hx, rfl⟩ := List.mem_map.mp he
  exact h x hx

/-- What is read back takes up the hash space as the layout did. -/
theorem tiles_back (hperm : order.Perm list) (hproper : Proper list)
    (htiles : Tiles (2 ^ 32) 0 ((participants list).map LayoutEntry.range)) :
    Tiles (2 ^ 32) 0
      ((participants (dhtLayoutSort (order.map LayoutEntry.cleared))).map LayoutEntry.range) := by
  have hproper' : Proper order := fun e he => hproper e (hperm.mem_iff.mp he)
  obtain ⟨hsort, _⟩ := sorted_dhtLayoutSort (proper_cleared hproper')
  have hparts : ((participants list).map LayoutEntry.range).Perm
      ((participants (dhtLayoutSort (order.map LayoutEntry.cleared))).map LayoutEntry.range) := by
    refine .trans ?_ ((hsort.filter _).map _).symm
    have hcleared := participants_cleared order
    rw [participants] at hcleared
    rw [hcleared, List.map_map]
    exact (hperm.symm.filter _).map _
  exact htiles.perm hparts

theorem mem_back (hperm : order.Perm list) (hproper : Proper list) {x : LayoutEntry} :
    x ∈ dhtLayoutSort (order.map LayoutEntry.cleared) ↔ ∃ e ∈ list, e.cleared = x := by
  have hproper' : Proper order := fun e he => hproper e (hperm.mem_iff.mp he)
  rw [(sorted_dhtLayoutSort (proper_cleared hproper')).1.mem_iff, List.mem_map]
  exact exists_congr fun e => and_congr_left fun _ => hperm.mem_iff

/-- An entry with a hash takes part, unless it is `0-0` and the hash is 0. -/
theorem participant_of_has (hrest : ∀ e ∈ list, e.start < e.stop ∨ e.Zeroed) {hash : ℕ}
    (hhash : hash ≠ 0 ∨ ∀ e ∈ list, ¬ e.Zeroed) {e : LayoutEntry} (he : e ∈ list)
    (hhas : e.has hash = true) : e ∈ participants list := by
  refine mem_participants.mpr ⟨he, (hrest e he).resolve_right fun hz => ?_⟩
  rcases hhash with hne | hnone
  · rw [LayoutEntry.has_iff, hz.1, hz.2] at hhas
    omega
  · exact hnone e he hz

/-- What is read back has no anomalies. -/
theorem clean_back (hperm : order.Perm list) (hproper : Proper list)
    (htiles : Tiles (2 ^ 32) 0 ((participants list).map LayoutEntry.range)) :
    Clean (dhtLayoutSort (order.map LayoutEntry.cleared)) := by
  have hproper' : Proper order := fun e he => hproper e (hperm.mem_iff.mp he)
  have hback := tiles_back hperm hproper htiles
  obtain ⟨hsort, hbefore⟩ := sorted_dhtLayoutSort (proper_cleared hproper')
  refine clean_of_tiles hbefore (fun e he => ?_) (fun e he => ?_) hback
  · exact proper_cleared hproper' e (hsort.mem_iff.mp he)
  · obtain ⟨x, _, rfl⟩ := (mem_back hperm hproper).mp he
    rfl

/-- The one entry with the hash is found in the layout and in what is read back. -/
theorem hashedSubvol_back (hperm : order.Perm list) (hproper : Proper list)
    (htiles : Tiles (2 ^ 32) 0 ((participants list).map LayoutEntry.range))
    (hrest : ∀ e ∈ list, e.start < e.stop ∨ e.Zeroed) {hash : ℕ} (hlt : hash < 2 ^ 32)
    (hhash : hash ≠ 0 ∨ ∀ e ∈ list, ¬ e.Zeroed) :
    (hashedSubvol list hash).isSome = true ∧
      hashedSubvol (dhtLayoutSort (order.map LayoutEntry.cleared)) hash
        = hashedSubvol list hash := by
  obtain ⟨e, he, hhas⟩ := exists_has htiles hlt
  have hmem := (mem_participants.mp he).1
  have hunique (y : LayoutEntry) (hy : y ∈ list) (hyhas : y.has hash = true) : y = e :=
    eq_of_has htiles he (participant_of_has hrest hhash hy hyhas) hhas hyhas
  have hlist : list.find? (·.has hash) = some e := find?_eq_of_unique hmem hhas hunique
  have hfind : (dhtLayoutSort (order.map LayoutEntry.cleared)).find? (·.has hash)
      = some e.cleared := by
    refine find?_eq_of_unique ((mem_back hperm hproper).mpr ⟨e, hmem, rfl⟩) hhas
      fun y hy hyhas => ?_
    obtain ⟨x, hx, rfl⟩ := (mem_back hperm hproper).mp hy
    rw [hunique x hx hyhas]
  rw [hashedSubvol_eq, hashedSubvol_eq, hlist, hfind]
  exact ⟨rfl, rfl⟩

/-- The entries `0-0` are sorted to the front, so one of them is found for the hash 0. -/
theorem hashedSubvol_back_zero (hperm : order.Perm list) (hproper : Proper list) {z : LayoutEntry}
    (hz : z ∈ list) (hzz : z.Zeroed) :
    ∃ e ∈ list, e.Zeroed ∧
      hashedSubvol (dhtLayoutSort (order.map LayoutEntry.cleared)) 0 = some e.xlator := by
  have hproper' : Proper order := fun e he => hproper e (hperm.mem_iff.mp he)
  obtain ⟨_, hbefore⟩ := sorted_dhtLayoutSort (proper_cleared hproper')
  have hzmem := (mem_back hperm hproper).mpr ⟨z, hz, rfl⟩
  have hzhas : z.cleared.has 0 = true := LayoutEntry.has_iff.mpr ⟨hzz.1.le, Nat.zero_le _⟩
  cases hfind : (dhtLayoutSort (order.map LayoutEntry.cleared)).find? (·.has 0) with
  | none => exact absurd hzhas (List.find?_eq_none.mp hfind _ hzmem)
  | some y =>
    obtain ⟨_, before, after, heq, hnone⟩ := List.find?_eq_some_iff_append.mp hfind
    obtain ⟨x, hx, rfl⟩ := (mem_back hperm hproper).mp (List.mem_of_find?_eq_some hfind)
    refine ⟨x, hx, ?_, by rw [hashedSubvol_eq, hfind]; rfl⟩
    rw [heq] at hzmem hbefore
    rcases List.mem_append.mp hzmem with hin | hin
    · -- the first entry with the hash 0 would come before the one that is found
      have := hnone _ hin
      simp [hzhas] at this
    · rcases List.mem_cons.mp hin with hin | hin
      · have hxz : x.cleared.Zeroed := hin ▸ hzz
        exact hxz
      · rcases (List.pairwise_cons.mp (List.pairwise_append.mp hbefore).2.1).1 _ hin with
          hxz | ⟨hnz, _⟩
        · exact hxz
        · exact absurd hzz hnz

theorem dirMismatch_extract {type : ℕ} (htype : type = hashTypeDm ∨ type = hashTypeDmUser)
    (hproper : Proper list) (hnodup : (list.map (·.xlator)).Nodup) {e : LayoutEntry}
    (he : e ∈ list) : dhtLayoutDirMismatch list e.xlator (dhtDiskLayoutExtract type e) = 0 := by
  obtain ⟨hle, hlt⟩ := hproper e he
  obtain ⟨hcount, _, hstart, hstop⟩ :=
    ntoh32_extract (hashType_lt htype) (show e.start < 2 ^ 32 by omega) hlt
  have hfind : list.find? (·.xlator == e.xlator) = some e := by
    refine find?_eq_of_unique he (by simp) fun y hy hxl => ?_
    exact List.inj_on_of_nodup_map hnodup hy he (by simpa using hxl)
  rw [dhtLayoutDirMismatch, hfind]
  simp [hcount, hstart, hstop]

end RoundTrip

/-- **The layout of a directory survives on its subvolumes.**  A layout whose ranges tile the hash
space is written, each entry to its subvolume, and read back from the answers to a lookup, in
whatever order they come: it has no anomalies, and every name is looked for on the same subvolume as
before.  If some subvolume takes no part, that is not so for the hash 0: it leads to a subvolume
that takes no part.  And no subvolume is found to disagree with the layout. -/
theorem directory_layout_survives_disk {type : ℕ}
    (htype : type = hashTypeDm ∨ type = hashTypeDmUser) {list order : List LayoutEntry}
    (hperm : order.Perm list) (hproper : Proper list)
    (htiles : Tiles (2 ^ 32) 0 ((participants list).map LayoutEntry.range))
    (hrest : ∀ e ∈ list, e.start < e.stop ∨ e.Zeroed) :
    ∃ layout, mergeAll list.length (order.map (·.reply type)) = some layout ∧ layout.type = type ∧
      Clean (dhtLayoutSort layout.entries) ∧
      (∀ hash < 2 ^ 32, (hash ≠ 0 ∨ ∀ e ∈ list, ¬ e.Zeroed) →
        (hashedSubvol list hash).isSome = true ∧
          hashedSubvol (dhtLayoutSort layout.entries) hash = hashedSubvol list hash) ∧
      ((∃ e ∈ list, e.Zeroed) →
        ∃ e ∈ list, e.Zeroed ∧ hashedSubvol (dhtLayoutSort layout.entries) 0 = some e.xlator) ∧
      ((list.map (·.xlator)).Nodup →
        ∀ e ∈ list, dhtLayoutDirMismatch list e.xlator (dhtDiskLayoutExtract type e) = 0) := by
  have hproper' : Proper order := fun e he => hproper e (hperm.mem_iff.mp he)
  have hne : order ≠ [] := by
    rintro rfl
    obtain ⟨e, he, _⟩ := exists_has htiles (show 0 < 2 ^ 32 by norm_num)
    rw [← hperm.nil_eq] at he
    cases he
  refine ⟨⟨type, order.map LayoutEntry.merged⟩, ?_, rfl, ?_⟩
  · rw [← hperm.length_eq]
    exact mergeAll_replies htype hproper' hne
  rw [entries_merged]
  refine ⟨clean_back hperm hproper htiles, fun hash hlt hhash => ?_, ?_, fun hnodup e he => ?_⟩
  · exact hashedSubvol_back hperm hproper htiles hrest hlt hhash
  · rintro ⟨z, hz, hzz⟩
    exact hashedSubvol_back_zero hperm hproper hz hzz
  · exact dirMismatch_extract htype hproper hnodup he

/-- Two halves and a subvolume without a range, read back in reverse. -/
theorem directory_layout_survives_disk_reversed :
    ∃ layout, mergeAll 3 (twoHalves.reverse.map (·.reply hashTypeDm)) = some layout ∧
      Clean (dhtLayoutSort layout.entries) ∧
      ∃ e ∈ twoHalves,
        e.Zeroed ∧ hashedSubvol (dhtLayoutSort layout.entries) 0 = some e.xlator := by
  have hproper : Proper twoHalves := by
    unfold Proper
    decide
  have htiles : Tiles (2 ^ 32) 0 ((participants twoHalves).map LayoutEntry.range) := by
    have hranges : (participants twoHalves).map LayoutEntry.range
        = [(2 ^ 31, 2 ^ 32 - 1), (0, 2 ^ 31 - 1)] := by decide
    rw [hranges]
    refine ⟨by decide, by simp [Apart], fun x _ hx => ?_⟩
    by_cases h : x < 2 ^ 31
    · exact ⟨(0, 2 ^ 31 - 1), by simp, Nat.zero_le _, by simp only; omega⟩
    · exact ⟨(2 ^ 31, 2 ^ 32 - 1), by simp, not_lt.mp h, by simp only; omega⟩
  obtain ⟨layout, hmerge, _, hclean, _, hzero, _⟩ := directory_layout_survives_disk (Or.inl rfl)
    (List.reverse_perm twoHalves) hproper htiles (by decide)
  exact ⟨layout, hmerge, hclean, hzero ⟨⟨0, 0, 0, 3⟩, by decide, by decide⟩⟩

end GlusterFS.Dht
