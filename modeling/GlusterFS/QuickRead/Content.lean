import GlusterFS.Ec.LookupContent
import GlusterFS.Lib.Machine

/-!
# quick-read over a disperse volume

`quick-read` asks for the content of small files in the lookup and answers reads from it.  Three
translators compute lengths on the way: `qr_lookup` asks for `max_file_size` bytes, `ec` asks every
brick for that many bytes **rounded up to whole stripes**, `posix` returns its fragment if it is no
longer than that, `ec` cuts the decoded bytes at `max_file_size`, and `qr_content_update` takes the
**length from the attributes** of the file.

For a file that does not change, `cachedReads_exact_iff` says for every geometry, every value of the
option and every file when all states that `quick-read` can reach are right (`CacheOk`): unless the
file is longer than `max_file_size` and not longer than `max_file_size` rounded up to whole stripes.
Such a file is cached with `max_file_size` bytes of content and its own, larger size, and
`qr_readv_cached` copies what lies behind the content in memory.
-/

namespace GlusterFS.QuickRead

open Ec Striped

/-! ## The model -/

/-- The value of the option `max-file-size`: at most `1 * GF_UNIT_KB * 1000`. -/
abbrev MaxFileSize : Type := { n : ℕ // n ≤ 1024000 }

/-- What the cache knows of the attributes: `ia_size` and the modification time. -/
structure Iatt where
  iaSize : ℕ
  iaMtime : ℕ

/-- The `qr_inode`: `data`, `size` and `ia_mtime`. -/
structure QrInode where
  data : Option (List Byte)
  size : ℕ
  iaMtime : ℕ

/-- `_posix_xattr_get_set` for `glusterfs.content`, with the size asked for. -/
def posixContent (fragment : List Byte) (request : Option ℕ) : Option (List Byte) :=
  request.bind fun reqSize => if fragment.length ≤ reqSize then some fragment else none

/-- The lookup of `ec` with the answers of the bricks `rows`. -/
def ecLookup (g : Geometry) (t : GfTables) (junk : ℕ → Byte) (f : File Byte)
    (request : Option ℕ) (rows : List ℕ) : Option DictValue :=
  ecLookupRebuild g t junk (request.getD 0) f.size (rows.map fun row =>
    ⟨row, posixContent (fragmentBytes g row f) (request.map (ecAdjustSize g))⟩)

/-- `qr_content_extract`. -/
def qrContentExtract (content : DictValue) : List Byte := content.data.take content.len.toNat

/-- `__qr_inode_prune`. -/
def qrInodePrune (qr : QrInode) : QrInode := { qr with data := none, size := 0 }

/-- `qr_content_update`. -/
def qrContentUpdate (qr : QrInode) (data : List Byte) (buf : Iatt) : QrInode :=
  { qrInodePrune qr with data := some data, size := buf.iaSize, iaMtime := buf.iaMtime }

/-- `__qr_content_refresh`. -/
def qrContentRefresh (n : MaxFileSize) (qr : QrInode) (buf : Iatt) : QrInode :=
  if buf.iaSize ≤ n ∧ qr.iaMtime = buf.iaMtime then qr else qrInodePrune qr

/-- The size that `qr_lookup` asks for: none if there is content, or if the option is `0`. -/
def qrLookupRequest (n : MaxFileSize) (cached : Bool) : Option ℕ :=
  if cached then none else if n.1 = 0 then none else some n

/-- `qr_lookup_cbk` for a successful lookup. -/
def qrLookupCbk (n : MaxFileSize) (qr : QrInode) (content : Option DictValue) (buf : Iatt) :
    QrInode :=
  match content with
  | some content => qrContentUpdate qr (qrContentExtract content) buf
  | none => qrContentRefresh n qr buf

/-- `qr_readv_cached`: what is answered from the cache.  `fresh` is `__qr_cache_is_fresh`, and
`heap` what lies in memory from the start of the content on. -/
def qrReadvCached (heap : ℕ → Byte) (qr : QrInode) (fresh : Bool) (size offset : ℕ) :
    Option (List Byte) :=
  qr.data.bind fun data =>
    if offset ≥ qr.size ∨ fresh = false then none
    else
      let opRet := int32Of (min size (qr.size - offset))
      if 0 < opRet then
        some ((List.range opRet.toNat).map fun i => data.getD (offset + i) (heap (offset + i)))
      else none

/-- What happens to the `qr_inode` of a file that does not change. -/
inductive Action where
  /-- The answer to a lookup, from the bricks `rows`.  `cached` tells whether there was content when
  it was sent, which may have changed since. -/
  | lookup (cached : Bool) (rows : List ℕ)
  /-- A failed lookup, a write, or a lack of space in the cache. -/
  | prune

/-- A volume, the option, a file and its modification time. -/
structure Setting where
  geometry : Geometry
  tables : GfTables
  junk : ℕ → Byte
  maxFileSize : MaxFileSize
  file : File Byte
  mtime : ℕ

def step (v : Setting) (qr : QrInode) : Action → Option QrInode
  | .lookup cached rows =>
      if rows.Nodup ∧ ∀ row ∈ rows, row < v.geometry.nodes then
        some (qrLookupCbk v.maxFileSize qr
          (ecLookup v.geometry v.tables v.junk v.file (qrLookupRequest v.maxFileSize cached) rows)
          ⟨v.file.size, v.mtime⟩)
      else none
  | .prune => some (qrInodePrune qr)

/-- `quick-read` for one file, from an inode without content on. -/
def quickRead (v : Setting) : Machine QrInode Action where
  start qr := qr.data = none
  step := step v

theorem quickRead_step (v : Setting) : (quickRead v).step = step v := rfl

/-- **Reads from the cache are right**, and the size is covered by the content. -/
structure CacheOk (f : File Byte) (qr : QrInode) : Prop where
  reads : ∀ heap fresh size offset bytes, qrReadvCached heap qr fresh size offset = some bytes →
    bytes = readBytes f offset (min size (f.size - offset))
  covered : ∀ data, qr.data = some data → qr.size ≤ data.length

/-- The files that are cached right, by their size. -/
def Cacheable (g : Geometry) (n fileSize : ℕ) : Prop :=
  fileSize ≤ n ∨ g.stripeSize * (ecCode g).stripes n < fileSize

variable {g : Geometry} {t : GfTables} {junk : ℕ → Byte} {f : File Byte} {n : ℕ} {rows : List ℕ}

/-! ## What the lookup returns -/

/-- A brick is asked for whole stripes. -/
theorem ecAdjustSize_eq_stripes (hn : n ≤ 1024000) :
    ecAdjustSize g n = 512 * (ecCode g).stripes n := by
  have hstripe := g.stripeSize_le
  have hpos := g.stripeSize_pos
  rw [ecAdjustSize_eq, Nat.mod_eq_of_lt (by omega)]
  change _ = 512 * (n ⌈/⌉ g.stripeSize)
  rw [Nat.ceilDiv_eq_add_pred_div, Nat.add_sub_assoc hpos]

/-- The answers of the bricks: all have their whole fragment, or none has a content. -/
def answersOf (g : Geometry) (f : File Byte) (request : Option ℕ) (rows : List ℕ) :
    List LookupAnswer :=
  rows.map fun row => ⟨row, posixContent (fragmentBytes g row f) request⟩

theorem posixContent_some (row : ℕ) {reqSize : ℕ}
    (h : 512 * (ecCode g).stripes f.size ≤ reqSize) :
    posixContent (fragmentBytes g row f) (some reqSize) = some (fragmentBytes g row f) := by
  rw [posixContent, Option.bind_some, if_pos (by rwa [length_fragmentBytes])]

theorem usedContents_answersOf (rows : List ℕ) {reqSize : ℕ}
    (h : 512 * (ecCode g).stripes f.size ≤ reqSize) :
    usedContents g (answersOf g f (some reqSize) rows)
      = (rows.take g.fragments).map fun row => (row, fragmentBytes g row f) := by
  have hall : (answersOf g f (some reqSize) rows).filterMap
      (fun ans => ans.content.map fun data => (ans.idx, data))
        = rows.map fun row => (row, fragmentBytes g row f) := by
    rw [answersOf, List.filterMap_map]
    refine (List.filterMap_congr fun row _ => ?_).trans (congrFun (List.filterMap_eq_map') rows)
    simp only [Function.comp_apply, posixContent_some row h, Option.map_some]
  rw [usedContents, hall, List.map_take]

/-- Without contents there is nothing to decode. -/
theorem usedContents_none {request : Option ℕ}
    (h : ∀ row, posixContent (fragmentBytes g row f) request = none) :
    usedContents g (answersOf g f request rows) = [] := by
  have hall : (answersOf g f request rows).filterMap
      (fun ans => ans.content.map fun data => (ans.idx, data)) = [] := by
    rw [List.filterMap_eq_nil_iff]
    intro ans hans
    obtain ⟨row, -, rfl⟩ := List.mem_map.mp hans
    rw [h row, Option.map_none]
  rw [usedContents, hall, List.take_nil]

theorem answersOf_agreeing {reqSize : ℕ} (hsmall : reqSize < 2 ^ 31) (hnodup : rows.Nodup)
    (hnodes : ∀ row ∈ rows, row < g.nodes) :
    Agreeing g f (answersOf g f (some reqSize) rows) := by
  have hwhole : ∀ ans ∈ answersOf g f (some reqSize) rows, ∀ data, ans.content = some data →
      data = fragmentBytes g ans.idx f ∧ data.length ≤ reqSize := by
    intro ans hans data hdata
    obtain ⟨row, -, rfl⟩ := List.mem_map.mp hans
    simp only [posixContent, Option.bind_some] at hdata
    by_cases hfits : (fragmentBytes g row f).length ≤ reqSize
    · rw [if_pos hfits] at hdata
      obtain rfl := Option.some.inj hdata
      exact ⟨rfl, hfits⟩
    · rw [if_neg hfits] at hdata
      cases hdata
  refine ⟨?_, fun ans hans => ?_, fun ans hans data hdata => ?_, fun ans hans data hdata => ?_⟩
  · rw [answersOf, List.map_map]
    exact (List.map_id rows).symm ▸ hnodup
  · obtain ⟨row, hrow, rfl⟩ := List.mem_map.mp hans
    exact hnodes row hrow
  · exact (hwhole ans hans data hdata).1 ▸ List.prefix_refl _
  · exact (hwhole ans hans data hdata).2.trans_lt hsmall

theorem shortest_const {blocks : List (ℕ × List Byte)} {m : ℕ} (hne : blocks ≠ [])
    (hm : m < 2 ^ 31) (h : ∀ block ∈ blocks, block.2.length = m) : shortest blocks = m := by
  obtain ⟨block, hblock, heq⟩ := exists_shortest hne fun block hb => (h block hb).trans_lt hm
  rw [heq, h block hblock]

/-- **The lookup of a file that fits** after rounding returns its first `n` bytes. -/
theorem ecLookup_of_fits (junk : ℕ → Byte) (ht : t.Sound) (hn : n ≤ 1024000) (hnodup : rows.Nodup)
    (hnodes : ∀ row ∈ rows, row < g.nodes) (hcount : g.fragments ≤ rows.length)
    (hfits : f.size ≤ g.stripeSize * (ecCode g).stripes n) (hpos : 0 < f.size) :
    ecLookup g t junk f (some n) rows
      = some ⟨(min n f.size : ℕ), readBytes f 0 (min n f.size)⟩ := by
  have hstripes : (ecCode g).stripes f.size ≤ (ecCode g).stripes n :=
    size_le_stripeSize_mul_iff.mp hfits
  have hrounded : 512 * (ecCode g).stripes n < 2 ^ 31 := by
    rw [← ecAdjustSize_eq_stripes hn, ecAdjustSize_eq]
    have := Nat.div_le_self ((n + (g.stripeSize - 1)) % 2 ^ 64) g.stripeSize
    have := g.stripeSize_le
    omega
  have hused := usedContents_answersOf rows (Nat.mul_le_mul_left 512 hstripes)
  have hlength : (usedContents g (answersOf g f (some (512 * (ecCode g).stripes n)) rows)).length
      = g.fragments := by
    rw [hused, List.length_map, List.length_take, min_eq_left hcount]
  have hshortest : shortest (usedContents g (answersOf g f (some (512 * (ecCode g).stripes n)) rows))
      = 512 * (ecCode g).stripes f.size := by
    refine shortest_const ?_ (by omega) ?_
    · intro hnil
      have := g.fragments_pos
      rw [hnil, List.length_nil] at hlength
      omega
    · rw [hused]
      intro block hblock
      obtain ⟨row, -, rfl⟩ := List.mem_map.mp hblock
      exact length_fragmentBytes row f
  have hcontent := ecLookupRebuild_eq junk n ht (answersOf_agreeing hrounded hnodup hnodes)
    hlength.ge (S := (ecCode g).stripes f.size) (by rw [hshortest]; omega)
  have hsome : (ecCode g).stripes f.size ≠ 0 := by
    have := (ecCode g).lt_stripes_iff.mpr (show g.stripeSize * 0 < f.size by omega)
    omega
  have hwhole := (ecCode g).le_stripe_mul_stripes f.size
  change f.size ≤ g.stripeSize * (ecCode g).stripes f.size at hwhole
  rw [if_neg hsome, show min (min (g.stripeSize * (ecCode g).stripes f.size) n) f.size
    = min n f.size by omega, int32Of_eq (by omega)] at hcontent
  rw [← hcontent, ecLookup, Option.map_some, ecAdjustSize_eq_stripes hn]
  rfl

theorem ecLookup_eq_none {request : Option ℕ}
    (h : (usedContents g (answersOf g f (request.map (ecAdjustSize g)) rows)).length < g.fragments) :
    ecLookup g t junk f request rows = none := by
  rw [ecLookup, ecLookupRebuild]
  exact if_neg (by rwa [not_le])

/-- A file without bytes has no content. -/
theorem shortest_empty (hempty : f.size = 0) {request : Option ℕ}
    (hused : g.fragments ≤ (usedContents g (answersOf g f request rows)).length) :
    shortest (usedContents g (answersOf g f request rows)) = 0 := by
  have hpos := g.fragments_pos
  obtain ⟨block, hblock⟩ := List.exists_mem_of_length_pos (hpos.trans_le hused)
  obtain ⟨ans, hans, -, hcontent⟩ := mem_usedContents hblock
  obtain ⟨row, -, rfl⟩ := List.mem_map.mp hans
  obtain ⟨reqSize, -, hfragment⟩ := Option.bind_eq_some_iff.mp hcontent
  have hlength : block.2.length = 0 := by
    by_cases hfits : (fragmentBytes g row f).length ≤ reqSize
    · rw [if_pos hfits] at hfragment
      rw [← Option.some.inj hfragment, length_fragmentBytes, hempty, Code.stripes_zero]
    · rw [if_neg hfits] at hfragment
      cases hfragment
  exact Nat.le_zero.mp (hlength ▸ shortest_le hblock)

/-- **What a lookup returns**, if it returns a content. -/
theorem ecLookup_eq_some (ht : t.Sound) {request : Option ℕ}
    (hrequest : ∀ n, request = some n → n ≤ 1024000) (hnodup : rows.Nodup)
    (hnodes : ∀ row ∈ rows, row < g.nodes) {content : DictValue}
    (h : ecLookup g t junk f request rows = some content) :
    ∃ n, request = some n ∧ f.size ≤ g.stripeSize * (ecCode g).stripes n ∧
      content = ⟨(min n f.size : ℕ), readBytes f 0 (min n f.size)⟩ := by
  have hused : g.fragments
      ≤ (usedContents g (answersOf g f (request.map (ecAdjustSize g)) rows)).length := by
    by_contra hfew
    rw [ecLookup_eq_none (not_le.mp hfew)] at h
    cases h
  have hpos := g.fragments_pos
  cases request with
  | none =>
      rw [Option.map_none, usedContents_none fun _ => rfl, List.length_nil] at hused
      omega
  | some n =>
      have hn := hrequest n rfl
      rw [Option.map_some, ecAdjustSize_eq_stripes hn] at hused
      by_cases hfits : (ecCode g).stripes f.size ≤ (ecCode g).stripes n
      swap
      · -- the bricks return nothing
        rw [usedContents_none fun row => ?_, List.length_nil] at hused
        · omega
        · rw [posixContent, Option.bind_some, if_neg (by rw [length_fragmentBytes]; omega)]
      rcases Nat.eq_zero_or_pos f.size with hempty | hbytes
      · have hzero := shortest_empty hempty hused
        simp only [ecLookup, Option.map_some, ecAdjustSize_eq_stripes hn, ecLookupRebuild] at h
        rw [answersOf] at hused hzero
        rw [if_pos hused, hzero, if_neg (by decide)] at h
        cases h
      · have hcount : g.fragments ≤ rows.length := by
          rw [usedContents_answersOf rows (Nat.mul_le_mul_left 512 hfits), List.length_map,
            List.length_take] at hused
          omega
        have hsize := size_le_stripeSize_mul_iff.mpr hfits
        rw [ecLookup_of_fits junk ht hn hnodup hnodes hcount hsize hbytes] at h
        exact ⟨n, rfl, hsize, (Option.some.inj h).symm⟩

/-! ## The states of the cache -/

/-- **The invariant**: content is the start of a file that fits after rounding. -/
def Started (g : Geometry) (n : ℕ) (f : File Byte) (qr : QrInode) : Prop :=
  ∀ data, qr.data = some data → data = readBytes f 0 (min n f.size) ∧ qr.size = f.size ∧
    f.size ≤ g.stripeSize * (ecCode g).stripes n

theorem Started.prune {qr : QrInode} : Started g n f (qrInodePrune qr) := by
  intro data hdata
  cases hdata

theorem started_step (v : Setting) (ht : v.tables.Sound) {qr qr' : QrInode} {a : Action}
    (h : Started v.geometry v.maxFileSize v.file qr) (hstep : step v qr a = some qr') :
    Started v.geometry v.maxFileSize v.file qr' := by
  cases a with
  | prune => exact Option.some.inj hstep ▸ Started.prune
  | lookup cached rows =>
      rw [step] at hstep
      by_cases hrows : rows.Nodup ∧ ∀ row ∈ rows, row < v.geometry.nodes
      swap
      · rw [if_neg hrows] at hstep
        cases hstep
      rw [if_pos hrows] at hstep
      obtain rfl := Option.some.inj hstep
      have hrequest : ∀ m, qrLookupRequest v.maxFileSize cached = some m → m = v.maxFileSize.1 := by
        intro m hm
        rw [qrLookupRequest] at hm
        split at hm
        · cases hm
        · split at hm
          · cases hm
          · exact (Option.some.inj hm).symm
      cases hlookup : ecLookup v.geometry v.tables v.junk v.file
          (qrLookupRequest v.maxFileSize cached) rows with
      | none =>
          rw [qrLookupCbk, qrContentRefresh]
          split
          · exact h
          · exact Started.prune
      | some content =>
          obtain ⟨m, hm, hfits, rfl⟩ := ecLookup_eq_some ht
            (fun m hm => hrequest m hm ▸ v.maxFileSize.2) hrows.1 hrows.2 hlookup
          obtain rfl := hrequest m hm
          intro data hdata
          obtain rfl := Option.some.inj hdata
          refine ⟨?_, rfl, hfits⟩
          rw [qrContentExtract, Int.toNat_natCast]
          exact List.take_of_length_le (length_readBytes _ _ _).le

theorem started_of_reachable (v : Setting) (ht : v.tables.Sound) {qr : QrInode}
    (h : (quickRead v).Reachable qr) : Started v.geometry v.maxFileSize v.file qr := by
  refine Machine.Reachable.invariant (Started v.geometry v.maxFileSize v.file) ?_ ?_ h
  · intro qr hstart data hdata
    rw [show qr.data = none from hstart] at hdata
    cases hdata
  · intro qr a qr' hqr hstep
    exact started_step v ht hqr hstep

/-- Whole content is read right. -/
theorem cacheOk_of_started {n : MaxFileSize} {qr : QrInode} (h : Started g n f qr)
    (hcacheable : Cacheable g n f.size) : CacheOk f qr := by
  have hwhole : ∀ data, qr.data = some data → data = readBytes f 0 f.size ∧ qr.size = f.size ∧
      f.size ≤ n := by
    intro data hdata
    obtain ⟨hstart, hsize, hfits⟩ := h data hdata
    have hle : f.size ≤ n := by
      rcases hcacheable with hle | hlt
      · exact hle
      · omega
    exact ⟨by rw [hstart, min_eq_right hle], hsize, hle⟩
  constructor
  · intro heap fresh size offset bytes hread
    obtain ⟨data, hdata, hbytes⟩ := Option.bind_eq_some_iff.mp hread
    obtain ⟨rfl, hsize, hle⟩ := hwhole data hdata
    have hmax := n.2
    by_cases hmiss : offset ≥ qr.size ∨ fresh = false
    · rw [if_pos hmiss] at hbytes
      cases hbytes
    rw [if_neg hmiss, hsize, int32Of_eq (by omega)] at hbytes
    by_cases hsome : 0 < ((min size (f.size - offset) : ℕ) : ℤ)
    · rw [if_pos hsome, Int.toNat_natCast] at hbytes
      rw [← Option.some.inj hbytes]
      refine List.map_congr_left fun i hi => ?_
      have hi' := List.mem_range.mp hi
      rw [List.getD_eq_getElem _ _ (by rw [length_readBytes]; omega)]
      simp [readBytes]
    · rw [if_neg hsome] at hbytes
      cases hbytes
  · intro data hdata
    obtain ⟨rfl, hsize, -⟩ := hwhole data hdata
    rw [length_readBytes, hsize]

/-- **A lookup that caches too little.**  A file that fits only after rounding is cached with its
own size and fewer bytes. -/
theorem exists_uncovered (v : Setting) (ht : v.tables.Sound)
    (h : ¬ Cacheable v.geometry v.maxFileSize v.file.size) :
    ∃ qr data, (quickRead v).Reachable qr ∧ qr.data = some data ∧
      data.length = v.maxFileSize ∧ qr.size = v.file.size ∧ data.length < qr.size := by
  rw [Cacheable, not_or, not_le, not_lt] at h
  obtain ⟨hlong, hfits⟩ := h
  have hpositive : v.maxFileSize.1 ≠ 0 := by
    intro hzero
    rw [hzero, Code.stripes_zero] at hfits
    omega
  have hrows : ∀ row ∈ List.range v.geometry.fragments, row < v.geometry.nodes := fun row hrow =>
    (List.mem_range.mp hrow).trans v.geometry.fragments_lt
  have hlookup := ecLookup_of_fits v.junk ht v.maxFileSize.2 List.nodup_range hrows
    List.length_range.ge hfits (by omega)
  have hrequest : qrLookupRequest v.maxFileSize false = some v.maxFileSize.1 := by
    rw [qrLookupRequest, if_neg (by decide), if_neg hpositive]
  have hstep : (quickRead v).step ⟨none, 0, 0⟩ (.lookup false (List.range v.geometry.fragments))
      = some (qrContentUpdate ⟨none, 0, 0⟩ (qrContentExtract ⟨(min v.maxFileSize.1 v.file.size : ℕ),
        readBytes v.file 0 (min v.maxFileSize.1 v.file.size)⟩) ⟨v.file.size, v.mtime⟩) := by
    rw [quickRead_step, step, if_pos ⟨List.nodup_range, hrows⟩, hrequest, hlookup]
    rfl
  have hlength : (qrContentExtract ⟨(min v.maxFileSize.1 v.file.size : ℕ),
      readBytes v.file 0 (min v.maxFileSize.1 v.file.size)⟩).length = v.maxFileSize.1 := by
    rw [qrContentExtract, Int.toNat_natCast, List.length_take, length_readBytes]
    omega
  have hreach : (quickRead v).Reachable ⟨none, 0, 0⟩ :=
    .start (show (⟨none, 0, 0⟩ : QrInode).data = none from rfl)
  exact ⟨_, _, .next hreach trivial hstep, rfl, hlength, rfl, hlength.trans_lt hlong⟩

/-- **Exactly when `quick-read` is right.**  For every geometry, every value of the option and every
file: all states of the cache are right if and only if the file is not longer than `max_file_size`,
or longer than that rounded up to whole stripes. -/
theorem cachedReads_exact_iff (g : Geometry) (junk : ℕ → Byte) (n : MaxFileSize) (f : File Byte)
    (mtime : ℕ) :
    ∃ t, ecMethodInitialize = some t ∧
      ((∀ qr, (quickRead ⟨g, t, junk, n, f, mtime⟩).Reachable qr → CacheOk f qr) ↔
        Cacheable g n f.size) := by
  obtain ⟨t, initialized, ht⟩ := ecMethodInitialize_sound
  refine ⟨t, initialized, fun hall => ?_, fun hcacheable qr hqr => ?_⟩
  · by_contra hnot
    obtain ⟨qr, data, hreach, hdata, -, -, hlt⟩ := exists_uncovered ⟨g, t, junk, n, f, mtime⟩ ht hnot
    exact absurd ((hall qr hreach).covered data hdata) (by omega)
  · exact cacheOk_of_started (started_of_reachable ⟨g, t, junk, n, f, mtime⟩ ht hqr) hcacheable

/-- A file of two bytes. -/
def twoBytes : File Byte := ⟨2, fun i => if i < 2 then 1 else 0, fun _ hi => if_neg (by omega)⟩

theorem twoBytes_not_cacheable : ¬ Cacheable threeNodes 1 twoBytes.size := by
  have hone := (ecCode threeNodes).le_stripe_mul_stripes 1
  have hstripe : 1 ≤ (ecCode threeNodes).stripes 1 :=
    (ecCode threeNodes).lt_stripes_iff.mpr (by decide)
  rintro (hle | hlt)
  · exact absurd hle (by decide)
  · change 1024 * (ecCode threeNodes).stripes 1 < 2 at hlt
    omega

/-- **Bytes from behind the content.**  With `max-file-size` at `1` and two fragments, a file of two
bytes is cached with one byte of content; a read of the second byte returns what lies behind it in
memory. -/
theorem cachedReads_past_content :
    ∃ t qr, ecMethodInitialize = some t ∧
      (quickRead ⟨threeNodes, t, fun _ => 0, ⟨1, by norm_num⟩, twoBytes, 0⟩).Reachable qr ∧
      (∀ heap, qrReadvCached heap qr true 1 1 = some [heap 1]) ∧ ¬ CacheOk twoBytes qr := by
  obtain ⟨t, initialized, ht⟩ := ecMethodInitialize_sound
  obtain ⟨qr, data, hreach, hdata, hlength, hsize, hlt⟩ := exists_uncovered
    ⟨threeNodes, t, fun _ => 0, ⟨1, by norm_num⟩, twoBytes, 0⟩ ht twoBytes_not_cacheable
  refine ⟨t, qr, initialized, hreach, fun heap => ?_, fun hok => ?_⟩
  · have hbyte : data.getD 1 (heap 1) = heap 1 := by
      rw [List.getD_eq_default _ _ hlength.le]
    have hone : int32Of (min 1 (twoBytes.size - 1)) = 1 := int32Of_eq (by decide)
    rw [qrReadvCached, hdata, Option.bind_some, hsize,
      if_neg (show ¬ (1 ≥ twoBytes.size ∨ true = false) by decide)]
    simp only [hone, if_pos one_pos]
    exact congrArg (fun byte => some [byte]) hbyte
  · exact absurd (hok.covered data hdata) (by omega)

end GlusterFS.QuickRead
