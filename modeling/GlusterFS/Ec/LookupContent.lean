import GlusterFS.Ec.Readv

/-!
# The content in the answer to a lookup

A lookup may ask for the first bytes of a small file: the request carries a size under
`glusterfs.content`, `ec_manager_lookup` rounds it to whole stripes for the bricks, and
`ec_lookup_rebuild` decodes the contents of the **first `fragments` answers that carry one**, down
to the shortest of them.

`ContentExact` is what the caller relies on: a content that is returned is the start of the file, no
longer than asked for, and all that was asked for if the bricks have returned enough.
`ecLookup_content_iff` says for every file, every size and every group of answers when this holds
(`ContentFits`).  It fails in two ways, both by the width of a number:

* a request within a stripe of `2 ^ 64` is rounded up to **nothing**, so that any content at all
  counts as enough;
* the length of a dictionary value is an `int32_t`, while `2 GiB` and more can be decoded.
-/

namespace GlusterFS.Ec

open Striped

/-! ## The model -/

/-- The answer of a brick to a lookup: `cbk->idx` and the value of `glusterfs.content`. -/
structure LookupAnswer where
  idx : ℕ
  content : Option (List Byte)

/-- A value of a dictionary: `data->len` and `data->data`. -/
structure DictValue where
  len : ℤ
  data : List Byte

/-- The answers that the loop of `ec_lookup_rebuild` takes: `values` and `blocks`. -/
def usedContents (g : Geometry) (answers : List LookupAnswer) : List (ℕ × List Byte) :=
  (answers.filterMap fun ans => ans.content.map fun data => (ans.idx, data)).take g.fragments

/-- The shortest of some blocks, from `UINT64_MAX` on. -/
def shortest (blocks : List (ℕ × List Byte)) : ℕ :=
  blocks.foldl (fun size block => min size block.2.length) (2 ^ 64 - 1)

/-- What `ec_lookup_rebuild` leaves under `glusterfs.content`.  The new buffer holds `junk`. -/
def ecLookupRebuild (g : Geometry) (t : GfTables) (junk : ℕ → Byte) (fopSize iaSize : ℕ)
    (answers : List LookupAnswer) : Option DictValue :=
  let used := usedContents g answers
  if g.fragments ≤ used.length then
    let size := shortest used - shortest used % ecMethodChunkSize
    if 0 < size then do
      let (size, out) ← ecMethodDecode t (size / ecMethodChunkSize + 1) size g.fragments
        (used.map Prod.fst) (used.map Prod.snd) ((List.range (size * g.fragments)).map junk)
      let size := min (min size fopSize) iaSize
      some ⟨int32Of size, out.take size⟩
    else none
  else none

/-- Answers from different bricks of the volume, each with no content or the start of its fragment
file.  The length of a content is an `int32_t`. -/
structure Agreeing (g : Geometry) (f : File Byte) (answers : List LookupAnswer) : Prop where
  nodup : (answers.map LookupAnswer.idx).Nodup
  node : ∀ ans ∈ answers, ans.idx < g.nodes
  start : ∀ ans ∈ answers, ∀ data, ans.content = some data → data <+: fragmentBytes g ans.idx f
  fits : ∀ ans ∈ answers, ∀ data, ans.content = some data → data.length < 2 ^ 31

/-- A brick has returned what `ec_manager_lookup` asks for, or all it has. -/
def LookupAnswer.Enough (g : Geometry) (f : File Byte) (n : ℕ) (ans : LookupAnswer) : Prop :=
  ∃ data, ans.content = some data ∧
    (ecAdjustSize g n ≤ data.length ∨ data = fragmentBytes g ans.idx f)

/-- **The content that is returned is right.** -/
def ContentExact (g : Geometry) (t : GfTables) (junk : ℕ → Byte) (f : File Byte) (n : ℕ)
    (answers : List LookupAnswer) : Prop :=
  ∀ content, ecLookupRebuild g t junk n f.size answers = some content →
    (∃ m ≤ min n f.size, content = ⟨m, readBytes f 0 m⟩) ∧
      ((∀ ans ∈ answers, ans.Enough g f n) →
        content = ⟨(min n f.size : ℕ), readBytes f 0 (min n f.size)⟩)

/-- The requests for which it is, in terms of the contents that are used. -/
def ContentFits (g : Geometry) (f : File Byte) (n : ℕ) (answers : List LookupAnswer) : Prop :=
  (usedContents g answers).length < g.fragments ∨
    (∃ block ∈ usedContents g answers, block.2.length < ecMethodChunkSize) ∨
    ((n < 2 ^ 31 ∨ f.size < 2 ^ 31 ∨
        ∃ block ∈ usedContents g answers, g.stripeSize * (block.2.length / 512) < 2 ^ 31) ∧
      (2 ^ 64 < n + g.stripeSize → (∃ ans ∈ answers, ans.content = none) ∨
        ∀ block ∈ usedContents g answers, 512 * (ecCode g).stripes f.size ≤ block.2.length))

variable {g : Geometry} {t : GfTables} {junk : ℕ → Byte} {f : File Byte} {n : ℕ}
  {answers : List LookupAnswer}

/-! ## The contents that are used -/

theorem shortest_spec (blocks : List (ℕ × List Byte)) (size : ℕ) :
    (∀ block ∈ blocks, blocks.foldl (fun size block => min size block.2.length) size
      ≤ block.2.length) ∧
    (blocks.foldl (fun size block => min size block.2.length) size = size ∨
      ∃ block ∈ blocks, blocks.foldl (fun size block => min size block.2.length) size
        = block.2.length) ∧
    blocks.foldl (fun size block => min size block.2.length) size ≤ size := by
  induction blocks generalizing size with
  | nil => exact ⟨fun _ h => absurd h List.not_mem_nil, Or.inl rfl, le_rfl⟩
  | cons block rest ih =>
      obtain ⟨hall, hsome, hle⟩ := ih (min size block.2.length)
      rw [List.foldl_cons]
      refine ⟨fun other hother => ?_, ?_, hle.trans (min_le_left _ _)⟩
      · rcases List.mem_cons.mp hother with rfl | hrest
        · exact hle.trans (min_le_right _ _)
        · exact hall other hrest
      · rcases hsome with hfirst | ⟨other, hother, heq⟩
        · rcases min_choice size block.2.length with hmin | hmin
          · exact Or.inl (hfirst.trans hmin)
          · exact Or.inr ⟨block, List.mem_cons_self, hfirst.trans hmin⟩
        · exact Or.inr ⟨other, List.mem_cons_of_mem _ hother, heq⟩

theorem shortest_le {blocks : List (ℕ × List Byte)} {block : ℕ × List Byte}
    (h : block ∈ blocks) : shortest blocks ≤ block.2.length :=
  (shortest_spec blocks _).1 block h

theorem exists_shortest {blocks : List (ℕ × List Byte)} (hne : blocks ≠ [])
    (hfits : ∀ block ∈ blocks, block.2.length < 2 ^ 31) :
    ∃ block ∈ blocks, shortest blocks = block.2.length := by
  rcases (shortest_spec blocks (2 ^ 64 - 1)).2.1 with hmax | hsome
  · obtain ⟨block, hblock⟩ := List.exists_mem_of_ne_nil _ hne
    have hle := shortest_le hblock
    have hlt := hfits block hblock
    rw [shortest, hmax] at hle
    omega
  · exact hsome

theorem mem_usedContents {block : ℕ × List Byte} (h : block ∈ usedContents g answers) :
    ∃ ans ∈ answers, ans.idx = block.1 ∧ ans.content = some block.2 := by
  obtain ⟨ans, hans, hcontent⟩ := List.mem_filterMap.mp (List.mem_of_mem_take h)
  obtain ⟨data, hdata, rfl⟩ := Option.map_eq_some_iff.mp hcontent
  exact ⟨ans, hans, rfl, hdata⟩

theorem fst_contents_sublist (answers : List LookupAnswer) :
    ((answers.filterMap fun ans => ans.content.map fun data => (ans.idx, data)).map
      Prod.fst).Sublist (answers.map LookupAnswer.idx) := by
  induction answers with
  | nil => exact List.Sublist.refl _
  | cons ans rest ih =>
      cases hcontent : ans.content with
      | none =>
          rw [List.filterMap_cons_none (by rw [hcontent]; rfl), List.map_cons]
          exact ih.cons _
      | some data =>
          rw [List.filterMap_cons_some (by rw [hcontent]; rfl), List.map_cons, List.map_cons]
          exact ih.cons_cons _

theorem Agreeing.validRows (h : Agreeing g f answers)
    (hused : g.fragments ≤ (usedContents g answers).length) :
    ValidRows g.fragments ((usedContents g answers).map Prod.fst) where
  pos := g.fragments_pos
  le_max := g.le_max
  length := by
    rw [List.length_map]
    exact le_antisymm (List.length_take_le _ _) hused
  nodup := by
    rw [usedContents, List.map_take]
    exact (h.nodup.sublist (fst_contents_sublist answers)).sublist (List.take_sublist _ _)
  small row hrow := by
    obtain ⟨block, hblock, rfl⟩ := List.mem_map.mp hrow
    obtain ⟨ans, hans, hidx, -⟩ := mem_usedContents hblock
    exact hidx ▸ (h.node ans hans).trans g.nodes_lt

/-! ## What is decoded -/

/-- The start of a prefix is the start of the whole. -/
theorem take_of_prefix {data whole : List Byte} {m : ℕ} (h : data <+: whole)
    (hm : m ≤ data.length) : data.take m = whole.take m := by
  obtain ⟨rest, rfl⟩ := h
  rw [List.take_append_of_le_length hm]

/-- **The content**, when `S` whole chunks of every used block are decoded. -/
theorem ecLookupRebuild_eq (junk : ℕ → Byte) (n : ℕ) (ht : t.Sound) (h : Agreeing g f answers)
    (hused : g.fragments ≤ (usedContents g answers).length) {S : ℕ}
    (hS : S = shortest (usedContents g answers) / 512) :
    ecLookupRebuild g t junk n f.size answers
      = if S = 0 then none else
        some ⟨int32Of (min (min (g.stripeSize * S) n) f.size),
          readBytes f 0 (min (min (g.stripeSize * S) n) f.size)⟩ := by
  have hrows := h.validRows hused
  have hne : usedContents g answers ≠ [] := by
    intro hnil
    have hpos := g.fragments_pos
    rw [hnil, List.length_nil] at hused
    omega
  have hpre : ∀ block ∈ usedContents g answers,
      block.2 <+: fragmentBytes g block.1 f ∧ block.2.length < 2 ^ 31 := by
    intro block hblock
    obtain ⟨ans, hans, hidx, hcontent⟩ := mem_usedContents hblock
    exact ⟨hidx ▸ h.start ans hans _ hcontent, h.fits ans hans _ hcontent⟩
  have hchunks : shortest (usedContents g answers)
      - shortest (usedContents g answers) % ecMethodChunkSize = 512 * S := by
    change _ - _ % 512 = _
    omega
  have hturns : 512 * S / ecMethodChunkSize = S := Nat.mul_div_cancel_left S (by decide)
  simp only [ecLookupRebuild, if_pos hused, hchunks, hturns]
  by_cases hzero : S = 0
  · rw [if_neg (by omega), if_pos hzero]
  rw [if_pos (by omega), if_neg hzero]
  obtain ⟨shortestBlock, hmem, hshortest⟩ := exists_shortest hne fun block hb => (hpre block hb).2
  have hlength := (hpre _ hmem).1.length_le
  rw [length_fragmentBytes] at hlength
  have hsmall := (hpre _ hmem).2
  have hblock : ∀ c < g.fragments, (((usedContents g answers).map Prod.snd).getD c []).take (512 * S)
      = brickBytes g f (((usedContents g answers).map Prod.fst).getD c 0) (512 * 0) (512 * S) := by
    intro c hc
    have hc' : c < (usedContents g answers).length := by omega
    have hget := List.getElem_mem hc'
    have hlong : 512 * S ≤ ((usedContents g answers).get ⟨c, hc'⟩).2.length := by
      have := shortest_le hget
      change 512 * S ≤ ((usedContents g answers)[c]).2.length
      omega
    have hfst : ((usedContents g answers).map Prod.fst).getD c 0
        = ((usedContents g answers).get ⟨c, hc'⟩).1 := by simp [hc']
    have hsnd : ((usedContents g answers).map Prod.snd).getD c []
        = ((usedContents g answers).get ⟨c, hc'⟩).2 := by simp [hc']
    rw [hfst, hsnd, brickBytes, mul_zero, List.drop_zero]
    exact take_of_prefix (hpre _ hget).1 hlong
  have hnodes : ∀ row ∈ (usedContents g answers).map Prod.fst, row < g.nodes := by
    intro row hrow
    obtain ⟨block, hmem, rfl⟩ := List.mem_map.mp hrow
    obtain ⟨ans, hans, hidx, -⟩ := mem_usedContents hmem
    exact hidx ▸ h.node ans hans
  have hout : ((List.range (512 * S * g.fragments)).map junk).length = g.stripeSize * S := by
    rw [List.length_map, List.length_range, g.stripeSize_eq]
    ring
  have hdecode := ecMethodDecode_range ht hrows hnodes (by omega) (by omega)
    (by rw [List.length_map, ← hrows.length, List.length_map]) hblock hout
  have hroom : min (min (min (g.stripeSize * S) n) f.size) (g.stripeSize * S - 0)
      = min (min (g.stripeSize * S) n) f.size := by omega
  have htake := take_drop_readBytes f (g.stripeSize * 0) (g.stripeSize * S) 0
    (min (min (g.stripeSize * S) n) f.size)
  rw [List.drop_zero, hroom, mul_zero, add_zero] at htake
  simp only [hdecode, Option.bind_eq_bind, Option.bind_some, mul_zero, htake]

/-! ## When the content is right -/

/-- The bytes asked for, rounded up for every brick. -/
theorem le_of_ecAdjustSize (hwrap : n + g.stripeSize ≤ 2 ^ 64) {S : ℕ}
    (h : ecAdjustSize g n ≤ 512 * S + 511) : n ≤ g.stripeSize * S := by
  have hpos := g.stripeSize_pos
  rw [ecAdjustSize_eq, Nat.mod_eq_of_lt (by omega)] at h
  have hstripes : (n + (g.stripeSize - 1)) / g.stripeSize ≤ S := by omega
  have hlt := (Nat.div_lt_iff_lt_mul hpos).mp (Nat.lt_succ_of_le hstripes)
  rw [Nat.succ_mul, mul_comm S] at hlt
  omega

/-- A request within a stripe of `2 ^ 64` is rounded up to nothing. -/
theorem ecAdjustSize_wraps (hn : n < 2 ^ 64) (hwrap : 2 ^ 64 < n + g.stripeSize) :
    ecAdjustSize g n = 0 := by
  have hstripe := g.stripeSize_le
  have hmod : (n + (g.stripeSize - 1)) % 2 ^ 64 = n + g.stripeSize - 1 - 2 ^ 64 := by omega
  rw [ecAdjustSize_eq, hmod, Nat.div_eq_of_lt (by omega)]

/-- The content is not shorter than the file when the blocks are whole. -/
theorem size_le_stripeSize_mul_iff {fileSize S : ℕ} :
    fileSize ≤ g.stripeSize * S ↔ (ecCode g).stripes fileSize ≤ S :=
  (ecCode g).stripes_le_iff.symm

/-- A value of the right length is the right value. -/
theorem dictValue_eq_iff {m m' : ℕ} :
    (⟨int32Of m, readBytes f 0 m⟩ : DictValue) = ⟨m', readBytes f 0 m'⟩ ↔
      m = m' ∧ m < 2 ^ 31 := by
  constructor
  · intro h
    rw [DictValue.mk.injEq] at h
    have hdata : m = m' := by simpa using congrArg List.length h.2
    have hlt := int32Of_lt m
    rw [h.1] at hlt
    exact ⟨hdata, by omega⟩
  · rintro ⟨rfl, hm⟩
    rw [int32Of_eq hm]

/-- Both parts of `ContentExact`, for a content of `m` bytes. -/
theorem contentExact_iff {m : ℕ} (hm : m ≤ min n f.size)
    (hcontent : ecLookupRebuild g t junk n f.size answers
      = some ⟨int32Of m, readBytes f 0 m⟩) :
    ContentExact g t junk f n answers ↔
      m < 2 ^ 31 ∧ ((∀ ans ∈ answers, ans.Enough g f n) → m = min n f.size) := by
  constructor
  · intro h
    obtain ⟨⟨m', -, heq⟩, hall⟩ := h _ hcontent
    exact ⟨(dictValue_eq_iff.mp heq).2, fun henough => (dictValue_eq_iff.mp (hall henough)).1⟩
  · rintro ⟨hlt, hall⟩ content heq
    obtain rfl := Option.some.inj (hcontent.symm.trans heq)
    exact ⟨⟨m, hm, dictValue_eq_iff.mpr ⟨rfl, hlt⟩⟩,
      fun henough => dictValue_eq_iff.mpr ⟨hall henough, hlt⟩⟩

/-- What the shortest of the used contents tells about all answers. -/
theorem all_asked_iff (hn : n < 2 ^ 64) (hfile : f.size < 2 ^ 63)
    {S : ℕ} (hS : S = shortest (usedContents g answers) / 512)
    (hattained : ∃ block ∈ usedContents g answers,
      shortest (usedContents g answers) = block.2.length) :
    ((∀ ans ∈ answers, ans.Enough g f n) → min (min (g.stripeSize * S) n) f.size = min n f.size) ↔
      (2 ^ 64 < n + g.stripeSize → (∃ ans ∈ answers, ans.content = none) ∨
        ∀ block ∈ usedContents g answers, 512 * (ecCode g).stripes f.size ≤ block.2.length) := by
  have hstripe := g.stripeSize_le
  by_cases hwrap : 2 ^ 64 < n + g.stripeSize
  · constructor
    · intro hexact _
      by_cases hnone : ∃ ans ∈ answers, ans.content = none
      · exact Or.inl hnone
      right
      intro block hblock
      have henough : ∀ ans ∈ answers, ans.Enough g f n := by
        intro ans hans
        obtain ⟨data, hdata⟩ := Option.ne_none_iff_exists'.mp fun hc => hnone ⟨ans, hans, hc⟩
        exact ⟨data, hdata, Or.inl (by rw [ecAdjustSize_wraps hn hwrap]; exact Nat.zero_le _)⟩
      have hwhole := size_le_stripeSize_mul_iff.mp
        (show f.size ≤ g.stripeSize * S by have := hexact henough; omega)
      have := shortest_le hblock
      omega
    · intro hfits henough
      rcases hfits hwrap with ⟨ans, hans, hnone⟩ | hwhole
      · obtain ⟨data, hdata, -⟩ := henough ans hans
        rw [hnone] at hdata
        cases hdata
      · obtain ⟨block, hblock, hshortest⟩ := hattained
        have hle := hwhole block hblock
        have := size_le_stripeSize_mul_iff.mpr
          (show (ecCode g).stripes f.size ≤ S by omega)
        omega
  · refine iff_of_true (fun henough => ?_) fun hwrap' => absurd hwrap' hwrap
    obtain ⟨block, hblock, hshortest⟩ := hattained
    obtain ⟨ans, hans, -, hcontent⟩ := mem_usedContents hblock
    obtain ⟨data, hdata, hlong⟩ := henough ans hans
    obtain rfl : block.2 = data := Option.some.inj (hcontent.symm.trans hdata)
    rcases hlong with hasked | hfragment
    · have := le_of_ecAdjustSize (g := g) (n := n) (S := S) (by omega) (by omega)
      omega
    · have hlength := congrArg List.length hfragment
      rw [length_fragmentBytes] at hlength
      have := size_le_stripeSize_mul_iff.mpr (show (ecCode g).stripes f.size ≤ S by omega)
      omega

theorem contentExact_iff_fits (ht : t.Sound) (h : Agreeing g f answers) (hn : n < 2 ^ 64)
    (hfile : f.size < 2 ^ 63) :
    ContentExact g t junk f n answers ↔ ContentFits g f n answers := by
  by_cases hused : g.fragments ≤ (usedContents g answers).length
  swap
  · -- too few contents: there is nothing to decode
    refine iff_of_true (fun content hcontent => ?_) (Or.inl (by omega))
    rw [ecLookupRebuild, if_neg hused] at hcontent
    cases hcontent
  have hne : usedContents g answers ≠ [] := by
    intro hnil
    have hpos := g.fragments_pos
    rw [hnil, List.length_nil] at hused
    omega
  have hattained := exists_shortest hne fun block hblock => by
    obtain ⟨ans, hans, -, hcontent⟩ := mem_usedContents hblock
    exact h.fits ans hans _ hcontent
  obtain ⟨S, hS⟩ : ∃ S, S = shortest (usedContents g answers) / 512 := ⟨_, rfl⟩
  have hcontent := ecLookupRebuild_eq junk n ht h hused hS
  by_cases hzero : S = 0
  · -- the shortest content has no whole chunk
    rw [if_pos hzero] at hcontent
    refine iff_of_true (fun content hsome => ?_) (Or.inr (Or.inl ?_))
    · rw [hcontent] at hsome
      cases hsome
    · obtain ⟨block, hblock, hshortest⟩ := hattained
      exact ⟨block, hblock, show block.2.length < 512 by omega⟩
  rw [if_neg hzero] at hcontent
  rw [contentExact_iff (by omega) hcontent, all_asked_iff hn hfile hS hattained]
  have hwhole : ¬ ∃ block ∈ usedContents g answers, block.2.length < ecMethodChunkSize := by
    rintro ⟨block, hblock, hshort⟩
    have := shortest_le hblock
    change block.2.length < 512 at hshort
    omega
  refine Iff.trans ?_ (or_iff_right (show ¬ _ by omega)).symm
  refine Iff.trans ?_ (or_iff_right hwhole).symm
  refine and_congr_left fun _ => ?_
  have hblocks : g.stripeSize * S < 2 ^ 31 ↔ ∃ block ∈ usedContents g answers,
      g.stripeSize * (block.2.length / 512) < 2 ^ 31 := by
    constructor
    · intro hlt
      obtain ⟨block, hblock, hshortest⟩ := hattained
      exact ⟨block, hblock, by rwa [← hshortest, ← hS]⟩
    · rintro ⟨block, hblock, hlt⟩
      refine lt_of_le_of_lt (Nat.mul_le_mul_left _ ?_) hlt
      rw [hS]
      exact Nat.div_le_div_right (shortest_le hblock)
  rw [← hblocks]
  omega

/-- **Exactly when the content is right.** -/
theorem ecLookup_content_iff (g : Geometry) (junk : ℕ → Byte) (f : File Byte)
    (hfile : f.size < 2 ^ 63) (n : ℕ) (hn : n < 2 ^ 64) (answers : List LookupAnswer)
    (h : Agreeing g f answers) :
    ∃ t, ecMethodInitialize = some t ∧
      (ContentExact g t junk f n answers ↔ ContentFits g f n answers) := by
  obtain ⟨t, initialized, ht⟩ := ecMethodInitialize_sound
  exact ⟨t, initialized, contentExact_iff_fits ht h hn hfile⟩

/-- A file of two stripes. -/
def longFile : File Byte :=
  ⟨1025, fun i => if i < 1025 then 1 else 0, fun _ hi => if_neg (by omega)⟩

theorem stripes_longFile : (ecCode threeNodes).stripes longFile.size = 2 := by
  refine le_antisymm ((ecCode threeNodes).stripes_le_iff.mpr ?_)
    ((ecCode threeNodes).lt_stripes_iff.mpr ?_) <;> decide

/-- The first `size` bytes of the fragments of a file. -/
def startAnswers (f : File Byte) (size : ℕ) : List LookupAnswer :=
  [⟨0, some ((fragmentBytes threeNodes 0 f).take size)⟩,
    ⟨1, some ((fragmentBytes threeNodes 1 f).take size)⟩]

theorem startAnswers_agreeing (f : File Byte) (size : ℕ) (hsize : size < 2 ^ 31) :
    Agreeing threeNodes f (startAnswers f size) := by
  have hstart : ∀ ans ∈ startAnswers f size, ∀ data, ans.content = some data →
      data = (fragmentBytes threeNodes ans.idx f).take size := by
    intro ans hans data hdata
    rcases List.mem_pair.mp hans with rfl | rfl <;> exact (Option.some.inj hdata).symm
  refine ⟨show [0, 1].Nodup by decide, fun ans hans => ?_, fun ans hans data hdata => ?_,
    fun ans hans data hdata => ?_⟩
  · rcases List.mem_pair.mp hans with rfl | rfl
    · exact (show 0 < 3 by norm_num)
    · exact (show 1 < 3 by norm_num)
  · rw [hstart ans hans data hdata]
    exact List.take_prefix _ _
  · rw [hstart ans hans data hdata]
    exact (List.length_take_le _ _).trans_lt hsize

/-- The whole of a file of one byte. -/
theorem ecLookup_content_iff_short :
    ∃ t, ecMethodInitialize = some t ∧
      ContentExact threeNodes t (fun _ => 0) shortFile 64 (startAnswers shortFile 512) := by
  obtain ⟨t, initialized, exact_iff⟩ := ecLookup_content_iff threeNodes (fun _ => 0) shortFile
    (by decide) 64 (by norm_num) _ (startAnswers_agreeing shortFile 512 (by norm_num))
  exact ⟨t, initialized, exact_iff.mpr (Or.inr (Or.inr ⟨Or.inl (by norm_num), fun h =>
    absurd h (by decide)⟩))⟩

/-- **Rounded up to nothing.**  For a request of `2 ^ 64 - 1` bytes the bricks are asked for `0`
bytes; one chunk of two is more, and half of the file is returned for all of it. -/
theorem ecLookup_content_cut :
    ∃ t, ecMethodInitialize = some t ∧ ecAdjustSize threeNodes (2 ^ 64 - 1) = 0 ∧
      Agreeing threeNodes longFile (startAnswers longFile 512) ∧
      ecLookupRebuild threeNodes t (fun _ => 0) (2 ^ 64 - 1) longFile.size
        (startAnswers longFile 512) = some ⟨1024, readBytes longFile 0 1024⟩ ∧
      ¬ ContentExact threeNodes t (fun _ => 0) longFile (2 ^ 64 - 1) (startAnswers longFile 512) := by
  obtain ⟨t, initialized, ht⟩ := ecMethodInitialize_sound
  have hagree := startAnswers_agreeing longFile 512 (by norm_num)
  have hadjust : ecAdjustSize threeNodes (2 ^ 64 - 1) = 0 :=
    ecAdjustSize_wraps (by norm_num) (by decide)
  have hlength : ∀ row, ((fragmentBytes threeNodes row longFile).take 512).length = 512 := by
    intro row
    rw [List.length_take, length_fragmentBytes, stripes_longFile]
    rfl
  have hshortest : shortest (usedContents threeNodes (startAnswers longFile 512)) = 512 := by
    have hused : usedContents threeNodes (startAnswers longFile 512)
        = [(0, (fragmentBytes threeNodes 0 longFile).take 512),
          (1, (fragmentBytes threeNodes 1 longFile).take 512)] := rfl
    rw [hused, shortest, List.foldl_cons, List.foldl_cons, List.foldl_nil, hlength, hlength]
    omega
  have hcontent := ecLookupRebuild_eq (fun _ => 0) (2 ^ 64 - 1) ht hagree
    (show 2 ≤ 2 from le_rfl) (S := 1) (by rw [hshortest])
  have hmin : min (min (threeNodes.stripeSize * 1) (2 ^ 64 - 1)) longFile.size = 1024 := by decide
  rw [if_neg one_ne_zero, hmin, int32Of_eq (by norm_num)] at hcontent
  refine ⟨t, initialized, hadjust, hagree, hcontent, fun h => ?_⟩
  have henough : ∀ ans ∈ startAnswers longFile 512, ans.Enough threeNodes longFile (2 ^ 64 - 1) := by
    intro ans hans
    rcases List.mem_pair.mp hans with rfl | rfl <;>
      exact ⟨_, rfl, Or.inl (by rw [hadjust]; exact Nat.zero_le _)⟩
  have heq := congrArg (fun value => value.data.length) ((h _ hcontent).2 henough)
  simp only [length_readBytes] at heq
  exact absurd heq (by decide)

end GlusterFS.Ec
