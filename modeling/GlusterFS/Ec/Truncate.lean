import GlusterFS.Ec.Writev

/-!
# Truncating a file of a disperse volume

`ec_manager_truncate` cuts the fragment files after whole stripes, and then
`ec_truncate_clean` writes zeros from the new end of the file to the end of the last
stripe.  It does so when the file gets shorter and `fop->user_size != fop->offset`.
The first is the size that the user asked for, the second the size of the **fragment
files**; the two are meant to say that the new size is a multiple of the stripe, but
they are equal for the sizes `0` and `512` and no others, whatever the number of
fragments.

For the size `512` the old bytes of the first stripe stay on the bricks.  They come to
light when the file grows again: `truncate_leaks`.  `ecTruncate_exact_iff` says that
every other truncation is right, and this one exactly when the bytes were zeros.

The write of the zeros runs on the fragment files that are already cut, while its
`pre_size` is still that of the old file (`SameEnd`).
-/

namespace GlusterFS.Ec

open Striped

/-- A file cut or extended with zeros to a size, as `ftruncate` does. -/
def resize (f : File Byte) (n : ℕ) : File Byte where
  size := n
  byte i := if i < n then f.byte i else 0
  beyond _ hi := if_neg (Nat.not_lt.mpr hi)

/-- `ec_manager_truncate` to the size `n`, on the fragment files `bricks` of a file of
`preSize` bytes. -/
def ecTruncate (g : Geometry) (env : WriteEnv) (fuel : ℕ) (bricks : List (File Byte))
    (preSize n : ℕ) : Option (List (File Byte)) :=
  let userSize := n
  let offset := ecAdjustSize g n
  let bricks := bricks.map fun brick => resize brick offset
  let postSize := userSize
  if preSize > postSize ∧ userSize ≠ offset then
    -- `ec_truncate_write`
    (ecWritev g env fuel bricks preSize userSize
      [List.replicate (offset * g.fragments - userSize) 0]).map Prod.fst
  else some bricks

variable {g : Geometry} {f : File Byte}

/-! ## Fragments of cut files -/

/-- Files with the same bytes and the same number of stripes have the same fragments. -/
theorem fragment_congr {f f' : File Byte} (hbyte : ∀ i, f.byte i = f'.byte i)
    (hstripes : (ecCode g).stripes f.size = (ecCode g).stripes f'.size) (idx : ℕ) :
    (ecCode g).fragment idx f = (ecCode g).fragment idx f' := by
  refine File.ext (congrArg (512 * ·) hstripes) fun i => ?_
  exact Code.fragment_byte_congr fun j _ => hbyte _

theorem storedBricks_congr {f f' : File Byte} (hbyte : ∀ i, f.byte i = f'.byte i)
    (hstripes : (ecCode g).stripes f.size = (ecCode g).stripes f'.size) :
    storedBricks g f = storedBricks g f' :=
  List.map_congr_left fun idx _ => fragment_congr hbyte hstripes idx

/-- Fragments that are cut after some stripes are those of a file with these stripes. -/
theorem resize_fragment {f' : File Byte} (idx : ℕ) {m : ℕ}
    (hbyte : ∀ i < g.stripeSize * m, f'.byte i = f.byte i)
    (hstripes : (ecCode g).stripes f'.size = m) :
    resize ((ecCode g).fragment idx f) (512 * m) = (ecCode g).fragment idx f' := by
  refine File.ext ?_ fun i => ?_
  · change 512 * m = 512 * (ecCode g).stripes f'.size
    rw [hstripes]
  · change (if i < 512 * m then _ else 0) = _
    split_ifs with hi
    · refine Code.fragment_byte_congr fun j hj => (hbyte _ ?_).symm
      have hstripe : i / 512 < m := Nat.div_lt_of_lt_mul hi
      calc (ecCode g).stripe * (i / 512) + j < g.stripeSize * (i / 512) + g.stripeSize :=
            Nat.add_lt_add_left hj _
        _ = g.stripeSize * (i / 512 + 1) := by rw [mul_add, mul_one]
        _ ≤ g.stripeSize * m := Nat.mul_le_mul_left _ hstripe
    · refine (((ecCode g).fragment idx f').beyond i ?_).symm
      rw [Code.size_fragment, hstripes]
      exact Nat.not_lt.mp hi

theorem resize_storedBricks {f' : File Byte} {m : ℕ}
    (hbyte : ∀ i < g.stripeSize * m, f'.byte i = f.byte i)
    (hstripes : (ecCode g).stripes f'.size = m) :
    (storedBricks g f).map (fun brick => resize brick (512 * m)) = storedBricks g f' := by
  rw [storedBricks, List.map_map]
  exact List.map_congr_left fun idx _ => resize_fragment idx hbyte hstripes

/-! ## The two sizes -/

/-- The number of stripes in the source's terms. -/
theorem stripes_eq (g : Geometry) (n : ℕ) :
    (ecCode g).stripes n = (n + (g.stripeSize - 1)) / g.stripeSize := by
  have hpos := g.stripeSize_pos
  rw [← Nat.add_sub_assoc hpos]
  exact Nat.ceilDiv_eq_add_pred_div n g.stripeSize

theorem ecAdjustSize_stripes (g : Geometry) {n : ℕ} (hn : n < 2 ^ 63) :
    ecAdjustSize g n = 512 * (ecCode g).stripes n := by
  have := g.stripeSize_le
  rw [ecAdjustSize_eq, Nat.mod_eq_of_lt (by omega), stripes_eq]

/-- **When the new size of the file is the new size of its fragments.** -/
theorem eq_fragment_size_iff (g : Geometry) {n : ℕ} :
    n = 512 * (ecCode g).stripes n ↔ n = 0 ∨ n = 512 := by
  constructor
  · intro h
    have hle := (ecCode g).stripes_le_iff (n := n) (m := (ecCode g).stripes n - 1)
    generalize (ecCode g).stripes n = m at h hle
    by_contra hother
    have hm : 2 ≤ m := by omega
    have htwo := g.two_le
    have hbound : n ≤ (ecCode g).stripe * (m - 1) := by
      rw [ecCode_stripe, h]
      calc 512 * m ≤ 512 * (2 * (m - 1)) := by omega
        _ ≤ 512 * (g.fragments * (m - 1)) :=
            Nat.mul_le_mul_left _ (Nat.mul_le_mul_right _ htwo)
        _ = 512 * g.fragments * (m - 1) := by ring
    have := hle.mpr hbound
    omega
  · rintro (rfl | rfl)
    · rw [Code.stripes_zero]
    · have hpos := g.stripeSize_pos
      have htwo := g.two_le
      have hone : (ecCode g).stripes 512 = 1 := by
        refine le_antisymm ((ecCode g).stripes_le_iff.mpr ?_) ((ecCode g).lt_stripes_iff.mpr ?_)
        · rw [ecCode_stripe]
          omega
        · omega
      rw [hone]

/-! ## Truncations that clean up -/

/-- The file with the stripes that a truncation to `n` leaves on the bricks. -/
theorem stripes_truncate {n : ℕ} (h : n < f.size) :
    (ecCode g).stripes (f.truncate (g.stripeSize * (ecCode g).stripes n)).size
      = (ecCode g).stripes n := by
  change (ecCode g).stripes (min (g.stripeSize * (ecCode g).stripes n) f.size) = _
  rw [(ecCode g).stripes_mono.map_min]
  have hwhole : (ecCode g).stripes (g.stripeSize * (ecCode g).stripes n) = (ecCode g).stripes n :=
    (ecCode g).stripes_mul _
  rw [hwhole]
  exact min_eq_left ((ecCode g).stripes_mono h.le)

/-- A truncation leaves the stripes of the file on the bricks. -/
theorem resize_storedBricks_truncate {n : ℕ} (h : n < f.size) :
    (storedBricks g f).map (fun brick => resize brick (512 * (ecCode g).stripes n))
      = storedBricks g (f.truncate (g.stripeSize * (ecCode g).stripes n)) :=
  resize_storedBricks (fun _ hi => if_pos hi) (stripes_truncate h)

/-- A file that grows needs no cleaning. -/
theorem resize_storedBricks_of_le {n : ℕ} (h : f.size ≤ n) :
    (storedBricks g f).map (fun brick => resize brick (512 * (ecCode g).stripes n))
      = storedBricks g (resize f n) := by
  refine resize_storedBricks (fun i _ => ?_) rfl
  change (if i < n then f.byte i else 0) = f.byte i
  split_ifs with hi
  · rfl
  · exact (f.beyond i (by omega)).symm

/-- Zeros from the new end of the file to the end of its last stripe. -/
theorem storedBricks_write_zeros {n : ℕ} :
    storedBricks g ((f.truncate (g.stripeSize * (ecCode g).stripes n)).write n
        (List.replicate (g.stripeSize * (ecCode g).stripes n - n) 0))
      = storedBricks g (resize f n) := by
  have hle : n ≤ g.stripeSize * (ecCode g).stripes n := (ecCode g).le_stripe_mul_stripes n
  refine storedBricks_congr (fun i => ?_) ?_
  · change (if n ≤ i ∧ i < n + _ then (List.replicate _ (0 : Byte)).getD _ 0
      else if i < g.stripeSize * (ecCode g).stripes n then f.byte i else 0)
        = if i < n then f.byte i else 0
    rw [List.length_replicate, getD_replicate_zero]
    split_ifs <;> first | rfl | omega
  · change (ecCode g).stripes (max (min _ f.size) (n + _)) = (ecCode g).stripes n
    rw [List.length_replicate, max_eq_right (by omega), Nat.add_sub_cancel' hle]
    exact (ecCode g).stripes_mul _

theorem stripes_le_div_succ (g : Geometry) (n : ℕ) :
    (ecCode g).stripes n ≤ n / g.stripeSize + 1 :=
  (ecCode g).stripes_le_iff.mpr (Nat.lt_mul_div_succ n g.stripeSize_pos).le

/-- **The zeros that `ec_truncate_write` writes**, for a size inside a stripe or between
two. -/
theorem ecWritev_zeros {env : WriteEnv} (henv : env.Ok g) {fuel : ℕ} (hfuel : 2 ≤ fuel) {n : ℕ}
    (hn : n < 2 ^ 63) (h : n < f.size) :
    (ecWritev g env fuel (storedBricks g (f.truncate (g.stripeSize * (ecCode g).stripes n)))
        f.size n [List.replicate (512 * (ecCode g).stripes n * g.fragments - n) 0]).map Prod.fst
      = some (storedBricks g (resize f n)) := by
  have hle : n ≤ g.stripeSize * (ecCode g).stripes n := (ecCode g).le_stripe_mul_stripes n
  have hlt : g.stripeSize * (ecCode g).stripes n ≤ n + g.stripeSize := by
    have := Nat.mul_le_mul_left g.stripeSize (stripes_le_div_succ g n)
    rw [mul_add, mul_one] at this
    have := Nat.mul_div_le n g.stripeSize
    omega
  have hscale : 512 * (ecCode g).stripes n * g.fragments
      = g.stripeSize * (ecCode g).stripes n := by
    rw [g.stripeSize_eq]
    ring
  have hstripe := g.stripeSize_le
  rw [hscale, ← storedBricks_write_zeros]
  rcases Nat.lt_or_eq_of_le hle with hinside | hbetween
  · have hflatten : [List.replicate (g.stripeSize * (ecCode g).stripes n - n) (0 : Byte)].flatten
        = List.replicate (g.stripeSize * (ecCode g).stripes n - n) 0 := by simp
    have hlength : n + [List.replicate (g.stripeSize * (ecCode g).stripes n - n)
        (0 : Byte)].flatten.length = g.stripeSize * (ecCode g).stripes n := by
      rw [hflatten, List.length_replicate, Nat.add_sub_cancel' hle]
    have hend : (ecCode g).endStripe n [List.replicate (g.stripeSize * (ecCode g).stripes n - n)
        (0 : Byte)].flatten = (ecCode g).stripes n := by
      rw [Code.endStripe, hlength]
      exact (ecCode g).stripes_mul _
    have hone : writtenStripes g n [List.replicate (g.stripeSize * (ecCode g).stripes n - n)
        (0 : Byte)].flatten ≤ 1 := by
      rw [writtenStripes, hend, firstStripe_eq]
      exact Nat.sub_le_iff_le_add'.mpr (stripes_le_div_succ g n)
    have hsame : SameEnd g (f.truncate (g.stripeSize * (ecCode g).stripes n)) f.size
        (n / g.stripeSize) ((ecCode g).endStripe n
          [List.replicate (g.stripeSize * (ecCode g).stripes n - n) (0 : Byte)].flatten) := by
      intro m _ hm
      rw [hend] at hm
      have hstep := Nat.mul_le_mul_left g.stripeSize (Nat.succ_le_of_lt hm)
      rw [Nat.succ_eq_add_one, mul_add, mul_one] at hstep
      change min f.size _ = min (min _ f.size) _
      omega
    have hne :
        [List.replicate (g.stripeSize * (ecCode g).stripes n - n) (0 : Byte)].flatten ≠ [] := by
      refine List.ne_nil_of_length_pos ?_
      omega
    rw [ecWritev_run henv fuel (by omega) (by omega) hne (min_le_right _ _) hsame,
      if_pos (by omega), Option.map_some, hflatten]
  · have hnothing : g.stripeSize * (ecCode g).stripes n - n = 0 := by omega
    rw [hnothing, List.replicate_zero]
    have haligned : n % g.stripeSize = 0 := by
      rw [hbetween]
      exact Nat.mul_mod_right _ _
    rw [ecWritev_nothing (by omega) haligned]
    refine congrArg some (storedBricks_congr (fun i => ?_) (congrArg _ ?_))
    · exact (if_neg fun hin => by rw [List.length_nil] at hin; omega).symm
    · change min _ f.size = max (min _ f.size) (n + 0)
      omega

/-! ## When the bricks hold the new file -/

/-- Bricks with the same fragments hold the same first stripe. -/
theorem byte_eq_of_storedBricks {t : GfTables} (ht : t.Sound) {rows : List ℕ}
    (hrows : ValidRows g.fragments rows) (hnodes : ∀ row ∈ rows, row < g.nodes) {f f' : File Byte}
    (hf : 1 ≤ (ecCode g).stripes f.size) (hf' : 1 ≤ (ecCode g).stripes f'.size)
    (h : storedBricks g f = storedBricks g f') {i : ℕ} (hi : i < g.stripeSize) :
    f.byte i = f'.byte i := by
  have hbrick : ∀ row ∈ rows, brickBytes g f row 0 512 = brickBytes g f' row 0 512 := by
    intro row hrow
    have hfragment : (storedBricks g f).getD row File.empty
        = (storedBricks g f').getD row File.empty := by rw [h]
    rw [getD_storedBricks (hnodes row hrow), getD_storedBricks (hnodes row hrow)] at hfragment
    exact congrArg (fun file => ((fileBytes file).drop 0).take 512) hfragment
  -- both are decoded from the same blocks
  have decode : ∀ f : File Byte, 1 ≤ (ecCode g).stripes f.size →
      ecMethodDecode t 2 (512 * 1) g.fragments rows
          (rows.map fun row => brickBytes g f row (512 * 0) (512 * 1))
          (List.replicate (g.stripeSize * 1) 0)
        = some (g.stripeSize * 1, readBytes f (g.stripeSize * 0) (g.stripeSize * 1)) := by
    intro f hf
    refine ecMethodDecode_range ht hrows hnodes (by norm_num) (by omega)
      (by rw [List.length_map, hrows.length]) (fun c hc => ?_) List.length_replicate
    rw [List.getD_eq_getElem?_getD, List.getElem?_map, hrows.getElem?_eq hc]
    refine List.take_of_length_le ?_
    rw [Option.map_some, Option.getD_some, length_brickBytes]
    omega
  have hblocks : (rows.map fun row => brickBytes g f row (512 * 0) (512 * 1))
      = rows.map fun row => brickBytes g f' row (512 * 0) (512 * 1) :=
    List.map_congr_left hbrick
  have hdecode' := decode f' hf'
  rw [← hblocks, decode f hf] at hdecode'
  have hread : readBytes f (g.stripeSize * 0) (g.stripeSize * 1)
      = readBytes f' (g.stripeSize * 0) (g.stripeSize * 1) :=
    congrArg Prod.snd (Option.some.inj hdecode')
  have hbyte : (readBytes f (g.stripeSize * 0) (g.stripeSize * 1))[i]?
      = (readBytes f' (g.stripeSize * 0) (g.stripeSize * 1))[i]? := by rw [hread]
  rw [readBytes, readBytes, List.getElem?_map, List.getElem?_map,
    List.getElem?_range (by omega)] at hbyte
  simpa using hbyte

/-- **Exactly when a truncation is right.**  For every geometry, file and new size, whatever
is in the buffers and whichever bricks answer: the truncation returns, and the bricks
hold the file cut or extended to `n`, unless `n` is `512` and the file has a byte other
than zero behind it in the first stripe. -/
theorem ecTruncate_exact_iff (g : Geometry) (junk : ℕ → ℕ → Byte) {headRows tailRows : List ℕ}
    (hhead : ValidRows g.fragments headRows) (hheadNodes : ∀ row ∈ headRows, row < g.nodes)
    (htail : ValidRows g.fragments tailRows) (htailNodes : ∀ row ∈ tailRows, row < g.nodes)
    (tailFirst : Bool) {fuel : ℕ} (hfuel : 2 ≤ fuel) (f : File Byte) {n : ℕ} (hn : n < 2 ^ 63) :
    ∃ t bricks, ecMethodInitialize = some t ∧
      ecTruncate g ⟨t, junk, headRows, tailRows, tailFirst⟩ fuel (storedBricks g f) f.size n
        = some bricks ∧
      (bricks = storedBricks g (resize f n) ↔
        n ≠ 512 ∨ ∀ i, 512 ≤ i → i < g.stripeSize → f.byte i = 0) := by
  obtain ⟨t, initialized, ht⟩ := ecMethodInitialize_sound
  simp only [ecTruncate, ecAdjustSize_stripes g hn]
  by_cases hshort : f.size ≤ n
  · refine ⟨t, _, initialized, if_neg fun h => absurd h.1 (Nat.not_lt.mpr hshort), ?_⟩
    refine iff_of_true (resize_storedBricks_of_le hshort) ?_
    by_cases hn : n = 512
    · exact Or.inr fun i hi _ => f.beyond i (by omega)
    · exact Or.inl hn
  have hlong : n < f.size := Nat.not_le.mp hshort
  rw [resize_storedBricks_truncate hlong]
  by_cases heq : n = 512 * (ecCode g).stripes n
  · refine ⟨t, _, initialized, if_neg fun h => h.2 heq, ?_⟩
    have hstripes := stripes_truncate (g := g) hlong
    rcases (eq_fragment_size_iff g).mp heq with rfl | rfl
    · refine iff_of_true (storedBricks_congr (fun i => ?_) hstripes) (Or.inl (by norm_num))
      rw [Code.stripes_zero]
      rfl
    · have hone : (ecCode g).stripes 512 = 1 := by omega
      rw [hone, mul_one] at hstripes ⊢
      constructor
      · intro h
        refine Or.inr fun i hlo hhi => ?_
        have hbyte := byte_eq_of_storedBricks ht hhead hheadNodes hstripes.ge hone.ge h hhi
        change (if i < g.stripeSize then f.byte i else 0) = if i < 512 then f.byte i else 0 at hbyte
        rwa [if_pos hhi, if_neg (Nat.not_lt.mpr hlo)] at hbyte
      · rintro (hne | hzero)
        · exact absurd rfl hne
        · refine storedBricks_congr (fun i => ?_) (hstripes.trans hone.symm)
          change (if i < g.stripeSize then f.byte i else 0) = if i < 512 then f.byte i else 0
          have hstripe : 512 ≤ g.stripeSize := Nat.le_mul_of_pos_right _ g.fragments_pos
          split_ifs with hin hfirst hfirst
          · rfl
          · exact hzero i (Nat.not_lt.mp hfirst) hin
          · omega
          · rfl
  · refine ⟨t, _, initialized, (if_pos ⟨hlong, heq⟩).trans (ecWritev_zeros
      ⟨ht, hhead, hheadNodes, htail, htailNodes⟩ hfuel hn hlong), iff_of_true rfl (Or.inl ?_)⟩
    rintro rfl
    exact heq ((eq_fragment_size_iff g).mpr (Or.inr rfl))

/-- A file of one stripe of two chunks, full of ones. -/
def fullFile : File Byte where
  size := 1024
  byte i := if i < 1024 then 1 else 0
  beyond _ hi := if_neg (Nat.not_lt.mpr hi)

/-- The file is cut to `100` bytes. -/
theorem ecTruncate_exact_iff_fullFile :
    ∃ t, ecMethodInitialize = some t ∧
      ecTruncate threeNodes ⟨t, fun _ _ => 7, [0, 1], [0, 1], false⟩ 2
        (storedBricks threeNodes fullFile) 1024 100
          = some (storedBricks threeNodes (resize fullFile 100)) := by
  obtain ⟨t, bricks, initialized, run, exact_iff⟩ := ecTruncate_exact_iff threeNodes
    (fun _ _ => 7) threeNodes_rows threeNodes_nodes threeNodes_rows threeNodes_nodes false le_rfl
    fullFile (show 100 < 2 ^ 63 by norm_num)
  exact ⟨t, initialized, run.trans (congrArg some (exact_iff.mpr (Or.inl (by norm_num))))⟩

theorem stripes_fullFile {n : ℕ} (hpos : 0 < n) (hle : n ≤ 1024) :
    (ecCode threeNodes).stripes n = 1 :=
  le_antisymm ((ecCode threeNodes).stripes_le_iff.mpr hle)
    ((ecCode threeNodes).lt_stripes_iff.mpr hpos)

/-- **Old bytes come back.**  The file is cut to `512` bytes and then extended to its old
size.  The bricks have not changed, and a read behind the first `512` bytes, which should
give a zero, gives an old byte. -/
theorem truncate_leaks :
    ∃ t, ecMethodInitialize = some t ∧
      ecTruncate threeNodes ⟨t, fun _ _ => 0, [0, 1], [0, 1], false⟩ 2
        (storedBricks threeNodes fullFile) 1024 512 = some (storedBricks threeNodes fullFile) ∧
      storedBricks threeNodes fullFile ≠ storedBricks threeNodes (resize fullFile 512) ∧
      ecTruncate threeNodes ⟨t, fun _ _ => 0, [0, 1], [0, 1], false⟩ 2
        (storedBricks threeNodes fullFile) 512 1024 = some (storedBricks threeNodes fullFile) ∧
      ecReadv threeNodes t (fun _ => 0) [0, 1] fullFile 512 1 = some ⟨1, [1]⟩ := by
  obtain ⟨t, initialized, ht⟩ := ecMethodInitialize_sound
  have hfull : (ecCode threeNodes).stripes fullFile.size = 1 :=
    stripes_fullFile (by decide) le_rfl
  have hcut : (storedBricks threeNodes fullFile).map (fun brick => resize brick (512 * 1))
      = storedBricks threeNodes fullFile := resize_storedBricks (fun _ _ => rfl) hfull
  have hsmall : (ecCode threeNodes).stripes 512 = 1 := stripes_fullFile (by norm_num) (by norm_num)
  have hlarge : (ecCode threeNodes).stripes 1024 = 1 := stripes_fullFile (by norm_num) le_rfl
  refine ⟨t, initialized, ?_, fun h => ?_, ?_, ?_⟩
  · simp only [ecTruncate, ecAdjustSize_stripes threeNodes (show 512 < 2 ^ 63 by norm_num), hsmall,
      hcut]
    exact if_neg fun h => h.2 rfl
  · have hbyte := byte_eq_of_storedBricks ht threeNodes_rows threeNodes_nodes hfull.ge hsmall.ge h
      (show 512 < threeNodes.stripeSize by decide)
    exact absurd hbyte (by decide)
  · simp only [ecTruncate, ecAdjustSize_stripes threeNodes (show 1024 < 2 ^ 63 by norm_num), hlarge,
      hcut]
    exact if_neg fun h => absurd h.1 (by norm_num)
  · have hread : ReadsExactly threeNodes t (fun _ => 0) [0, 1] fullFile 512 1 := by
      refine (readsExactly_iff ht threeNodes_rows threeNodes_nodes _ fullFile (by decide)
        (by norm_num) (by norm_num)).mpr ⟨by norm_num, fun h => absurd h (by decide), ?_, ?_⟩
      · exact lt_of_le_of_lt (min_le_left _ _) (by norm_num)
      · exact fun h => absurd h (by decide)
    have hn : min 1 (fullFile.size - 512) = 1 := by decide
    have hbytes : readBytes fullFile 512 1 = [1] := by decide
    simp only [ReadsExactly, hn, hbytes, Nat.cast_one] at hread
    exact hread

end GlusterFS.Ec
