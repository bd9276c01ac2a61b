import Mathlib

/-!
# Offsets that carry an index

A directory that is spread over several places presents offsets from which the place can be
told.  An offset of 63 bits has room for an index only if it is small: then it is
multiplied with the number of places and the index is added.  A huge one loses its low bits,
the index is put there, and the top bit of the 63 says so (`transform`).

`detransform` gets both back from a small offset (`detransform_transform_small`).  From a huge one
it gets the index and all but the low `bits + 1` bits (`detransform_transform_huge`).
-/

namespace IndexedOffset

/-! ## Definitions -/

/-- All ones. -/
def mask : BitVec 64 := BitVec.allOnes 64

/-- The bits that are presented. -/
def presentMask : BitVec 64 := mask >>> 1

/-- The top bit of those. -/
def topBit : BitVec 64 := 1#64 <<< 62

/-- The number of low bits that make room for the top bit. -/
def shiftBits : ℕ := 1

/-- The offset with an index; `bits` is the room that an index needs and `count` the number
of places. -/
def transform (bits count index : ℕ) (x : BitVec 64) : BitVec 64 :=
  if x &&& ~~~(presentMask >>> (bits + 1)) ≠ 0 then
    topBit ||| ((x >>> shiftBits) &&& (mask <<< bits)) ||| BitVec.ofNat 64 index
  else x * BitVec.ofNat 64 count + BitVec.ofNat 64 index

/-- The index, and what is left of the offset. -/
def detransform (bits count : ℕ) (y : BitVec 64) : ℕ × BitVec 64 :=
  if y &&& topBit ≠ 0 then
    ((y &&& ~~~(mask <<< bits)).toNat, ((y &&& ~~~topBit) &&& (mask <<< bits)) <<< shiftBits)
  else ((y % BitVec.ofNat 64 count).toNat, y / BitVec.ofNat 64 count)

/-! ## Masks -/

variable {bits count index : ℕ} {x y : BitVec 64}

theorem toNat_mask_shift {k : ℕ} (hk : k ≤ 64) : (mask <<< k).toNat = 2 ^ 64 - 2 ^ k := by
  have hpow : 2 ^ k ≤ 2 ^ 64 := Nat.pow_le_pow_right (by norm_num) hk
  have hpos : 0 < 2 ^ k := Nat.two_pow_pos k
  have hsplit : (2 ^ 64 - 1) * 2 ^ k = 2 ^ 64 - 2 ^ k + 2 ^ 64 * (2 ^ k - 1) := by
    generalize 2 ^ k = p at *
    omega
  rw [BitVec.toNat_shiftLeft, mask, BitVec.toNat_allOnes, Nat.shiftLeft_eq, hsplit,
    Nat.add_mul_mod_self_left, Nat.mod_eq_of_lt (by omega)]

theorem getElem_mask {i : ℕ} (hi : i < 64) : mask[i] = true := by
  simp only [mask, BitVec.getElem_allOnes]

/-- Clearing the low bits. -/
theorem toNat_and_mask (y : BitVec 64) (k : ℕ) :
    (y &&& (mask <<< k)).toNat = y.toNat / 2 ^ k * 2 ^ k := by
  have hshift : y &&& (mask <<< k) = (y >>> k) <<< k := by
    ext i hi
    by_cases h : i < k
    · simp [h]
    · have hadd : k + (i - k) = i := by omega
      simp [h, hadd, BitVec.getLsbD_eq_getElem hi, getElem_mask]
  have hle : y.toNat / 2 ^ k * 2 ^ k < 2 ^ 64 := (Nat.div_mul_le_self _ _).trans_lt y.isLt
  rw [hshift, BitVec.toNat_shiftLeft, BitVec.toNat_ushiftRight, Nat.shiftLeft_eq,
    Nat.shiftRight_eq_div_pow, Nat.mod_eq_of_lt hle]

/-- Keeping the low bits. -/
theorem toNat_and_not_mask (y : BitVec 64) {k : ℕ} (hk : k ≤ 64) :
    (y &&& ~~~(mask <<< k)).toNat = y.toNat % 2 ^ k := by
  have hpow : 2 ^ k ≤ 2 ^ 64 := Nat.pow_le_pow_right (by norm_num) hk
  have hones : (~~~(mask <<< k)).toNat = 2 ^ k - 1 := by
    rw [BitVec.toNat_not, toNat_mask_shift hk]
    omega
  rw [BitVec.toNat_and, hones, Nat.and_two_pow_sub_one_eq_mod]

/-- The bits of a huge offset that a small one does not have. -/
theorem not_presentMask_shift (hbits : bits ≤ 62) :
    ~~~(presentMask >>> (bits + 1)) = mask <<< (62 - bits) := by
  have hpos : 0 < 2 ^ (62 - bits) := Nat.two_pow_pos _
  have hlow : 0 < 2 ^ (bits + 1) := Nat.two_pow_pos _
  have hones : (presentMask >>> (bits + 1)).toNat = 2 ^ (62 - bits) - 1 := by
    have hpow : presentMask.toNat = 2 ^ (bits + 1) * (2 ^ (62 - bits) - 1) + (2 ^ (bits + 1) - 1) := by
      have hsplit : (2 : ℕ) ^ 63 = 2 ^ (bits + 1) * 2 ^ (62 - bits) := by
        rw [← pow_add]
        congr 1
        omega
      have hnat : presentMask.toNat = 2 ^ 63 - 1 := by decide
      rw [hnat, hsplit, Nat.mul_sub_one]
      have := Nat.le_mul_of_pos_right (2 ^ (bits + 1)) hpos
      omega
    rw [BitVec.toNat_ushiftRight, Nat.shiftRight_eq_div_pow, hpow, Nat.mul_add_div hlow,
      Nat.div_eq_of_lt (by omega), Nat.add_zero]
  rw [← BitVec.toNat_inj, BitVec.toNat_not, hones, toNat_mask_shift (by omega)]
  omega

theorem huge_iff (hbits : bits ≤ 62) :
    x &&& ~~~(presentMask >>> (bits + 1)) ≠ 0 ↔ 2 ^ (62 - bits) ≤ x.toNat := by
  have hpos : 0 < 2 ^ (62 - bits) := Nat.two_pow_pos _
  rw [not_presentMask_shift hbits, Ne, ← BitVec.toNat_inj, toNat_and_mask]
  change ¬ x.toNat / 2 ^ (62 - bits) * 2 ^ (62 - bits) = 0 ↔ _
  rw [Nat.mul_eq_zero, Nat.div_eq_zero_iff]
  omega

/-- A number is split by a mask. -/
theorem toNat_and_add_and_not (y m : BitVec 64) :
    (y &&& m).toNat + (y &&& ~~~m).toNat = y.toNat := by
  have hdisjoint : (y &&& m) &&& (y &&& ~~~m) = 0#64 := by
    ext i hi
    simp only [BitVec.getElem_and, BitVec.getElem_not, BitVec.getElem_zero]
    cases y[i] <;> cases m[i] <;> rfl
  have hor : (y &&& m) ||| (y &&& ~~~m) = y := by
    ext i hi
    simp only [BitVec.getElem_or, BitVec.getElem_and, BitVec.getElem_not]
    cases y[i] <;> cases m[i] <;> rfl
  rw [← BitVec.toNat_add_of_and_eq_zero hdisjoint, BitVec.add_eq_or_of_and_eq_zero _ _ hdisjoint,
    hor]

/-- The top bit of a presented offset. -/
theorem toNat_and_topBit (hy : y.toNat < 2 ^ 63) :
    (y &&& topBit).toNat = if 2 ^ 62 ≤ y.toNat then 2 ^ 62 else 0 := by
  have htop : topBit.toNat = 2 ^ 62 := by decide
  rw [BitVec.toNat_and, htop, Nat.and_two_pow, Nat.testBit_eq_decide_div_mod_eq]
  split
  · have hone : y.toNat / 2 ^ 62 % 2 = 1 := by omega
    rw [hone]
    rfl
  · have hzero : y.toNat / 2 ^ 62 % 2 = 0 := by omega
    rw [hzero]
    rfl

/-! ## What the transformations compute -/

/-- An index and the bits above it. -/
theorem mul_add_lt {k : ℕ} (hbits : bits ≤ 62) (hk : k < 2 ^ (62 - bits)) (hcount : count ≤ 2 ^ bits)
    (hindex : index < count) : k * count + index < 2 ^ 62 := by
  calc k * count + index < (k + 1) * count := by
        rw [Nat.add_mul]
        omega
    _ ≤ 2 ^ (62 - bits) * 2 ^ bits := Nat.mul_le_mul hk hcount
    _ = 2 ^ 62 := by
        rw [← pow_add]
        congr 1
        omega

/-- What a huge offset leaves below the top bit. -/
theorem huge_lt {x : ℕ} (hbits : bits ≤ 62) (hindex : index < 2 ^ bits) (hx : x < 2 ^ 63) :
    x / 2 ^ (bits + 1) * 2 ^ bits + index < 2 ^ 62 := by
  refine mul_add_lt hbits (Nat.div_lt_of_lt_mul ?_) le_rfl hindex
  rwa [← pow_add, show bits + 1 + (62 - bits) = 63 by omega]

theorem toNat_transform_huge (hbits : bits ≤ 62) (hindex : index < 2 ^ bits)
    (hx : x.toNat < 2 ^ 63) (hhuge : 2 ^ (62 - bits) ≤ x.toNat) :
    (transform bits count index x).toNat =
      2 ^ 62 + (x.toNat / 2 ^ (bits + 1) * 2 ^ bits + index) := by
  have hindex64 : index < 2 ^ 64 :=
    hindex.trans_le (Nat.pow_le_pow_right (by norm_num) (by omega))
  have hlow : 2 ^ bits * (x.toNat / 2 ^ (bits + 1)) + index < 2 ^ 62 := by
    rw [Nat.mul_comm]
    exact huge_lt hbits hindex hx
  have htop : topBit.toNat = 2 ^ 62 * 1 := by decide
  rw [transform, if_pos ((huge_iff hbits).mpr hhuge), BitVec.toNat_or, BitVec.toNat_or,
    toNat_and_mask, BitVec.toNat_ofNat, Nat.mod_eq_of_lt hindex64, BitVec.toNat_ushiftRight,
    Nat.shiftRight_eq_div_pow, shiftBits, Nat.div_div_eq_div_mul, ← pow_add, Nat.add_comm 1 bits,
    Nat.or_assoc, Nat.mul_comm _ (2 ^ bits), ← Nat.two_pow_add_eq_or_of_lt hindex, htop,
    ← Nat.two_pow_add_eq_or_of_lt hlow, Nat.mul_one]

/-- The top bit of a huge offset is set, and the index stands in its low bits. -/
theorem transform_huge (hbits : bits ≤ 62) (hindex : index < 2 ^ bits)
    (hx : x.toNat < 2 ^ 63) (hhuge : 2 ^ (62 - bits) ≤ x.toNat) :
    2 ^ 62 ≤ (transform bits count index x).toNat ∧
      (transform bits count index x).toNat < 2 ^ 63 ∧
      (transform bits count index x).toNat % 2 ^ bits = index := by
  have hlow := huge_lt hbits hindex hx
  have htop : 2 ^ 62 = 2 ^ (62 - bits) * 2 ^ bits := by
    rw [← pow_add]
    congr 1
    omega
  rw [toNat_transform_huge hbits hindex hx hhuge]
  refine ⟨Nat.le_add_right _ _, by omega, ?_⟩
  rw [htop, Nat.mul_add_mod_self_right, Nat.mul_add_mod_self_right, Nat.mod_eq_of_lt hindex]

theorem toNat_transform_small (hbits : bits ≤ 62) (hindex : index < count)
    (hcount : count ≤ 2 ^ bits) (hsmall : x.toNat < 2 ^ (62 - bits)) :
    (transform bits count index x).toNat = x.toNat * count + index := by
  have hlt := mul_add_lt hbits hsmall hcount hindex
  have hcount64 : count < 2 ^ 64 :=
    hcount.trans_lt (Nat.pow_lt_pow_right (by norm_num) (by omega))
  have hnot : ¬ (x &&& ~~~(presentMask >>> (bits + 1)) ≠ 0) :=
    fun h => absurd ((huge_iff hbits).mp h) (by omega)
  rw [transform, if_neg hnot, BitVec.toNat_add, BitVec.toNat_mul, BitVec.toNat_ofNat,
    BitVec.toNat_ofNat, Nat.mod_eq_of_lt hcount64, Nat.mod_eq_of_lt (hindex.trans hcount64),
    Nat.mod_add_mod, Nat.mod_eq_of_lt (by omega)]

theorem detransform_top (hbits : bits ≤ 62) (hy : y.toNat < 2 ^ 63) (htop : 2 ^ 62 ≤ y.toNat) :
    (detransform bits count y).1 = y.toNat % 2 ^ bits ∧
      (detransform bits count y).2.toNat = (y.toNat - 2 ^ 62) / 2 ^ bits * 2 ^ bits * 2 := by
  have hbit := toNat_and_topBit hy
  rw [if_pos htop] at hbit
  have hset : y &&& topBit ≠ 0 := by
    intro h
    rw [h] at hbit
    exact absurd hbit (by decide)
  have hrest : (y &&& ~~~topBit).toNat = y.toNat - 2 ^ 62 := by
    have := toNat_and_add_and_not y topBit
    omega
  have hle := Nat.div_mul_le_self (y.toNat - 2 ^ 62) (2 ^ bits)
  rw [detransform, if_pos hset]
  refine ⟨toNat_and_not_mask y (by omega), ?_⟩
  rw [BitVec.toNat_shiftLeft, toNat_and_mask, hrest, Nat.shiftLeft_eq, shiftBits, pow_one,
    Nat.mod_eq_of_lt (by omega)]

theorem detransform_low (hcount : count < 2 ^ 64) (hlow : y.toNat < 2 ^ 62) :
    (detransform bits count y).1 = y.toNat % count ∧
      (detransform bits count y).2.toNat = y.toNat / count := by
  have hbit := toNat_and_topBit (y := y) (by omega)
  rw [if_neg (by omega)] at hbit
  have hclear : ¬ (y &&& topBit ≠ 0) := fun h => h (BitVec.eq_of_toNat_eq hbit)
  rw [detransform, if_neg hclear, BitVec.toNat_umod, BitVec.toNat_udiv, BitVec.toNat_ofNat,
    Nat.mod_eq_of_lt hcount]
  exact ⟨rfl, rfl⟩

/-! ## Round trips -/

/-- **A small offset and its index come back.** -/
theorem detransform_transform_small (hbits : bits ≤ 62) (hindex : index < count)
    (hcount : count ≤ 2 ^ bits) (hsmall : x.toNat < 2 ^ (62 - bits)) :
    detransform bits count (transform bits count index x) = (index, x) := by
  have hcount64 : count < 2 ^ 64 :=
    hcount.trans_lt (Nat.pow_lt_pow_right (by norm_num) (by omega))
  have hvalue := toNat_transform_small hbits hindex hcount hsmall
  have hlow : (transform bits count index x).toNat < 2 ^ 62 := by
    rw [hvalue]
    exact mul_add_lt hbits hsmall hcount hindex
  obtain ⟨hfst, hsnd⟩ := @detransform_low bits count _ hcount64 hlow
  rw [hvalue] at hfst hsnd
  refine Prod.ext (hfst.trans ?_) (BitVec.eq_of_toNat_eq (hsnd.trans ?_))
  · rw [Nat.mul_add_mod_self_right, Nat.mod_eq_of_lt hindex]
  · rw [Nat.mul_comm, Nat.mul_add_div (by omega), Nat.div_eq_of_lt hindex, Nat.add_zero]

/-- **The index of a huge offset comes back, and the offset without its low bits.** -/
theorem detransform_transform_huge (hbits : bits ≤ 62) (hindex : index < 2 ^ bits)
    (hx : x.toNat < 2 ^ 63) (hhuge : 2 ^ (62 - bits) ≤ x.toNat) :
    (detransform bits count (transform bits count index x)).1 = index ∧
      (detransform bits count (transform bits count index x)).2.toNat =
        x.toNat / 2 ^ (bits + 1) * 2 ^ (bits + 1) := by
  obtain ⟨htop, hlt, hmod⟩ := @transform_huge bits count index x hbits hindex hx hhuge
  obtain ⟨hfst, hsnd⟩ := @detransform_top bits count (transform bits count index x) hbits hlt htop
  refine ⟨hfst.trans hmod, hsnd.trans ?_⟩
  have hdiv : (x.toNat / 2 ^ (bits + 1) * 2 ^ bits + index) / 2 ^ bits =
      x.toNat / 2 ^ (bits + 1) := by
    rw [Nat.mul_comm, Nat.mul_add_div (Nat.two_pow_pos _), Nat.div_eq_of_lt hindex, Nat.add_zero]
  rw [toNat_transform_huge hbits hindex hx hhuge, Nat.add_sub_cancel_left, hdiv, Nat.mul_assoc,
    ← pow_succ]

end IndexedOffset
