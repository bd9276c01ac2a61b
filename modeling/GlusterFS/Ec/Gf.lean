import GlusterFS.Lib.BinaryQuotient
import GlusterFS.Lib.Loop

/-!
# The field of the disperse translator and its exponent and logarithm tables

`ec-method.c` computes in `GF(2^8)` modulo `0x11D`, through two byte tables that
`ec_method_initialize` fills: `GfPow[i]` is the `i`-th power of the generator
and `GfLog` its inverse, both stored twice so that a sum of two logarithms
needs no reduction.

* `Gf` is the field itself, an instance of `BinaryQuotient`.
* `GfTables`, `ecMethodInitialize`, `ecMethodMul` and `ecMethodDiv` are the code.
  A table access out of range is `none`.
* `GfTables.Sound` says what the tables hold, `ecMethodInitialize_sound` that
  initialization produces such tables, and `ecMethodMul_eq` and
  `ecMethodDiv_eq` that on them the two functions are the field operations:
  in particular they never leave the tables.
-/

namespace GlusterFS.Ec

open BinaryQuotient

/-- `EC_GF_BITS`. -/
def ecGfBits : ℕ := 8

/-- `EC_GF_SIZE`, `1 << EC_GF_BITS`. -/
def ecGfSize : ℕ := 1 <<< ecGfBits

/-- `EC_GF_MOD`, the polynomial `x^8 + x^4 + x^3 + x^2 + 1`. -/
def ecGfMod : ℕ := 0x11D

/-- `uint8_t`. -/
abbrev Byte := BitVec 8

/-- `GF(2^8)` modulo `EC_GF_MOD`; the bit of degree eight is implicit. -/
abbrev Gf := BinaryQuotient 8 (BitVec.ofNat 8 ecGfMod)

/-! ## The tables -/

/-- The two static tables, `uint32_t GfPow[EC_GF_SIZE << 1]` and
`uint32_t GfLog[EC_GF_SIZE << 1]`. -/
structure GfTables where
  pow : List ℕ
  log : List ℕ

/-- A store into a table; outside of it there is nothing to store to. -/
def store (table : List ℕ) (i value : ℕ) : Option (List ℕ) :=
  if i < table.length then some (table.set i value) else none

/-- The body of the loop of `ec_method_initialize`. -/
def ecMethodInitializeStep (t : GfTables) (i : ℕ) : Option GfTables := do
  let previous ← t.pow[i - 1]?
  let shifted := previous <<< 1
  let value := if shifted ≥ ecGfSize then shifted ^^^ ecGfMod else shifted
  let pow ← store t.pow i value
  let pow ← store pow (i + ecGfSize - 1) value
  let log ← store t.log value i
  let log ← store log (value + ecGfSize - 1) i
  some ⟨pow, log⟩

/-- `ec_method_initialize`. -/
def ecMethodInitialize : Option GfTables := do
  let pow ← store (List.replicate (ecGfSize <<< 1) 0) 0 1
  let log ← store (List.replicate (ecGfSize <<< 1) 0) 0 ecGfSize
  (List.range' 1 (ecGfSize - 1)).foldlM ecMethodInitializeStep ⟨pow, log⟩

/-- `ec_method_mul`. -/
def ecMethodMul (t : GfTables) (a b : ℕ) : Option ℕ :=
  if a ≠ 0 ∧ b ≠ 0 then do
    let logA ← t.log[a]?
    let logB ← t.log[b]?
    t.pow[logA + logB]?
  else
    some 0

/-- `ec_method_div`; the index is a `uint32_t`. -/
def ecMethodDiv (t : GfTables) (a b : ℕ) : Option ℕ :=
  if b ≠ 0 then
    if a ≠ 0 then do
      let logA ← t.log[a]?
      let logB ← t.log[b]?
      t.pow[(ecGfSize - 1 + logA + 2 ^ 32 - logB) % 2 ^ 32]?
    else
      some 0
  else
    some ecGfSize

/-! ## The field -/

/-- The generator has order `255`: its `255`-th power is the unit, and the
powers by `255 / 3`, `255 / 5` and `255 / 17` are not. -/
theorem orderOf_gen : orderOf (gen : Gf) = 255 := by
  have factors : Nat.primeFactors 255 = {3, 5, 17} := by decide +kernel
  refine orderOf_eq_of_pow_and_pow_div_prime (by norm_num) ?_ ?_
  · rw [← shift_iterate_eq_pow]
    decide +kernel
  · intro p hp hdvd
    have hfactor : p ∈ Nat.primeFactors 255 :=
      Nat.mem_primeFactors.mpr ⟨hp, hdvd, by norm_num⟩
    rw [factors] at hfactor
    simp only [Finset.mem_insert, Finset.mem_singleton] at hfactor
    rw [← shift_iterate_eq_pow]
    rcases hfactor with rfl | rfl | rfl <;> decide +kernel

theorem gf_primitive : Primitive 8 (BitVec.ofNat 8 ecGfMod) 255 :=
  primitive_of_orderOf (by norm_num) (by norm_num) orderOf_gen

/-- `EC_GF_MOD` is primitive, so the bytes are a field. -/
instance : Field Gf := fieldOfPrimitive gf_primitive

theorem gf_one_ne_zero : (1 : Gf) ≠ 0 := gf_primitive.one_ne_zero

theorem gen_ne_zero : (gen : Gf) ≠ 0 := by
  intro h
  have := gf_primitive.gen_pow
  rw [h, zero_pow (by norm_num)] at this
  exact gf_one_ne_zero this.symm

/-! ## What the tables hold -/

/-- The table of powers holds the powers of the generator, twice over, and the
logarithm of a non-zero byte is an exponent between `1` and `255` for it. -/
structure GfTables.Sound (t : GfTables) : Prop where
  pow_get : ∀ i ≤ 510, t.pow[i]? = some ((gen : Gf) ^ i).bits.toNat
  log_get : ∀ a : Gf, a ≠ 0 → ∃ l, t.log[a.bits.toNat]? = some l ∧ 1 ≤ l ∧ l ≤ 255 ∧
    (gen : Gf) ^ l = a

/-- The invariant of the loop of `ec_method_initialize`, after the exponents
`1, …, i`. -/
structure GfTables.Filled (t : GfTables) (i : ℕ) : Prop where
  pow_length : t.pow.length = 512
  log_length : t.log.length = 512
  pow_low : ∀ j ≤ i, t.pow[j]? = some ((gen : Gf) ^ j).bits.toNat
  pow_high : ∀ j, 1 ≤ j → j ≤ i → t.pow[j + 255]? = some ((gen : Gf) ^ j).bits.toNat
  log_low : ∀ j, 1 ≤ j → j ≤ i → t.log[((gen : Gf) ^ j).bits.toNat]? = some j

theorem store_of_lt {table : List ℕ} {i value : ℕ} (h : i < table.length) :
    store table i value = some (table.set i value) := if_pos h

/-- The integer shift, subtraction of `EC_GF_SIZE` and reduction of the loop are
one step of the shift register. -/
theorem shifted_eq_shift (a : Gf) :
    (if a.bits.toNat <<< 1 ≥ ecGfSize then a.bits.toNat <<< 1 ^^^ ecGfMod
      else a.bits.toNat <<< 1) = (shift a).bits.toNat := by
  have every : ∀ b : Fin 256, (if b.val <<< 1 ≥ ecGfSize then b.val <<< 1 ^^^ ecGfMod
      else b.val <<< 1) = (shift (⟨BitVec.ofFin b⟩ : Gf)).bits.toNat := by
    decide +kernel
  exact every a.bits.toFin

/-- No two exponents between `1` and `255` give the same byte. -/
theorem gen_pow_toNat_ne {j i : ℕ} (hj : 1 ≤ j) (hji : j < i) (hi : i ≤ 255) :
    ((gen : Gf) ^ j).bits.toNat ≠ ((gen : Gf) ^ i).bits.toNat := by
  intro h
  have equal : (gen : Gf) ^ j = (gen : Gf) ^ i :=
    BinaryQuotient.ext (BitVec.eq_of_toNat_eq h)
  obtain ⟨d, rfl⟩ := Nat.exists_eq_add_of_lt hji
  have unit : (gen : Gf) ^ (d + 1) = 1 := by
    have := pow_ne_zero j gen_ne_zero
    rw [add_assoc, pow_add] at equal
    exact mul_left_cancel₀ this (by rw [mul_one]; exact equal.symm)
  have := orderOf_dvd_of_pow_eq_one unit
  rw [orderOf_gen] at this
  have := Nat.le_of_dvd (by omega) this
  omega

theorem toNat_gen_pow_pos (i : ℕ) : 0 < ((gen : Gf) ^ i).bits.toNat := by
  refine Nat.pos_of_ne_zero fun h => pow_ne_zero i gen_ne_zero ?_
  exact BinaryQuotient.ext (BitVec.eq_of_toNat_eq (by simpa using h))

/-- The tables after the exponent `i`: the power at its place and `255` further
on, and the exponent at the two places of the power. -/
def GfTables.fill (t : GfTables) (i : ℕ) : GfTables :=
  let value := ((gen : Gf) ^ i).bits.toNat
  ⟨(t.pow.set i value).set (i + 255) value, (t.log.set value i).set (value + 255) i⟩

/-- One turn of the loop never leaves the tables. -/
theorem ecMethodInitializeStep_eq {t : GfTables} {i : ℕ} (h : t.Filled i)
    (hi : i < 255) : ecMethodInitializeStep t (i + 1) = some (t.fill (i + 1)) := by
  have powLength := h.pow_length
  have logLength := h.log_length
  have small := ((gen : Gf) ^ (i + 1)).bits.isLt
  have size : ecGfSize = 256 := rfl
  have value : (if ((gen : Gf) ^ i).bits.toNat <<< 1 ≥ ecGfSize
      then ((gen : Gf) ^ i).bits.toNat <<< 1 ^^^ ecGfMod
      else ((gen : Gf) ^ i).bits.toNat <<< 1) = ((gen : Gf) ^ (i + 1)).bits.toNat := by
    rw [shifted_eq_shift, shift_eq_gen_mul, ← pow_succ']
  simp only [ecMethodInitializeStep, Nat.add_sub_cancel, h.pow_low i le_rfl,
    Option.bind_eq_bind, Option.bind_some, value]
  rw [store_of_lt (by omega), Option.bind_some,
    store_of_lt (by rw [List.length_set]; omega), Option.bind_some,
    store_of_lt (by omega), Option.bind_some,
    store_of_lt (by rw [List.length_set]; omega), Option.bind_some]
  rfl

/-- One turn of the loop keeps the invariant: the two copies of a table do not
overlap, and the new power is not one of the earlier ones. -/
theorem GfTables.Filled.fill {t : GfTables} {i : ℕ} (h : t.Filled i) (hi : i < 255) :
    (t.fill (i + 1)).Filled (i + 1) := by
  have powLength := h.pow_length
  have logLength := h.log_length
  have positive := toNat_gen_pow_pos (i + 1)
  have small := ((gen : Gf) ^ (i + 1)).bits.isLt
  refine ⟨by simpa [GfTables.fill] using powLength,
    by simpa [GfTables.fill] using logLength, ?_, ?_, ?_⟩
  · intro j hj
    simp only [GfTables.fill]
    rw [List.getElem?_set_ne (by omega)]
    by_cases hlast : i + 1 = j
    · subst hlast
      rw [List.getElem?_set_self (by omega)]
    · rw [List.getElem?_set_ne hlast, h.pow_low j (by omega)]
  · intro j hlow hj
    simp only [GfTables.fill]
    by_cases hlast : i + 1 = j
    · subst hlast
      rw [List.getElem?_set_self (by rw [List.length_set]; omega)]
    · rw [List.getElem?_set_ne (by omega), List.getElem?_set_ne (by omega),
        h.pow_high j hlow (by omega)]
  · intro j hlow hj
    have smallJ := ((gen : Gf) ^ j).bits.isLt
    simp only [GfTables.fill]
    rw [List.getElem?_set_ne (by omega)]
    by_cases hlast : i + 1 = j
    · subst hlast
      rw [List.getElem?_set_self (by omega)]
    · rw [List.getElem?_set_ne (gen_pow_toNat_ne hlow (by omega) (by omega)).symm,
        h.log_low j hlow (by omega)]

/-- The full tables are sound; the second copy of the powers continues the
first because the generator has order `255`. -/
theorem GfTables.Filled.sound {t : GfTables} (h : t.Filled 255) : t.Sound := by
  refine ⟨fun i hi => ?_, fun a ha => ?_⟩
  · by_cases hlow : i ≤ 255
    · exact h.pow_low i hlow
    · obtain ⟨j, rfl⟩ := Nat.exists_eq_add_of_le' (Nat.le_of_not_le hlow)
      rw [h.pow_high j (by omega) (by omega), pow_add, gf_primitive.gen_pow, mul_one]
  · obtain ⟨i, rfl⟩ := gf_primitive.exists_pow a ha
    -- the exponent `0` is represented by `255`
    have reduced : ∃ l, 1 ≤ l ∧ l ≤ 255 ∧ (gen : Gf) ^ l = (gen : Gf) ^ i := by
      have wrap := pow_mod_orderOf (gen : Gf) i
      rw [orderOf_gen] at wrap
      have := Nat.mod_lt i (show 0 < 255 by norm_num)
      by_cases hzero : i % 255 = 0
      · refine ⟨255, by norm_num, le_rfl, ?_⟩
        rw [gf_primitive.gen_pow, ← wrap, hzero, pow_zero]
      · exact ⟨i % 255, by omega, by omega, wrap⟩
    obtain ⟨l, hlow, hhigh, hl⟩ := reduced
    rw [← hl]
    exact ⟨l, h.log_low l hlow hhigh, hlow, hhigh, rfl⟩

/-- **`ec_method_initialize` never leaves its tables, and fills them with the
powers of the generator and their logarithms.** -/
theorem ecMethodInitialize_sound : ∃ t, ecMethodInitialize = some t ∧ t.Sound := by
  have length : (List.replicate (ecGfSize <<< 1) 0).length = 512 := List.length_replicate
  have start : GfTables.Filled
      ⟨(List.replicate (ecGfSize <<< 1) 0).set 0 1,
        (List.replicate (ecGfSize <<< 1) 0).set 0 ecGfSize⟩ 0 := by
    refine ⟨List.length_set.trans length, List.length_set.trans length,
      fun j hj => ?_, fun j hlow hj => by omega, fun j hlow hj => by omega⟩
    obtain rfl : j = 0 := by omega
    rw [List.getElem?_set_self (by omega), pow_zero]
    rfl
  have size : 1 + (ecGfSize - 1) = 256 := rfl
  obtain ⟨t, run, filled⟩ := Loop.foldlM_range'_invariant ecMethodInitializeStep
    (fun i t => t.Filled (i - 1)) 1 (ecGfSize - 1) start fun i t hlow hhigh filled => by
      obtain ⟨i, rfl⟩ := Nat.exists_eq_add_of_le' hlow
      exact ⟨_, ecMethodInitializeStep_eq filled (by omega), filled.fill (by omega)⟩
  rw [size] at filled
  refine ⟨t, ?_, filled.sound⟩
  simp only [ecMethodInitialize, Option.bind_eq_bind]
  rw [store_of_lt (by omega), store_of_lt (by omega), Option.bind_some,
    Option.bind_some, run]

/-! ## Multiplication and division -/

/-- The byte of a class, as the `uint32_t` the code computes with. -/
def Gf.toNat (a : Gf) : ℕ := a.bits.toNat

theorem Gf.toNat_eq_zero {a : Gf} : a.toNat = 0 ↔ a = 0 := by
  refine ⟨fun h => BinaryQuotient.ext (BitVec.eq_of_toNat_eq h), ?_⟩
  rintro rfl
  rfl

/-- **On sound tables `ec_method_mul` is the product of the field.** -/
theorem ecMethodMul_eq {t : GfTables} (ht : t.Sound) (a b : Gf) :
    ecMethodMul t a.toNat b.toNat = some (a * b).toNat := by
  unfold ecMethodMul
  by_cases ha : a = 0
  · subst ha
    rw [if_neg (by simp [Gf.toNat_eq_zero]), zero_mul]
    rfl
  by_cases hb : b = 0
  · subst hb
    rw [if_neg (by simp [Gf.toNat_eq_zero]), mul_zero]
    rfl
  obtain ⟨logA, entryA, -, highA, rfl⟩ := ht.log_get a ha
  obtain ⟨logB, entryB, -, highB, rfl⟩ := ht.log_get b hb
  rw [if_pos ⟨Gf.toNat_eq_zero.not.mpr ha, Gf.toNat_eq_zero.not.mpr hb⟩]
  simp only [Gf.toNat, entryA, entryB, Option.bind_eq_bind, Option.bind_some]
  rw [ht.pow_get _ (by omega), pow_add]

/-- **On sound tables `ec_method_div` is the quotient of the field.** -/
theorem ecMethodDiv_eq {t : GfTables} (ht : t.Sound) (a : Gf) {b : Gf} (hb : b ≠ 0) :
    ecMethodDiv t a.toNat b.toNat = some (a / b).toNat := by
  unfold ecMethodDiv
  rw [if_pos (Gf.toNat_eq_zero.not.mpr hb)]
  by_cases ha : a = 0
  · subst ha
    rw [if_neg (by simp [Gf.toNat_eq_zero]), zero_div]
    rfl
  obtain ⟨logA, entryA, lowA, highA, rfl⟩ := ht.log_get a ha
  obtain ⟨logB, entryB, lowB, highB, rfl⟩ := ht.log_get b hb
  rw [if_pos (Gf.toNat_eq_zero.not.mpr ha)]
  simp only [Gf.toNat, entryA, entryB, Option.bind_eq_bind, Option.bind_some]
  -- the subtraction does not borrow
  have index : (ecGfSize - 1 + logA + 2 ^ 32 - logB) % 2 ^ 32 = 255 + logA - logB := by
    have size : ecGfSize = 256 := rfl
    omega
  have quotient : (gen : Gf) ^ (255 + logA - logB) = (gen : Gf) ^ logA / (gen : Gf) ^ logB := by
    rw [eq_div_iff hb, ← pow_add, show 255 + logA - logB + logB = 255 + logA by omega,
      pow_add, gf_primitive.gen_pow, one_mul]
  rw [index, ht.pow_get _ (by omega), quotient]

end GlusterFS.Ec
