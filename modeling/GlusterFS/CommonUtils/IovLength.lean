import Mathlib

/-!
# The length of a vector

`iov_length` of the common utilities adds the lengths of the pieces as `size_t` and returns an
`int`.  From `2 ^ 31` bytes on the result is another number, which may be negative and is close to
`2 ^ 64` when it is stored in a `size_t` again.
-/

namespace GlusterFS.CommonUtils

/-- A number as `size_t`. -/
def sizeT (x : ℤ) : ℕ := (x % 2 ^ 64).toNat

/-- A number as `off_t`. -/
def offT (x : ℤ) : ℤ := Int.bmod x (2 ^ 64)

/-- A number as `int`. -/
def cInt (x : ℤ) : ℤ := Int.bmod x (2 ^ 32)

theorem sizeT_natCast {n : ℕ} (hn : n < 2 ^ 64) : sizeT n = n := by
  unfold sizeT
  omega

theorem offT_natCast {n : ℕ} (hn : n < 2 ^ 63) : offT n = n := by
  unfold offT
  rw [Int.bmod_eq_of_le] <;> omega

theorem cInt_natCast {n : ℕ} (hn : n < 2 ^ 31) : cInt n = n := by
  unfold cInt
  rw [Int.bmod_eq_of_le] <;> omega

/-- `iov_length`, of the lengths of the pieces. -/
def iovLength (lens : List ℕ) : ℤ := cInt (sizeT lens.sum)

theorem iovLength_eq {lens : List ℕ} (h : lens.sum < 2 ^ 31) : iovLength lens = lens.sum := by
  rw [iovLength, sizeT_natCast (by omega), cInt_natCast h]

theorem iovLength_bounds (lens : List ℕ) : -2 ^ 31 ≤ iovLength lens ∧ iovLength lens < 2 ^ 31 := by
  have hlo := @Int.le_bmod (sizeT lens.sum) (2 ^ 32) (by norm_num)
  have hhi := @Int.bmod_lt (sizeT lens.sum) (2 ^ 32) (by norm_num)
  unfold iovLength cInt
  omega

end GlusterFS.CommonUtils
