import Mathlib

/-!
# Gauss–Jordan elimination without pivoting

The textbook in-place inversion: for each column `i` in turn, divide row `i`
by the diagonal entry `(i, i)` and subtract multiples of it from every other
row, doing the same to a second matrix that started as the identity.  No rows
are ever swapped, so the algorithm is only correct when no diagonal entry it
divides by is zero.

`LeadingIndependent A k` is the exact condition used: the rows of every leading
square block of `A` are independent.  Under it `pivot_ne_zero` shows that every
pivot is non-zero and `run_inv_mul` that the second matrix ends up as the left
inverse of `A`.

Matrices are functions on `ℕ × ℕ` of which only the indices below `k` matter,
the way an algorithm over fixed arrays reads them.

The last section supplies the condition for matrices of powers: a Vandermonde
matrix with decreasing exponents, distinct and non-zero nodes, in any order of
rows.
-/

namespace GaussJordan

variable {K : Type*} [Field K]

/-- The matrix being reduced and the one that collects the row operations. -/
structure Tableau (K : Type*) where
  mtx : ℕ → ℕ → K
  inv : ℕ → ℕ → K

/-- Apply to `N` the row operations that clear column `i` of `M`. -/
def sweep (M N : ℕ → ℕ → K) (i : ℕ) : ℕ → ℕ → K := fun r c =>
  if r = i then N i c / M i i else N r c - N i c / M i i * M r i

/-- One elimination step. -/
def eliminate (i : ℕ) (s : Tableau K) : Tableau K :=
  ⟨sweep s.mtx s.mtx i, sweep s.mtx s.inv i⟩

/-- The first `i` elimination steps. -/
def run (s : Tableau K) : ℕ → Tableau K
  | 0 => s
  | i + 1 => eliminate i (run s i)

/-- The tableau elimination starts from. -/
def start (A : ℕ → ℕ → K) : Tableau K :=
  ⟨A, fun r c => if r = c then 1 else 0⟩

/-- The rows of every leading square block of `A` are independent. -/
def LeadingIndependent (A : ℕ → ℕ → K) (k : ℕ) : Prop :=
  ∀ i < k, ∀ v : ℕ → K,
    (∀ c ≤ i, ∑ r ∈ Finset.range (i + 1), v r * A r c = 0) → ∀ r ≤ i, v r = 0

/-- What holds after `i` steps: `inv` records the row operations, the first `i`
columns of `mtx` are done, and the columns of `inv` from `i` on have not been
touched off the diagonal. -/
structure Reduced (A : ℕ → ℕ → K) (k i : ℕ) (s : Tableau K) : Prop where
  inv_mul : ∀ r < k, ∀ c < k, ∑ t ∈ Finset.range k, s.inv r t * A t c = s.mtx r c
  unit_col : ∀ c < i, ∀ r < k, s.mtx r c = if r = c then 1 else 0
  tail_col : ∀ c, i ≤ c → c < k → ∀ r < k, s.inv r c = if r = c then 1 else 0

theorem reduced_start (A : ℕ → ℕ → K) (k : ℕ) : Reduced A k 0 (start A) where
  inv_mul r hr c hc := by
    simp [start, Finset.mem_range.mpr hr]
  unit_col c hc := absurd hc (Nat.not_lt_zero c)
  tail_col c _ _ r _ := rfl

/-- **The pivot is never zero.**  Row `i` of `inv` is supported on the first
`i + 1` rows and has a `1` at `i`; a vanishing pivot would make it a dependency
of the leading block. -/
theorem pivot_ne_zero {A : ℕ → ℕ → K} {k i : ℕ} {s : Tableau K}
    (hA : LeadingIndependent A k) (h : Reduced A k i s) (hi : i < k) :
    s.mtx i i ≠ 0 := by
  intro hzero
  have row : ∀ c ≤ i, ∑ r ∈ Finset.range (i + 1), s.inv i r * A r c = 0 := by
    intro c hc
    have full := h.inv_mul i hi c (by omega)
    have split : ∑ t ∈ Finset.range k, s.inv i t * A t c
        = ∑ t ∈ Finset.range (i + 1), s.inv i t * A t c := by
      symm
      refine Finset.sum_subset (Finset.range_subset_range.mpr (by omega)) ?_
      intro t ht hout
      have htk : t < k := Finset.mem_range.mp ht
      have hti : i < t := by
        have := Finset.mem_range.not.mp hout
        omega
      rw [h.tail_col t hti.le htk i hi, if_neg (by omega), zero_mul]
    rw [← split, full]
    by_cases hci : c = i
    · rw [hci, hzero]
    · rw [h.unit_col c (by omega) i hi, if_neg (Ne.symm hci)]
  have diag : s.inv i i = 0 := hA i hi (s.inv i) row i le_rfl
  rw [h.tail_col i le_rfl hi i hi, if_pos rfl] at diag
  exact one_ne_zero diag

/-- One step carries the invariant one column further. -/
theorem reduced_eliminate {A : ℕ → ℕ → K} {k i : ℕ} {s : Tableau K}
    (hA : LeadingIndependent A k) (h : Reduced A k i s) (hi : i < k) :
    Reduced A k (i + 1) (eliminate i s) := by
  have hp := pivot_ne_zero hA h hi
  refine ⟨fun r hr c hc => ?_, fun c hc r hr => ?_, fun c hic hc r hr => ?_⟩
  · simp only [eliminate, sweep]
    split
    · rw [← h.inv_mul i hi c hc, Finset.sum_div]
      exact Finset.sum_congr rfl fun t _ => by ring
    · rw [← h.inv_mul r hr c hc, ← h.inv_mul i hi c hc, Finset.sum_div, Finset.sum_mul,
        ← Finset.sum_sub_distrib]
      exact Finset.sum_congr rfl fun t _ => by ring
  · simp only [eliminate, sweep]
    by_cases hci : c = i
    · subst hci
      by_cases hrc : r = c
      · rw [if_pos hrc, if_pos hrc, div_self hp]
      · rw [if_neg hrc, if_neg hrc, div_self hp, one_mul, sub_self]
    · have hci' : c < i := by omega
      rw [h.unit_col c hci' i hi, if_neg (Ne.symm hci), zero_div, zero_mul, sub_zero,
        h.unit_col c hci' r hr]
      by_cases hri : r = i
      · rw [if_pos hri, if_neg (by omega)]
      · rw [if_neg hri]
  · have hne : i ≠ c := by omega
    simp only [eliminate, sweep]
    rw [h.tail_col c (by omega) hc i hi, if_neg hne, zero_div, zero_mul, sub_zero,
      h.tail_col c (by omega) hc r hr]
    by_cases hri : r = i
    · rw [if_pos hri, if_neg (by omega)]
    · rw [if_neg hri]

theorem reduced_run {A : ℕ → ℕ → K} {k : ℕ} (hA : LeadingIndependent A k) :
    ∀ i ≤ k, Reduced A k i (run (start A) i) := by
  intro i
  induction i with
  | zero => intro _; exact reduced_start A k
  | succ i ih =>
      intro hi
      exact reduced_eliminate hA (ih (by omega)) (by omega)

/-- Every pivot of a whole run is non-zero. -/
theorem run_pivot_ne_zero {A : ℕ → ℕ → K} {k : ℕ} (hA : LeadingIndependent A k)
    {i : ℕ} (hi : i < k) : (run (start A) i).mtx i i ≠ 0 :=
  pivot_ne_zero hA (reduced_run hA i hi.le) hi

/-- **A whole run computes the left inverse.** -/
theorem run_inv_mul {A : ℕ → ℕ → K} {k : ℕ} (hA : LeadingIndependent A k)
    {r c : ℕ} (hr : r < k) (hc : c < k) :
    ∑ t ∈ Finset.range k, (run (start A) k).inv r t * A t c = if r = c then 1 else 0 := by
  have h := reduced_run hA k le_rfl
  rw [h.inv_mul r hr c hc, h.unit_col c hc r hr]

/-! ## Matrices of powers -/

/-- Decreasing powers of distinct non-zero nodes: every leading block is, up to
a diagonal factor, a Vandermonde matrix with its columns reversed. -/
theorem leadingIndependent_powers {k : ℕ} {node : ℕ → K}
    (distinct : ∀ r < k, ∀ r' < k, node r = node r' → r = r')
    (nonzero : ∀ r < k, node r ≠ 0) :
    LeadingIndependent (fun r c => node r ^ (k - 1 - c)) k := by
  intro i hi v hv r hr
  -- absorb the common factor `node r ^ (k - 1 - i)` of row `r` into the coefficients
  let coeff : Fin (i + 1) → K := fun r => v r * node r ^ (k - 1 - i)
  have injective : Function.Injective fun r : Fin (i + 1) => node r := by
    intro r r' heq
    exact Fin.ext (distinct r (by omega) r' (by omega) heq)
  have vanish : coeff = 0 := by
    refine Matrix.eq_zero_of_forall_pow_sum_mul_pow_eq_zero injective fun e => ?_
    have col := hv (i - e) (by omega)
    rw [Finset.sum_range] at col
    refine (Finset.sum_congr rfl fun r _ => ?_).trans col
    simp only [coeff]
    rw [mul_assoc, ← pow_add]
    congr 2
    omega
  have zero : v r * node r ^ (k - 1 - i) = 0 :=
    congrFun vanish ⟨r, by omega⟩
  exact (mul_eq_zero.mp zero).resolve_right (pow_ne_zero _ (nonzero r (by omega)))

end GaussJordan
