import Mathlib

/-!
# Binary polynomials modulo a monic polynomial, on bit vectors

`BinaryQuotient w m` is the ring `𝔽₂[x] / (x ^ w + m)`, with a residue class
stored as the `w` bits of its reduced representative.  Addition is exclusive
or and multiplication by `x` is the shift register `shift`: shift left by one,
and add `m` back when the bit of degree `w` drops out.

The ring laws hold for **every** width and every modulus.  Multiplication by
`a` is the operator `mulBy a = ∑ aᵢ xⁱ` on the additive group, and an operator
that commutes with `x` is determined by its value at `1` (`ext_of_commute`);
associativity and commutativity are two instances of that one fact, so no
property of the modulus is used.

The quotient is a field as soon as `x` is *primitive*: every non-zero class is
a power of `x`.  `fieldOfPrimitive` packages it, and `primitive_of_orderOf`
reduces primitivity to the order of `x`.
-/

/-- A residue class of binary polynomials modulo `x ^ w + m`: the bits of its
representative of degree less than `w`. -/
@[ext]
structure BinaryQuotient (w : ℕ) (m : BitVec w) where
  bits : BitVec w
  deriving DecidableEq, Repr

namespace BinaryQuotient

variable {w : ℕ} {m : BitVec w}

/-! ## The additive group -/

instance : Zero (BinaryQuotient w m) := ⟨⟨0#w⟩⟩

instance : Add (BinaryQuotient w m) := ⟨fun a b => ⟨a.bits ^^^ b.bits⟩⟩

instance : Neg (BinaryQuotient w m) := ⟨fun a => a⟩

instance : Sub (BinaryQuotient w m) := ⟨fun a b => ⟨a.bits ^^^ b.bits⟩⟩

instance : One (BinaryQuotient w m) := ⟨⟨1#w⟩⟩

@[simp] theorem bits_zero : (0 : BinaryQuotient w m).bits = 0#w := rfl

@[simp] theorem bits_one : (1 : BinaryQuotient w m).bits = 1#w := rfl

@[simp] theorem bits_add (a b : BinaryQuotient w m) :
    (a + b).bits = a.bits ^^^ b.bits := rfl

instance : AddCommGroup (BinaryQuotient w m) where
  add_assoc a b c := by ext1; simp [BitVec.xor_assoc]
  zero_add a := by ext1; simp
  add_zero a := by ext1; simp
  add_comm a b := by ext1; simp [BitVec.xor_comm]
  neg_add_cancel a := by ext1; exact BitVec.xor_self
  sub_eq_add_neg a b := rfl
  nsmul := nsmulRec
  zsmul := zsmulRec

theorem sub_eq_add (a b : BinaryQuotient w m) : a - b = a + b := rfl

/-! ## The shift register -/

/-- Multiplication by `x`. -/
def shift (a : BinaryQuotient w m) : BinaryQuotient w m :=
  ⟨(a.bits <<< 1) ^^^ (if a.bits.msb then m else 0#w)⟩

theorem shift_add (a b : BinaryQuotient w m) :
    shift (a + b) = shift a + shift b := by
  ext1
  simp only [shift, bits_add, BitVec.shiftLeft_xor_distrib, BitVec.msb_xor]
  cases a.bits.msb <;> cases b.bits.msb
  · simp
  · simp [BitVec.xor_assoc]
  · simp only [Bool.true_xor, Bool.not_false, ↓reduceIte, Bool.false_eq_true,
      BitVec.xor_zero]
    ac_rfl
  · simp only [bne_self_eq_false, Bool.false_eq_true, ↓reduceIte, BitVec.xor_zero]
    calc a.bits <<< 1 ^^^ b.bits <<< 1
        = a.bits <<< 1 ^^^ b.bits <<< 1 ^^^ (m ^^^ m) := by simp
      _ = a.bits <<< 1 ^^^ m ^^^ (b.bits <<< 1 ^^^ m) := by ac_rfl

theorem shift_zero : shift (0 : BinaryQuotient w m) = 0 := by
  ext1
  simp [shift]

/-- The shift register as an operator on the additive group. -/
def x : AddMonoid.End (BinaryQuotient w m) where
  toFun := shift
  map_zero' := shift_zero
  map_add' := shift_add

/-- The product: `a` read as the polynomial `∑ aᵢ xⁱ` in the shift register,
applied to `b`. -/
def mul (a b : BinaryQuotient w m) : BinaryQuotient w m :=
  ∑ i ∈ Finset.range w, if a.bits.getLsbD i then shift^[i] b else 0

instance : Mul (BinaryQuotient w m) := ⟨mul⟩

/-- Multiplication by `a` as an operator. -/
def mulBy (a : BinaryQuotient w m) : AddMonoid.End (BinaryQuotient w m) :=
  ∑ i ∈ Finset.range w, if a.bits.getLsbD i then x ^ i else 0

theorem x_pow_apply (i : ℕ) (b : BinaryQuotient w m) :
    (x ^ i) b = shift^[i] b := by
  rw [AddMonoid.End.coe_pow]
  rfl

theorem mulBy_apply (a b : BinaryQuotient w m) : mulBy a b = a * b := by
  refine (AddMonoidHom.finsetSum_apply _ _ b).trans ?_
  refine Finset.sum_congr rfl fun i _ => ?_
  split
  · exact x_pow_apply i b
  · rfl

/-- All these operators are polynomials in `x`, so they commute with it. -/
theorem commute_x_mulBy (a : BinaryQuotient w m) : Commute x (mulBy a) := by
  refine Finset.sum_induction _ (Commute x) (fun _ _ => Commute.add_right)
    (Commute.zero_right x) fun i _ => ?_
  split
  · exact (Commute.refl x).pow_right i
  · exact Commute.zero_right x

theorem commute_of_commute_x {f : AddMonoid.End (BinaryQuotient w m)}
    (hf : Commute x f) (a : BinaryQuotient w m) : Commute f (mulBy a) := by
  refine Finset.sum_induction _ (Commute f) (fun _ _ => Commute.add_right)
    (Commute.zero_right f) fun i _ => ?_
  split
  · exact hf.symm.pow_right i
  · exact Commute.zero_right f

/-! ## The monomials span -/

/-- Shifting the unit `i < w` times moves its single bit to place `i`: nothing
has dropped out of the register yet. -/
theorem shift_iterate_one [NeZero w] :
    ∀ i < w, shift^[i] (1 : BinaryQuotient w m) = ⟨BitVec.twoPow w i⟩ := by
  intro i
  induction i with
  | zero =>
      intro _
      ext1
      simp [BitVec.twoPow]
  | succ i ih =>
      intro hi
      rw [Function.iterate_succ_apply', ih (by omega)]
      ext1
      have hmsb : (BitVec.twoPow w i).msb = false := by
        rw [BitVec.msb_eq_getLsbD_last, BitVec.getLsbD_twoPow]
        simp only [Bool.and_eq_false_imp, decide_eq_true_eq, decide_eq_false_iff_not]
        omega
      simp only [shift, hmsb, Bool.false_eq_true, ↓reduceIte, BitVec.xor_zero]
      rw [BitVec.twoPow_eq, BitVec.twoPow_eq, ← BitVec.shiftLeft_add]

/-- The first `k` terms of `a` as a polynomial hold exactly its low `k` bits. -/
theorem getLsbD_sum_monomials (a : BinaryQuotient w m) (j : ℕ) :
    ∀ k ≤ w, (∑ i ∈ Finset.range k,
        if a.bits.getLsbD i then (⟨BitVec.twoPow w i⟩ : BinaryQuotient w m) else 0).bits.getLsbD j
      = (decide (j < k) && a.bits.getLsbD j) := by
  intro k
  induction k with
  | zero => intro _; simp
  | succ k ih =>
      intro hk
      rw [Finset.sum_range_succ, bits_add, BitVec.getLsbD_xor, ih (by omega)]
      by_cases hjk : j = k
      · subst hjk
        cases hbit : a.bits.getLsbD j <;> simp
        omega
      · have hlt : decide (j < k + 1) = decide (j < k) := by
          simp only [decide_eq_decide]
          omega
        rw [hlt]
        cases hbit : a.bits.getLsbD k <;> simp [Ne.symm hjk]

/-- Evaluating the polynomial of `a` at the unit gives `a` back. -/
theorem mulBy_one [NeZero w] (a : BinaryQuotient w m) : mulBy a 1 = a := by
  have monomials : mulBy a (1 : BinaryQuotient w m) = ∑ i ∈ Finset.range w,
      if a.bits.getLsbD i then (⟨BitVec.twoPow w i⟩ : BinaryQuotient w m) else 0 := by
    refine (AddMonoidHom.finsetSum_apply _ _ _).trans ?_
    refine Finset.sum_congr rfl fun i hi => ?_
    split
    · exact (x_pow_apply i 1).trans (shift_iterate_one i (Finset.mem_range.mp hi))
    · rfl
  ext1
  refine BitVec.eq_of_getLsbD_eq fun j hj => ?_
  rw [monomials, getLsbD_sum_monomials a j w le_rfl]
  simp [hj]

/-- **An operator that commutes with `x` is determined by its value at `1`.** -/
theorem ext_of_commute [NeZero w] {f g : AddMonoid.End (BinaryQuotient w m)}
    (hf : Commute x f) (hg : Commute x g) (h : f 1 = g 1) : f = g := by
  refine AddMonoidHom.ext fun b => ?_
  have eval : ∀ {k : AddMonoid.End (BinaryQuotient w m)}, Commute x k →
      k b = mulBy b (k 1) := by
    intro k hk
    calc k b = k (mulBy b 1) := by rw [mulBy_one]
      _ = (k * mulBy b) 1 := rfl
      _ = (mulBy b * k) 1 := by rw [(commute_of_commute_x hk b).eq]
      _ = mulBy b (k 1) := rfl
  exact (eval hf).trans ((congrArg (mulBy b) h).trans (eval hg).symm)

/-! ## The ring laws -/

theorem mulBy_mul [NeZero w] (a b : BinaryQuotient w m) :
    mulBy (a * b) = mulBy a * mulBy b := by
  refine ext_of_commute (commute_x_mulBy _)
    ((commute_x_mulBy a).mul_right (commute_x_mulBy b)) ?_
  rw [mulBy_one, ← mulBy_apply]
  exact congrArg (mulBy a) (mulBy_one b).symm

theorem mul_comm_aux [NeZero w] (a b : BinaryQuotient w m) : a * b = b * a := by
  have swap : mulBy a * mulBy b = mulBy b * mulBy a :=
    (commute_of_commute_x (commute_x_mulBy a) b).eq
  rw [← mulBy_one (a * b), mulBy_mul, swap, ← mulBy_mul, mulBy_one]

theorem mul_add_aux (a b c : BinaryQuotient w m) : a * (b + c) = a * b + a * c := by
  simp only [← mulBy_apply, map_add]

instance [NeZero w] : CommRing (BinaryQuotient w m) where
  left_distrib := mul_add_aux
  right_distrib a b c := by
    rw [mul_comm_aux, mul_add_aux, mul_comm_aux c a, mul_comm_aux c b]
  zero_mul a := by rw [mul_comm_aux, ← mulBy_apply, map_zero]
  mul_zero a := by rw [← mulBy_apply, map_zero]
  mul_assoc a b c := by
    rw [← mulBy_apply (a * b), mulBy_mul, ← mulBy_apply a, ← mulBy_apply b]
    rfl
  one_mul a := by rw [mul_comm_aux, ← mulBy_apply, mulBy_one]
  mul_one a := by rw [← mulBy_apply, mulBy_one]
  mul_comm := mul_comm_aux
  zsmul := zsmulRec
  neg_add_cancel := neg_add_cancel

/-- The class of `x`. -/
def gen : BinaryQuotient w m := shift 1

/-- One shift is one multiplication by the generator. -/
theorem shift_eq_gen_mul [NeZero w] (a : BinaryQuotient w m) : shift a = gen * a := by
  have h : x = mulBy (gen : BinaryQuotient w m) :=
    ext_of_commute (Commute.refl x) (commute_x_mulBy gen) (mulBy_one gen).symm
  calc shift a = x a := rfl
    _ = gen * a := by rw [h, mulBy_apply]

theorem shift_iterate_eq_pow [NeZero w] (i : ℕ) :
    shift^[i] (1 : BinaryQuotient w m) = gen ^ i := by
  induction i with
  | zero => rfl
  | succ i ih => rw [Function.iterate_succ_apply', ih, shift_eq_gen_mul, pow_succ']

/-! ## Primitive moduli -/

/-- `x` has order `N` and runs through every non-zero class. -/
structure Primitive (w : ℕ) (m : BitVec w) [NeZero w] (N : ℕ) : Prop where
  order_pos : 0 < N
  gen_pow : (gen : BinaryQuotient w m) ^ N = 1
  one_ne_zero : (1 : BinaryQuotient w m) ≠ 0
  exists_pow : ∀ a : BinaryQuotient w m, a ≠ 0 → ∃ i, gen ^ i = a

theorem Primitive.pow_order [NeZero w] {N : ℕ} (h : Primitive w m N)
    {a : BinaryQuotient w m} (ha : a ≠ 0) : a ^ N = 1 := by
  obtain ⟨i, rfl⟩ := h.exists_pow a ha
  rw [← pow_mul, mul_comm i N, pow_mul, h.gen_pow, one_pow]

/-- **Modulo a primitive polynomial the quotient is a field.** -/
@[reducible] def fieldOfPrimitive [NeZero w] {N : ℕ} (h : Primitive w m N) :
    Field (BinaryQuotient w m) where
  inv a := if a = 0 then 0 else a ^ (N - 1)
  exists_pair_ne := ⟨0, 1, h.one_ne_zero.symm⟩
  mul_inv_cancel a ha := by
    rw [if_neg ha, ← pow_succ', Nat.sub_add_cancel h.order_pos, h.pow_order ha]
  inv_zero := if_pos rfl
  nnqsmul := _
  nnqsmul_def := fun _ _ => rfl
  qsmul := _
  qsmul_def := fun _ _ => rfl

/-! ## Counting the powers of `x` -/

/-- A class is its `w` bits. -/
def equivFin : BinaryQuotient w m ≃ Fin (2 ^ w) where
  toFun a := a.bits.toFin
  invFun i := ⟨⟨i⟩⟩
  left_inv _ := rfl
  right_inv _ := rfl

instance : Fintype (BinaryQuotient w m) := Fintype.ofEquiv _ equivFin.symm

theorem card_eq : Fintype.card (BinaryQuotient w m) = 2 ^ w := by
  rw [Fintype.card_congr equivFin, Fintype.card_fin]

theorem one_ne_zero_of_pos [NeZero w] : (1 : BinaryQuotient w m) ≠ 0 := by
  intro h
  have bit := congrArg (fun a : BinaryQuotient w m => a.bits.getLsbD 0) h
  simp [NeZero.pos w] at bit

/-- **`x` is primitive as soon as its order is the number of non-zero classes**:
its powers are then that many distinct non-zero classes. -/
theorem primitive_of_orderOf [NeZero w] {N : ℕ} (hpos : 0 < N) (hN : N + 1 = 2 ^ w)
    (order : orderOf (gen : BinaryQuotient w m) = N) : Primitive w m N := by
  have genPow : (gen : BinaryQuotient w m) ^ N = 1 := order ▸ pow_orderOf_eq_one gen
  have powNe : ∀ i, (gen : BinaryQuotient w m) ^ i ≠ 0 := by
    intro i hi
    apply one_ne_zero_of_pos (m := m)
    rw [← one_pow i, ← genPow, ← pow_mul, mul_comm, pow_mul, hi, zero_pow hpos.ne']
  have image : (Finset.range N).image (fun i => (gen : BinaryQuotient w m) ^ i)
      = Finset.univ.erase 0 := by
    refine Finset.eq_of_subset_of_card_le ?_ ?_
    · intro b hb
      obtain ⟨i, -, rfl⟩ := Finset.mem_image.mp hb
      exact Finset.mem_erase.mpr ⟨powNe i, Finset.mem_univ _⟩
    · rw [Finset.card_erase_of_mem (Finset.mem_univ _), Finset.card_univ, card_eq,
        Finset.card_image_of_injOn, Finset.card_range]
      · omega
      · intro i hi j hj hij
        exact pow_injOn_Iio_orderOf (by simpa [order] using hi)
          (by simpa [order] using hj) hij
  refine ⟨hpos, genPow, one_ne_zero_of_pos, fun a ha => ?_⟩
  have mem : a ∈ (Finset.range N).image (fun i => (gen : BinaryQuotient w m) ^ i) := by
    rw [image]
    exact Finset.mem_erase.mpr ⟨ha, Finset.mem_univ _⟩
  obtain ⟨i, -, hi⟩ := Finset.mem_image.mp mem
  exact ⟨i, hi⟩

end BinaryQuotient
