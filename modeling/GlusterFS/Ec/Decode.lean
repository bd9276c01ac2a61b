import GlusterFS.Ec.Method

/-!
# Decoding what was encoded

`ec_method_decode` evaluates row `i` of the inverse over the current chunks
`F₀, …, F_{k-1}` of the fragments incrementally.  The invariant of its inner loop
is that the last coefficient used, times the output chunk, is the partial sum:

`last * out = ∑ j' < j, inv[i][j'] * F_{j'}`,

so that dividing by the next coefficient, adding its chunk and finally
multiplying by the last coefficient gives the whole sum.  The sentinel after
each row stops the scan for the next coefficient.

The offset into the fragments is a `uint32_t`.  `ecMethodDecode_spec` therefore
speaks of chunk `g % 2 ^ 23` of the fragments, and the round trip `DecodesBack`
holds **exactly** when there are fewer than `2 ^ 32` stripes and stripe `g`
equals stripe `g % 2 ^ 23`, which is always the case up to `2 ^ 23` stripes.
-/

namespace GlusterFS.Ec

variable {k : ℕ} {rows : List ℕ}

/-! ## The scan -/

theorem scanRow_eq {row : ℕ → ℕ} {stop : ℕ} (hstop : row stop ≠ 0) (fuel j : ℕ)
    (hj : j ≤ stop) (hfuel : stop < j + fuel) :
    ∃ j', scanRow row fuel j = some j' ∧ j ≤ j' ∧ j' ≤ stop ∧ row j' ≠ 0 ∧
      ∀ c, j ≤ c → c < j' → row c = 0 := by
  induction fuel generalizing j with
  | zero => omega
  | succ fuel ih =>
      rw [scanRow]
      by_cases hzero : row j = 0
      · have hne : j ≠ stop := fun h => hstop (h ▸ hzero)
        obtain ⟨j', run, hlow, hhigh, hj', skipped⟩ := ih (j + 1) (by omega) (by omega)
        refine ⟨j', by rw [if_pos hzero, run], by omega, hhigh, hj', fun c hc hcj => ?_⟩
        rcases Nat.eq_or_lt_of_le hc with rfl | hlt
        · exact hzero
        · exact skipped c hlt hcj
      · exact ⟨j, by rw [if_neg hzero], le_rfl, hj, hzero, fun c hc hcj => by omega⟩

/-- **The scan always stops**, at the sentinel at the latest. -/
theorem nextNonzero_eq {row : ℕ → ℕ} (hk : k ≤ 16) (hsentinel : row k ≠ 0) {j : ℕ}
    (hj : j ≤ k) :
    ∃ j', nextNonzero row j = some j' ∧ j ≤ j' ∧ j' ≤ k ∧ row j' ≠ 0 ∧
      ∀ c, j ≤ c → c < j' → row c = 0 := by
  have max : ecMethodMaxFragments = 16 := rfl
  exact scanRow_eq hsentinel _ j hj (by omega)

/-! ## One output chunk -/

/-- The first `j` terms of row `i` of the inverse over chunk `m'` of the fragments. -/
def partialSum (coeff : ℕ → Gf) (inp : List (List Byte)) (m' j p : ℕ) : Gf :=
  ∑ c ∈ Finset.range j, coeff c * symbol (inp.getD c []) m' p

/-- Coefficients that the scan skips do not contribute. -/
theorem partialSum_skip {coeff : ℕ → Gf} {inp : List (List Byte)} {m' j j' p : ℕ}
    (hjj' : j ≤ j') (hzero : ∀ c, j ≤ c → c < j' → coeff c = 0) :
    partialSum coeff inp m' j' p = partialSum coeff inp m' j p := by
  symm
  refine Finset.sum_subset (Finset.range_subset_range.mpr hjj') fun c hc hout => ?_
  have hlow : j ≤ c := Nat.le_of_not_lt (Finset.mem_range.not.mp hout)
  rw [hzero c hlow (Finset.mem_range.mp hc), zero_mul]

/-- **The inner loop.**  From `last * out = ∑ c < j` it ends with
`last' * out' = ∑ c < k`, and only the output chunk has changed. -/
theorem decodeTerms_spec {t : GfTables} (ht : t.Sound) (hk : k ≤ 16) {row : ℕ → ℕ}
    {coeff : ℕ → Gf} (hrow : ∀ c < k, row c = (coeff c).toNat) (hsentinel : row k = 1)
    {inp : List (List Byte)} (hinp : inp.length = k) {S m' : ℕ} (hm' : m' < S)
    (hfragment : ∀ f ∈ inp, 512 * S ≤ f.length) {n m : ℕ} (hm : m < n)
    (fuel j : ℕ) (hj : j < k) (hfuel : k ≤ j + fuel) {last : Gf} {out : List Byte}
    (hout : out.length = 512 * n)
    (sum : ∀ p < 512, last * symbol out m p = partialSum coeff inp m' j p) :
    ∃ (last' : Gf) (out' : List Byte),
      decodeTerms t k row inp (512 * m') (512 * m) fuel last.toNat j out
        = some (last'.toNat, out') ∧ out'.length = 512 * n ∧
      (∀ r ≠ m, ∀ p < 512, symbol out' r p = symbol out r p) ∧
      ∀ p < 512, last' * symbol out' m p = partialSum coeff inp m' k p := by
  induction fuel generalizing j last out with
  | zero => omega
  | succ fuel ih =>
      obtain ⟨j', scan, hlow, hhigh, hne, skipped⟩ := nextNonzero_eq hk
        (show row k ≠ 0 by rw [hsentinel]; exact one_ne_zero) hj.le
      have skippedCoeff : ∀ c, j ≤ c → c < j' → coeff c = 0 := by
        intro c hc hcj
        rw [← Gf.toNat_eq_zero, ← hrow c (by omega), skipped c hc hcj]
      rw [decodeTerms, scan, Option.bind_eq_bind, Option.bind_some]
      by_cases hterm : j' < k
      · -- a term: `out` becomes `last / coeff j' * out + F j'`
        have hcoeff : coeff j' ≠ 0 := by
          rw [ne_eq, ← Gf.toNat_eq_zero, ← hrow j' hterm]
          exact hne
        have hget : inp[j']? = some (inp.getD j' []) := by
          rw [List.getD_eq_getElem?_getD, List.getElem?_eq_getElem (by omega)]
          rfl
        obtain ⟨out₁, kernel, hout₁, symbols⟩ := ecGfMuladd_spec
          (show (last / coeff j').toNat < 256 from (last / coeff j').bits.isLt) hout hm
          (hfragment _ (List.mem_of_getElem? hget)) hm'
        have sum₁ : ∀ p < 512,
            coeff j' * symbol out₁ m p = partialSum coeff inp m' (j' + 1) p := by
          intro p hp
          rw [symbols m p hp, if_pos rfl, Gf.ofNat_toNat, mul_add, ← mul_assoc,
            mul_div_cancel₀ _ hcoeff, sum p hp, partialSum, partialSum,
            Finset.sum_range_succ]
          congr 1
          exact (partialSum_skip hlow skippedCoeff).symm
        rw [if_pos hterm, hrow j' hterm, ecMethodDiv_eq ht _ hcoeff, hget]
        simp only [Option.bind_eq_bind, Option.bind_some, kernel]
        by_cases hmore : j' + 1 < k
        · obtain ⟨last', out', run, hout', frame, sum'⟩ :=
            ih (j' + 1) hmore (by omega) hout₁ sum₁
          refine ⟨last', out', by rw [if_pos hmore, run], hout', fun r hr p hp => ?_, sum'⟩
          rw [frame r hr p hp, symbols r p hp, if_neg hr]
        · have last_term : j' + 1 = k := by omega
          rw [last_term] at sum₁
          refine ⟨coeff j', out₁, by rw [if_neg hmore], hout₁, fun r hr p hp => ?_, sum₁⟩
          rw [symbols r p hp, if_neg hr]
      · -- the sentinel: nothing is left to add
        obtain rfl : j' = k := by omega
        refine ⟨last, out, by rw [if_neg hterm], hout, fun _ _ _ _ => rfl, fun p hp => ?_⟩
        rw [sum p hp, partialSum_skip hlow skippedCoeff]

theorem symbol_dummyChunk (p : ℕ) : symbol dummyChunk 0 p = 0 := by
  have zero : ∀ o, (dummyChunk.getD o 0) = (0 : Byte) := by
    intro o
    rw [dummyChunk, List.getD_eq_getElem?_getD, List.getElem?_replicate]
    split <;> rfl
  have whole : (dummyChunk.drop (512 * 0)).take 512 = dummyChunk :=
    List.take_of_length_le (List.length_replicate).le
  rw [symbol, whole, symbolAt]
  ext1
  refine BitVec.eq_of_getLsbD_eq fun b hb => ?_
  rw [BitVec.getLsbD_ofFnLE, dif_pos hb, zero]
  simp

/-- **One output chunk is row `i` of the inverse applied to the fragments.** -/
theorem decodeRow_spec {t : GfTables} (ht : t.Sound) (hk₀ : 1 ≤ k) (hk : k ≤ 16)
    {inv : ℕ → ℕ → ℕ} {i : ℕ} {coeff : ℕ → Gf}
    (hrow : ∀ c < k, inv i c = (coeff c).toNat) (hsentinel : inv i k = 1)
    {inp : List (List Byte)} (hinp : inp.length = k) {S m' : ℕ} (hm' : m' < S)
    (hfragment : ∀ f ∈ inp, 512 * S ≤ f.length) {n m : ℕ} (hm : m < n)
    {s : DecodeState} (hout : s.out.length = 512 * n) (houtOff : s.outOff = 512 * m)
    (hoff : s.off = 512 * m') :
    ∃ out', decodeRow t k inv inp s i = some ⟨out', 512 * (m + 1), 512 * m'⟩ ∧
      out'.length = 512 * n ∧
      ∀ r, ∀ p < 512, symbol out' r p =
        if r = m then partialSum coeff inp m' k p else symbol s.out r p := by
  obtain ⟨last, out₁, terms, hout₁, frame, sum⟩ := decodeTerms_spec ht hk hrow hsentinel
    hinp hm' hfragment hm k 0 (by omega) (by omega) hout fun p _ => show 0 * _ = _ by
      rw [zero_mul, partialSum, Finset.sum_range_zero]
  obtain ⟨out₂, kernel, hout₂, symbols⟩ := ecGfMuladd_spec
    (show last.toNat < 256 from last.bits.isLt) hout₁ hm
    (show 512 * 1 ≤ dummyChunk.length from (List.length_replicate).ge) Nat.zero_lt_one
  refine ⟨out₂, ?_, hout₂, fun r p hp => ?_⟩
  · have terms' : decodeTerms t k (inv i) inp (512 * m') (512 * m) k 0 0 s.out
        = some (last.toNat, out₁) := terms
    have kernel' : ecGfMuladd last.toNat out₁ (512 * m) dummyChunk 0 = some out₂ := kernel
    simp only [decodeRow, houtOff, hoff, terms', kernel', Option.bind_eq_bind,
      Option.bind_some]
    rfl
  · rw [symbols r p hp]
    by_cases hr : r = m
    · rw [if_pos hr, if_pos hr, Gf.ofNat_toNat, symbol_dummyChunk, add_zero, sum p hp]
    · rw [if_neg hr, if_neg hr, frame r hr p hp]

/-! ## The whole output -/

/-- After stripe `g` and `i` more rows: the pointers, and the elements written. -/
structure DecodeState.At (k : ℕ) (coeff : ℕ → ℕ → Gf) (inp : List (List Byte))
    (S g i : ℕ) (s : DecodeState) : Prop where
  out_length : s.out.length = 512 * (k * S)
  outOff_eq : s.outOff = 512 * (k * g + i)
  off_eq : s.off = 512 * (g % 2 ^ 23)
  done : ∀ g' ≤ g, ∀ i' < k, k * g' + i' < k * g + i → ∀ p < 512,
    symbol s.out (k * g' + i') p = partialSum (coeff i') inp (g' % 2 ^ 23) k p

theorem stripe_lt {g S i : ℕ} (hg : g < S) (hi : i < k) : k * g + i < k * S := by
  calc k * g + i < k * g + k := by omega
    _ = k * (g + 1) := by ring
    _ ≤ k * S := Nat.mul_le_mul_left k hg

/-- Chunk `i` of stripe `g` is in one place only. -/
theorem stripe_place_inj {g g' i i' : ℕ} (hi : i < k) (hi' : i' < k)
    (h : k * g + i = k * g' + i') : g = g' ∧ i = i' := by
  have quotient := congrArg (· / k) h
  have remainder := congrArg (· % k) h
  simp only [Nat.mul_add_div (show 0 < k by omega), Nat.div_eq_of_lt hi,
    Nat.div_eq_of_lt hi', Nat.mul_add_mod, Nat.mod_eq_of_lt hi, Nat.mod_eq_of_lt hi']
    at quotient remainder
  exact ⟨quotient, remainder⟩

theorem decodeRow_at {t : GfTables} (ht : t.Sound) (hrows : ValidRows k rows)
    {inv : ℕ → ℕ → ℕ} {coeff : ℕ → ℕ → Gf}
    (hinv : ∀ r < k, ∀ c < k, inv r c = (coeff r c).toNat)
    (hsentinel : ∀ r < k, inv r k = 1) {inp : List (List Byte)} (hinp : inp.length = k)
    {S : ℕ} (hfragment : ∀ f ∈ inp, 512 * S ≤ f.length) {g i : ℕ} (hg : g < S) (hi : i < k)
    {s : DecodeState} (h : s.At k coeff inp S g i) :
    ∃ s', decodeRow t k inv inp s i = some s' ∧ s'.At k coeff inp S g (i + 1) := by
  have hm' : g % 2 ^ 23 < S := lt_of_le_of_lt (Nat.mod_le _ _) hg
  obtain ⟨out, run, hout, symbols⟩ := decodeRow_spec ht hrows.pos hrows.le_max
    (hinv i hi) (hsentinel i hi) hinp hm' hfragment (stripe_lt hg hi) h.out_length
    h.outOff_eq h.off_eq
  refine ⟨_, run, hout, rfl, rfl, fun g' hg' i' hi' before p hp => ?_⟩
  change symbol out (k * g' + i') p = _
  rw [symbols _ p hp]
  by_cases hplace : k * g' + i' = k * g + i
  · obtain ⟨rfl, rfl⟩ := stripe_place_inj hi' hi hplace
    rw [if_pos rfl]
  · rw [if_neg hplace, h.done g' hg' i' hi' (by omega) p hp]

theorem decodeStripe_at {t : GfTables} (ht : t.Sound) (hrows : ValidRows k rows)
    {inv : ℕ → ℕ → ℕ} {coeff : ℕ → ℕ → Gf}
    (hinv : ∀ r < k, ∀ c < k, inv r c = (coeff r c).toNat)
    (hsentinel : ∀ r < k, inv r k = 1) {inp : List (List Byte)} (hinp : inp.length = k)
    {S : ℕ} (hfragment : ∀ f ∈ inp, 512 * S ≤ f.length) {g : ℕ} (hg : g < S)
    {s : DecodeState} (h : s.At k coeff inp S g 0) :
    ∃ s', decodeStripe t k inv inp s = some s' ∧ s'.At k coeff inp S (g + 1) 0 := by
  obtain ⟨s₁, rowsRun, h₁⟩ := Loop.foldlM_range_invariant (decodeRow t k inv inp)
    (fun i s => s.At k coeff inp S g i) k h
    fun i s hi hat => decodeRow_at ht hrows hinv hsentinel hinp hfragment hg hi hat
  refine ⟨{ s₁ with off := (s₁.off + ecMethodChunkSize) % 2 ^ 32 }, ?_, h₁.out_length,
    ?_, ?_, fun g' hg' i' hi' before p hp => ?_⟩
  · rw [decodeStripe, rowsRun]
    rfl
  · change s₁.outOff = 512 * (k * (g + 1) + 0)
    rw [h₁.outOff_eq]
    ring
  · -- the wrap of the byte offset is a wrap of the chunk number
    change (s₁.off + 512) % 2 ^ 32 = 512 * ((g + 1) % 2 ^ 23)
    rw [h₁.off_eq]
    omega
  · have hle : g' ≤ g := by
      by_contra hgt
      have : k * (g + 1) ≤ k * g' := Nat.mul_le_mul_left k (by omega)
      omega
    exact h₁.done g' hle i' hi' (by rw [mul_add, mul_one] at before; omega) p hp

/-- **What `ec_method_decode` computes.**  With fewer than `2 ^ 32` chunks in a
fragment it returns, and stripe `g` of the output is the inverse applied to
chunk `g % 2 ^ 23` of the fragments. -/
theorem ecMethodDecode_spec {t : GfTables} (ht : t.Sound) (hrows : ValidRows k rows)
    {inp : List (List Byte)} (hinp : inp.length = k) {S : ℕ} (hS : S < 2 ^ 32)
    (hfragment : ∀ f ∈ inp, 512 * S ≤ f.length) {out : List Byte}
    (hout : out.length = 512 * (k * S)) :
    ∃ out', out'.length = 512 * (k * S) ∧
      (∀ g < S, ∀ i < k, ∀ p < 512, symbol out' (k * g + i) p =
        partialSum (inverse k rows i) inp (g % 2 ^ 23) k p) ∧
      ∀ fuel, ecMethodDecode t fuel (S * 512) k rows inp out =
        if S < fuel then some (S * 512 * k, out') else none := by
  obtain ⟨m, eliminated, holds⟩ := eliminateColumns_holds ht hrows le_rfl
  obtain ⟨s, hat, run⟩ := Loop.wrappingFor_invariant 32 S (decodeStripe t k m.inv inp)
    (fun g s => s.At k (inverse k rows) inp S g 0) hS (s := ⟨out, 0, 0⟩)
    ⟨hout, rfl, rfl, fun g' hg' i' _ before => by omega⟩
    fun g s hg hat => decodeStripe_at ht hrows holds.inv holds.sentinel hinp hfragment hg hat
  refine ⟨s.out, hat.out_length, fun g hg i hi p hp => ?_, fun fuel => ?_⟩
  · exact hat.done g hg.le i hi (stripe_lt hg hi) p hp
  · have size : S * 512 / ecMethodChunkSize = S := Nat.mul_div_cancel S (by norm_num)
    have max : k ≤ ecMethodMaxFragments := hrows.le_max
    rw [ecMethodDecode, if_pos max]
    simp only [size, eliminated, run fuel, Option.bind_eq_bind, Option.bind_some]
    split <;> rfl

/-! ## The round trip -/

/-- **The round trip.**  Whatever the output buffers held before, encoding `inp`
for each brick of `rows` returns, and decoding the fragments, given in the same
order, returns the length of `inp` and `inp` itself. -/
def DecodesBack (t : GfTables) (k : ℕ) (rows : List ℕ) (inp : List Byte) : Prop :=
  ∀ buffers : List (List Byte), buffers.length = k →
    (∀ b ∈ buffers, b.length = inp.length / k) →
    ∀ out : List Byte, out.length = inp.length →
      ∃ fuel, ∃ fragments : List (List Byte), fragments.length = k ∧
        (∀ i < k, ecMethodEncode fuel inp.length k (rows.getD i 0) inp (buffers.getD i [])
          = some (inp.length / k, fragments.getD i [])) ∧
        ecMethodDecode t fuel (inp.length / k) k rows fragments out
          = some (inp.length, inp)

/-- Stripe `g` of a buffer. -/
def stripe (k : ℕ) (inp : List Byte) (g : ℕ) : List Byte :=
  (inp.drop (512 * (k * g))).take (512 * k)

theorem symbol_stripe {inp : List Byte} {g i : ℕ} (hi : i < k) (p : ℕ) :
    symbol (stripe k inp g) i p = symbol inp (k * g + i) p := by
  have inside : min 512 (512 * k - 512 * i) = 512 := by omega
  rw [symbol, symbol, stripe, List.drop_take, List.take_take, List.drop_drop, inside,
    mul_add]

theorem stripe_eq_iff {inp : List Byte} {S g g' : ℕ} (hinp : inp.length = 512 * (k * S))
    (hg : g < S) (hg' : g' < S) :
    stripe k inp g = stripe k inp g' ↔
      ∀ i < k, ∀ p < 512, symbol inp (k * g + i) p = symbol inp (k * g' + i) p := by
  have length : ∀ g < S, (stripe k inp g).length = 512 * k := by
    intro g hg
    have : k * (g + 1) ≤ k * S := Nat.mul_le_mul_left k hg
    rw [mul_add, mul_one] at this
    rw [stripe, List.length_take, List.length_drop]
    omega
  constructor
  · intro h i hi p _
    rw [← symbol_stripe hi, ← symbol_stripe hi, h]
  · intro h
    refine buffer_ext (length g hg) (length g' hg') fun i hi p hp => ?_
    rw [symbol_stripe hi, symbol_stripe hi, h i hi p hp]

/-- The inverse undoes the evaluation at the nodes. -/
theorem partialSum_horner (hrows : ValidRows k rows) {inp : List Byte}
    {fragments : List (List Byte)} {g p i : ℕ} (hi : i < k)
    (hfragment : ∀ c < k, symbol (fragments.getD c []) g p
      = horner (node rows c) inp k g k p) :
    partialSum (inverse k rows i) fragments g k p = symbol inp (k * g + i) p := by
  calc partialSum (inverse k rows i) fragments g k p
      = ∑ c ∈ Finset.range k, ∑ d ∈ Finset.range k,
          inverse k rows i c * powers k rows c d * symbol inp (k * g + d) p := by
        refine Finset.sum_congr rfl fun c hc => ?_
        rw [hfragment c (Finset.mem_range.mp hc), horner, Finset.mul_sum]
        exact Finset.sum_congr rfl fun d _ => (mul_assoc _ _ _).symm
    _ = ∑ d ∈ Finset.range k, (if i = d then 1 else 0) * symbol inp (k * g + d) p := by
        rw [Finset.sum_comm]
        refine Finset.sum_congr rfl fun d hd => ?_
        rw [← Finset.sum_mul]
        congr 1
        exact GaussJordan.run_inv_mul hrows.leadingIndependent hi (Finset.mem_range.mp hd)
    _ = symbol inp (k * g + i) p := by
        simp [Finset.mem_range.mpr hi]

/-- Encoding `inp` for the `k` bricks, when there are fewer than `2 ^ 32` stripes. -/
theorem exists_fragments (hrows : ValidRows k rows) {inp : List Byte} {S : ℕ}
    (hinp : inp.length = 512 * (k * S)) (hS : S < 2 ^ 32) {buffers : List (List Byte)}
    (hbuffers : buffers.length = k) (hlength : ∀ b ∈ buffers, b.length = 512 * S) :
    ∃ fragments : List (List Byte), fragments.length = k ∧
      (∀ f ∈ fragments, f.length = 512 * S) ∧
      (∀ c < k, ∀ g < S, ∀ p < 512, symbol (fragments.getD c []) g p
        = horner (node rows c) inp k g k p) ∧
      ∀ c < k, ∀ fuel,
        ecMethodEncode fuel inp.length k (rows.getD c 0) inp (buffers.getD c []) =
          if S < fuel then some (S * 512, fragments.getD c []) else none := by
  have each : ∀ c : ℕ, ∃ out', c < k → out'.length = 512 * S ∧
      (∀ s < S, ∀ p < 512, symbol out' s p = horner (node rows c) inp k s k p) ∧
      ∀ fuel, ecMethodEncode fuel inp.length k (rows.getD c 0) inp (buffers.getD c []) =
        if S < fuel then some (S * 512, out') else none := by
    intro c
    by_cases hc : c < k
    · have buffer : (buffers.getD c []).length = 512 * S := by
        rw [List.getD_eq_getElem _ _ (by omega)]
        exact hlength _ (List.getElem_mem _)
      obtain ⟨out', spec⟩ := ecMethodEncode_spec hrows.pos (hrows.getD_lt hc) hinp buffer hS
      exact ⟨out', fun _ => spec⟩
    · exact ⟨[], fun hck => absurd hck hc⟩
  choose fragment spec using each
  have get : ∀ c < k, ((List.range k).map fragment).getD c [] = fragment c := by
    intro c hc
    rw [List.getD_eq_getElem?_getD, List.getElem?_map, List.getElem?_range hc]
    rfl
  refine ⟨(List.range k).map fragment, by simp, ?_, ?_, ?_⟩
  · intro f hf
    obtain ⟨c, hc, rfl⟩ := List.mem_map.mp hf
    exact (spec c (List.mem_range.mp hc)).1
  · intro c hc
    rw [get c hc]
    exact (spec c hc).2.1
  · intro c hc
    rw [get c hc]
    exact (spec c hc).2.2

/-- **Exactly when the round trip holds.** -/
theorem decodesBack_iff {t : GfTables} (ht : t.Sound) (hrows : ValidRows k rows)
    {inp : List Byte} {S : ℕ} (hinp : inp.length = 512 * (k * S)) :
    DecodesBack t k rows inp ↔
      S < 2 ^ 32 ∧ ∀ g < S, stripe k inp g = stripe k inp (g % 2 ^ 23) := by
  have hk := hrows.pos
  have fragmentSize : inp.length / k = S * 512 := by
    rw [hinp, show 512 * (k * S) = k * (S * 512) by ring, Nat.mul_div_cancel_left _ hk]
  by_cases hS : S < 2 ^ 32
  swap
  · -- the first encoding does not return
    refine iff_of_false (fun back => ?_) fun h => hS h.1
    obtain ⟨fuel, fragments, -, encoded, -⟩ := back
      (List.replicate k (List.replicate (inp.length / k) 0)) List.length_replicate
      (fun b hb => by rw [List.eq_of_mem_replicate hb, List.length_replicate])
      inp rfl
    have := encoded 0 hk
    rw [ecMethodEncode_diverges hk hinp (Nat.le_of_not_lt hS)] at this
    cases this
  -- what decoding gives, for any buffers
  have decoded : ∀ buffers : List (List Byte), buffers.length = k →
      (∀ b ∈ buffers, b.length = S * 512) → ∀ out : List Byte, out.length = inp.length →
      ∃ fragments out', fragments.length = k ∧ out'.length = inp.length ∧
        (∀ g < S, ∀ i < k, ∀ p < 512,
          symbol out' (k * g + i) p = symbol inp (k * (g % 2 ^ 23) + i) p) ∧
        (∀ c < k, ∀ fuel,
          ecMethodEncode fuel inp.length k (rows.getD c 0) inp (buffers.getD c []) =
            if S < fuel then some (S * 512, fragments.getD c []) else none) ∧
        ∀ fuel, ecMethodDecode t fuel (S * 512) k rows fragments out =
          if S < fuel then some (inp.length, out') else none := by
    intro buffers hbuffers hlength out hout
    obtain ⟨fragments, hlen, hsize, symbols, encoded⟩ := exists_fragments hrows hinp hS
      hbuffers fun b hb => (hlength b hb).trans (mul_comm _ _)
    obtain ⟨out', hout', symbols', run⟩ :=
      ecMethodDecode_spec ht hrows hlen hS (fun f hf => (hsize f hf).ge) (hout.trans hinp)
    refine ⟨fragments, out', hlen, hout'.trans hinp.symm, fun g hg i hi p hp => ?_, encoded,
      fun fuel => ?_⟩
    · have wrapped : g % 2 ^ 23 < S := lt_of_le_of_lt (Nat.mod_le _ _) hg
      rw [symbols' g hg i hi p hp,
        partialSum_horner hrows hi fun c hc => symbols c hc _ wrapped p hp]
    · rw [run fuel, hinp, show S * 512 * k = 512 * (k * S) by ring]
  have wrapped : ∀ g < S, g % 2 ^ 23 < S := fun g hg =>
    lt_of_le_of_lt (Nat.mod_le _ _) hg
  constructor
  · intro back
    refine ⟨hS, fun g hg => (stripe_eq_iff hinp hg (wrapped g hg)).mpr fun i hi p hp => ?_⟩
    have hlen : (List.replicate k (List.replicate (S * 512) (0 : Byte))).length = k :=
      List.length_replicate
    have hsize : ∀ b ∈ List.replicate k (List.replicate (S * 512) (0 : Byte)),
        b.length = S * 512 := fun b hb => by
      rw [List.eq_of_mem_replicate hb, List.length_replicate]
    obtain ⟨fragments, out', hfragments, -, symbols, encoded, run⟩ :=
      decoded _ hlen hsize inp rfl
    obtain ⟨fuel, fragments', hfragments', encoded', run'⟩ :=
      back _ hlen (fun b hb => (hsize b hb).trans fragmentSize.symm) inp rfl
    -- enough fuel was given, and both runs saw the same fragments
    have enough : S < fuel := by
      by_contra short
      have := encoded' 0 hk
      rw [encoded 0 hk fuel, if_neg short] at this
      cases this
    have same : fragments' = fragments := by
      refine List.ext_getElem (hfragments'.trans hfragments.symm) fun c hc hc' => ?_
      have := encoded' c (by omega)
      rw [encoded c (by omega) fuel, if_pos enough, Option.some_inj, Prod.mk.injEq,
        List.getD_eq_getElem _ _ hc, List.getD_eq_getElem _ _ hc'] at this
      exact this.2.symm
    rw [fragmentSize, same, run fuel, if_pos enough, Option.some_inj, Prod.mk.injEq] at run'
    rw [← symbols g hg i hi p hp, run'.2]
  · rintro ⟨-, periodic⟩ buffers hbuffers hlength out hout
    obtain ⟨fragments, out', hfragments, hout', symbols, encoded, run⟩ := decoded buffers
      hbuffers (fun b hb => (hlength b hb).trans fragmentSize) out hout
    have recovered : out' = inp := by
      refine buffer_ext (hout'.trans hinp) hinp fun m hm p hp => ?_
      have hg : m / k < S := Nat.div_lt_of_lt_mul hm
      have hi : m % k < k := Nat.mod_lt m hk
      have := (stripe_eq_iff hinp hg (wrapped _ hg)).mp (periodic _ hg) _ hi p hp
      rw [← Nat.div_add_mod m k, symbols _ hg _ hi p hp, this]
    refine ⟨S + 1, fragments, hfragments, fun c hc => ?_, ?_⟩
    · rw [encoded c hc, if_pos (Nat.lt_succ_self S), fragmentSize]
    · rw [fragmentSize, run, if_pos (Nat.lt_succ_self S), recovered]

/-- **Encoding and decoding.**  For every choice of at most sixteen distinct
bricks and every whole number of stripes: no pivot of the elimination is zero,
the elimination stays inside the tables, the scan of every row of the inverse
stops, and the round trip holds exactly when there are fewer than `2 ^ 32`
stripes and each equals the one `ec_method_decode` reads in its place. -/
theorem ecMethodDecode_ecMethodEncode (hrows : ValidRows k rows) (inp : List Byte)
    (hinp : 512 * k ∣ inp.length) :
    ∃ t, ecMethodInitialize = some t ∧
      (∀ i < k, ∃ s, eliminateColumns t k rows i = some s ∧ s.mtx i i ≠ 0) ∧
      (∃ s, eliminateColumns t k rows k = some s ∧
        ∀ i < k, ∀ j ≤ k, ∃ j', nextNonzero (s.inv i) j = some j' ∧ j' ≤ k) ∧
      (DecodesBack t k rows inp ↔
        inp.length / (512 * k) < 2 ^ 32 ∧
        ∀ g < inp.length / (512 * k), stripe k inp g = stripe k inp (g % 2 ^ 23)) := by
  obtain ⟨t, initialized, ht⟩ := ecMethodInitialize_sound
  refine ⟨t, initialized, fun i hi => eliminateColumns_pivot_ne_zero ht hrows hi, ?_, ?_⟩
  · obtain ⟨s, run, holds⟩ := eliminateColumns_holds ht hrows le_rfl
    refine ⟨s, run, fun i hi j hj => ?_⟩
    obtain ⟨j', scan, -, hhigh, -⟩ := nextNonzero_eq hrows.le_max
      (show s.inv i k ≠ 0 by rw [holds.sentinel i hi]; exact one_ne_zero) hj
    exact ⟨j', scan, hhigh⟩
  · refine decodesBack_iff ht hrows ?_
    rw [← mul_assoc, Nat.mul_div_cancel' hinp]

/-- Two stripes on the bricks `3` and `0`. -/
theorem ecMethodDecode_ecMethodEncode_two :
    ∃ t, ecMethodInitialize = some t ∧ DecodesBack t 2 [3, 0] (List.replicate 2048 0x5a) := by
  obtain ⟨t, initialized, -, -, back⟩ := ecMethodDecode_ecMethodEncode
    (show ValidRows 2 [3, 0] from ⟨by norm_num, by norm_num, rfl, by decide, by decide⟩)
    (List.replicate 2048 0x5a) (by rw [List.length_replicate]; decide)
  refine ⟨t, initialized, back.mpr ?_⟩
  rw [List.length_replicate]
  refine ⟨by norm_num, fun g hg => ?_⟩
  rw [Nat.mod_eq_of_lt (by omega)]

/-- The smallest buffer for which the offset wraps: one column, `2 ^ 23` stripes of
zeros and one stripe of ones. -/
def wrappingInput : List Byte := List.replicate (2 ^ 32) 0 ++ List.replicate 512 1

theorem length_wrappingInput : wrappingInput.length = 512 * (1 * (2 ^ 23 + 1)) := by
  rw [wrappingInput, List.length_append, List.length_replicate, List.length_replicate]
  norm_num

/-- **Beyond `4 GiB` of fragment the round trip fails**: the last stripe is decoded
from the first one. -/
theorem ecMethodDecode_wraps :
    ∃ t, ecMethodInitialize = some t ∧ ValidRows 1 [0] ∧ 512 * 1 ∣ wrappingInput.length ∧
      ¬ DecodesBack t 1 [0] wrappingInput := by
  have valid : ValidRows 1 [0] := ⟨by norm_num, by norm_num, rfl, by decide, by decide⟩
  obtain ⟨t, initialized, ht⟩ := ecMethodInitialize_sound
  refine ⟨t, initialized, valid, ?_, ?_⟩
  · exact ⟨2 ^ 23 + 1, length_wrappingInput.trans (by norm_num)⟩
  rw [decodesBack_iff ht valid length_wrappingInput]
  rintro ⟨-, periodic⟩
  have same := periodic (2 ^ 23) (Nat.lt_succ_self _)
  have last : stripe 1 wrappingInput (2 ^ 23) = List.replicate 512 1 := by
    have prefixLength : 512 * (1 * 2 ^ 23)
        = (List.replicate (2 ^ 32) (0 : Byte)).length := by
      rw [List.length_replicate]
      norm_num
    rw [stripe, wrappingInput, prefixLength, List.drop_left]
    exact List.take_of_length_le (List.length_replicate).le
  have first : stripe 1 wrappingInput (2 ^ 23 % 2 ^ 23) = List.replicate 512 0 := by
    rw [Nat.mod_self, stripe, wrappingInput, mul_zero, mul_zero, List.drop_zero,
      List.take_append_of_le_length (by rw [List.length_replicate]; norm_num),
      List.take_replicate]
    rfl
  rw [last, first] at same
  have head := congrArg List.head? same
  rw [List.head?_replicate, List.head?_replicate] at head
  exact absurd head (by decide)

end GlusterFS.Ec
