import GlusterFS.Ec.Muladd
import GlusterFS.Lib.GaussJordan

/-!
# Encoding and decoding of fragments

`ec-method.c`: `ec_method_encode` evaluates each stripe of `columns` chunks as a
polynomial at the point `row + 1`, by Horner's rule, and `ec_method_decode`
recovers the stripes from any `columns` fragments: it inverts the matrix of the
powers of the points by Gauss–Jordan elimination without row swaps, and then
evaluates each row of the inverse incrementally, multiplying by the quotient of
two successive non-zero coefficients at a time.

The code is modelled with every access checked: a table, matrix or buffer index
out of range is `none`.  The two outer loops compare a `uint32_t` counter with a
`size_t` bound, so they are `Loop.wrappingFor` with fuel, and the offset into
the fragments is the `uint32_t` the source declares.

* `ecMethodEncode_spec` and `ecMethodDecode_spec` say what the two functions
  compute, element by element.
* `DecodesBack` is the round trip; `decodesBack_iff` says exactly when it holds.
  It fails for fragments of more than `4 GiB` only, because of the offset.
-/

namespace GlusterFS.Ec

/-- `EC_METHOD_MAX_FRAGMENTS`. -/
def ecMethodMaxFragments : ℕ := 16

/-! ## Encoding -/

/-- The output buffer of `ec_method_encode` with its two moving pointers. -/
structure EncodeState where
  out : List Byte
  outOff : ℕ
  inOff : ℕ

/-- `ec_gf_muladd[c](out, in, EC_METHOD_WIDTH); in += EC_METHOD_CHUNK_SIZE;` -/
def encodeChunk (c : ℕ) (inp : List Byte) (s : EncodeState) : Option EncodeState := do
  let out ← ecGfMuladd c s.out s.outOff inp s.inOff
  some { s with out := out, inOff := s.inOff + ecMethodChunkSize }

/-- One stripe of `ec_method_encode`. -/
def encodeStripe (columns row : ℕ) (inp : List Byte) (s : EncodeState) :
    Option EncodeState := do
  let s ← encodeChunk 0 inp s
  let s ← (List.range' 1 (columns - 1)).foldlM (fun s _ => encodeChunk row inp s) s
  some { s with outOff := s.outOff + ecMethodChunkSize }

/-- `ec_method_encode`: the size it returns and the output buffer. -/
def ecMethodEncode (fuel size columns row : ℕ) (inp out : List Byte) :
    Option (ℕ × List Byte) := do
  let size := size / (ecMethodChunkSize * columns)
  let row := row + 1
  let s ← Loop.wrappingFor 32 size (encodeStripe columns row inp) fuel 0 ⟨out, 0, 0⟩
  some (size * ecMethodChunkSize, s.out)

/-! ## Inverting the matrix -/

/-- The two byte matrices on the stack of `ec_method_decode`,
`mtx[EC_METHOD_MAX_FRAGMENTS][EC_METHOD_MAX_FRAGMENTS]` and
`inv[EC_METHOD_MAX_FRAGMENTS][EC_METHOD_MAX_FRAGMENTS + 1]`.  Their indices are
below `columns`, or `columns` itself in a row of `inv`; `ecMethodDecode` checks
`columns`. -/
structure Matrices where
  mtx : ℕ → ℕ → ℕ
  inv : ℕ → ℕ → ℕ

/-- A store into a `uint8_t` cell. -/
def setCell (a : ℕ → ℕ → ℕ) (i j value : ℕ) : ℕ → ℕ → ℕ := fun r c =>
  if r = i ∧ c = j then value % 2 ^ 8 else a r c

/-- The two cleared matrices, with the unit diagonal of `inv` and the sentinel
after each of its rows. -/
def initInv (columns : ℕ) : Matrices :=
  (List.range columns).foldl (fun s i =>
    { s with inv := setCell (setCell s.inv i i 1) i columns 1 }) ⟨fun _ _ => 0, fun _ _ => 0⟩

/-- Row `i` of `mtx`: the powers of `rows[i] + 1`, for `j` from `columns - 1` down
to `1`. -/
def powersRow (t : GfTables) (columns : ℕ) (rows : List ℕ) (s : Matrices) (i : ℕ) :
    Option Matrices := do
  let row ← rows[i]?
  let s := { s with mtx := setCell s.mtx i (columns - 1) 1 }
  (List.range (columns - 1)).foldlM (fun s d => do
    let j := columns - 1 - d
    let value ← ecMethodMul t (s.mtx i j) (row + 1)
    some { s with mtx := setCell s.mtx i (j - 1) value }) s

/-- Both matrices before the elimination. -/
def initMatrices (t : GfTables) (columns : ℕ) (rows : List ℕ) : Option Matrices :=
  (List.range columns).foldlM (powersRow t columns rows) (initInv columns)

/-- Divide row `i` of both matrices by `f`. -/
def divideRow (t : GfTables) (columns i f : ℕ) (s : Matrices) : Option Matrices :=
  (List.range columns).foldlM (fun s j => do
    let a ← ecMethodDiv t (s.mtx i j) f
    let b ← ecMethodDiv t (s.inv i j) f
    some ⟨setCell s.mtx i j a, setCell s.inv i j b⟩) s

/-- Add `f` times row `i` to row `j` of both matrices. -/
def addToRow (t : GfTables) (columns i j f : ℕ) (s : Matrices) : Option Matrices :=
  (List.range columns).foldlM (fun s k => do
    let a ← ecMethodMul t (s.mtx i k) f
    let b ← ecMethodMul t (s.inv i k) f
    some ⟨setCell s.mtx j k (s.mtx j k ^^^ a), setCell s.inv j k (s.inv j k ^^^ b)⟩) s

/-- One turn of the elimination; the pivot is `mtx[i][i]`. -/
def eliminateColumn (t : GfTables) (columns : ℕ) (s : Matrices) (i : ℕ) :
    Option Matrices := do
  let s ← divideRow t columns i (s.mtx i i) s
  (List.range columns).foldlM (fun s j =>
    if i ≠ j then addToRow t columns i j (s.mtx j i) s else some s) s

/-- The first `n` turns of the elimination. -/
def eliminateColumns (t : GfTables) (columns : ℕ) (rows : List ℕ) (n : ℕ) :
    Option Matrices := do
  let s ← initMatrices t columns rows
  (List.range n).foldlM (eliminateColumn t columns) s

/-! ## Decoding -/

/-- `while (inv[i][j] == 0) j++`, with `fuel` entries left in the row. -/
def scanRow (row : ℕ → ℕ) : ℕ → ℕ → Option ℕ
  | 0, _ => none
  | fuel + 1, j => if row j = 0 then scanRow row fuel (j + 1) else some j

/-- The scan of a row of `EC_METHOD_MAX_FRAGMENTS + 1` entries from `j` on. -/
def nextNonzero (row : ℕ → ℕ) (j : ℕ) : Option ℕ :=
  scanRow row (ecMethodMaxFragments + 1 - j) j

/-- The `do … while (j < columns)` loop: it returns `last` and the output buffer.
Every turn moves `j` on, so `columns` turns are enough. -/
def decodeTerms (t : GfTables) (columns : ℕ) (row : ℕ → ℕ) (inp : List (List Byte))
    (off outOff : ℕ) : ℕ → ℕ → ℕ → List Byte → Option (ℕ × List Byte)
  | 0, _, _, _ => none
  | fuel + 1, last, j, out => do
      let j ← nextNonzero row j
      if j < columns then
        let value ← ecMethodDiv t last (row j)
        let fragment ← inp[j]?
        let out ← ecGfMuladd value out outOff fragment off
        if j + 1 < columns then
          decodeTerms t columns row inp off outOff fuel (row j) (j + 1) out
        else
          some (row j, out)
      else
        some (last, out)

/-- The output buffer of `ec_method_decode`, its pointer and the `uint32_t off`. -/
structure DecodeState where
  out : List Byte
  outOff : ℕ
  off : ℕ

/-- The bytes of `dummy`. -/
def dummyChunk : List Byte := List.replicate ecMethodChunkSize 0

/-- One output chunk: row `i` of the inverse applied to the current chunks. -/
def decodeRow (t : GfTables) (columns : ℕ) (inv : ℕ → ℕ → ℕ) (inp : List (List Byte))
    (s : DecodeState) (i : ℕ) : Option DecodeState := do
  let (last, out) ← decodeTerms t columns (inv i) inp s.off s.outOff columns 0 0 s.out
  let out ← ecGfMuladd last out s.outOff dummyChunk 0
  some { s with out := out, outOff := s.outOff + ecMethodChunkSize }

/-- One stripe of output; `off` is a `uint32_t`. -/
def decodeStripe (t : GfTables) (columns : ℕ) (inv : ℕ → ℕ → ℕ) (inp : List (List Byte))
    (s : DecodeState) : Option DecodeState := do
  let s ← (List.range columns).foldlM (decodeRow t columns inv inp) s
  some { s with off := (s.off + ecMethodChunkSize) % 2 ^ 32 }

/-- `ec_method_decode`: the size it returns and the output buffer. -/
def ecMethodDecode (t : GfTables) (fuel size columns : ℕ) (rows : List ℕ)
    (inp : List (List Byte)) (out : List Byte) : Option (ℕ × List Byte) :=
  if columns ≤ ecMethodMaxFragments then do
    let size := size / ecMethodChunkSize
    let m ← eliminateColumns t columns rows columns
    let s ← Loop.wrappingFor 32 size (decodeStripe t columns m.inv inp) fuel 0 ⟨out, 0, 0⟩
    some (size * ecMethodChunkSize * columns, s.out)
  else
    none

/-! ## The elimination computes the inverse -/

/-- A store of a field element keeps it whole. -/
theorem setCell_toNat (a : ℕ → ℕ → ℕ) (i j : ℕ) (value : Gf) (r c : ℕ) :
    setCell a i j value.toNat r c = if r = i ∧ c = j then value.toNat else a r c := by
  rw [setCell, Nat.mod_eq_of_lt (show value.toNat < 2 ^ 8 from value.bits.isLt)]

theorem Gf.toNat_add (a b : Gf) : (a + b).toNat = a.toNat ^^^ b.toNat :=
  BitVec.toNat_xor a.bits b.bits

theorem Gf.ofNat_toNat (a : Gf) : (⟨BitVec.ofNat 8 a.toNat⟩ : Gf) = a :=
  BinaryQuotient.ext (by rw [Gf.toNat, BitVec.ofNat_toNat, BitVec.setWidth_eq])

open GaussJordan (Tableau)

/-- The matrices hold a tableau over the field, with the sentinels in place. -/
structure Matrices.Holds (k : ℕ) (s : Matrices) (T : Tableau Gf) : Prop where
  mtx : ∀ r < k, ∀ c < k, s.mtx r c = (T.mtx r c).toNat
  inv : ∀ r < k, ∀ c < k, s.inv r c = (T.inv r c).toNat
  sentinel : ∀ r < k, s.inv r k = 1

theorem Matrices.Holds.congr {k : ℕ} {s : Matrices} {T T' : Tableau Gf}
    (h : s.Holds k T) (hmtx : ∀ r < k, ∀ c < k, T.mtx r c = T'.mtx r c)
    (hinv : ∀ r < k, ∀ c < k, T.inv r c = T'.inv r c) : s.Holds k T' where
  mtx r hr c hc := by rw [h.mtx r hr c hc, hmtx r hr c hc]
  inv r hr c hc := by rw [h.inv r hr c hc, hinv r hr c hc]
  sentinel := h.sentinel

/-- The first `n` cells of row `j` of both matrices replaced. -/
def replaceRow (T : Tableau Gf) (j : ℕ) (g h : ℕ → Gf) (n : ℕ) : Tableau Gf :=
  ⟨fun r c => if r = j ∧ c < n then g c else T.mtx r c,
    fun r c => if r = j ∧ c < n then h c else T.inv r c⟩

theorem replaceRow_mtx_ne {T : Tableau Gf} {g h : ℕ → Gf} {j n r c : ℕ}
    (out : r ≠ j ∨ n ≤ c) : (replaceRow T j g h n).mtx r c = T.mtx r c :=
  if_neg (by omega)

theorem replaceRow_inv_ne {T : Tableau Gf} {g h : ℕ → Gf} {j n r c : ℕ}
    (out : r ≠ j ∨ n ≤ c) : (replaceRow T j g h n).inv r c = T.inv r c :=
  if_neg (by omega)

/-- A pass over row `j` that rewrites one cell of each matrix at a time. -/
theorem rowPass_holds {k j : ℕ} (body : Matrices → ℕ → Option Matrices) {s : Matrices}
    {T : Tableau Gf} (g h : ℕ → Gf) (hs : s.Holds k T)
    (step : ∀ c s, c < k → s.Holds k (replaceRow T j g h c) →
      body s c = some ⟨setCell s.mtx j c (g c).toNat, setCell s.inv j c (h c).toNat⟩) :
    ∃ s', (List.range k).foldlM body s = some s' ∧ s'.Holds k (replaceRow T j g h k) := by
  refine Loop.foldlM_range_invariant body (fun n s => s.Holds k (replaceRow T j g h n)) k
    (hs.congr (by simp [replaceRow]) (by simp [replaceRow])) fun n s hn holds => ?_
  refine ⟨_, step n s hn holds, ?_, ?_, ?_⟩
  · intro r hr c hc
    simp only [setCell_toNat, holds.mtx r hr c hc, replaceRow]
    grind
  · intro r hr c hc
    simp only [setCell_toNat, holds.inv r hr c hc, replaceRow]
    grind
  · intro r hr
    refine (setCell_toNat _ _ _ _ _ _).trans ?_
    rw [if_neg (by omega)]
    exact holds.sentinel r hr

theorem divideRow_holds {t : GfTables} (ht : t.Sound) {k i : ℕ} {s : Matrices}
    {T : Tableau Gf} {f : Gf} (hs : s.Holds k T) (hi : i < k) (hf : f ≠ 0) :
    ∃ s', divideRow t k i f.toNat s = some s' ∧
      s'.Holds k (replaceRow T i (fun c => T.mtx i c / f) (fun c => T.inv i c / f) k) := by
  refine rowPass_holds _ _ _ hs fun c s hc holds => ?_
  have hmtx : s.mtx i c = (T.mtx i c).toNat := by
    rw [holds.mtx i hi c hc, replaceRow_mtx_ne (Or.inr le_rfl)]
  have hinv : s.inv i c = (T.inv i c).toNat := by
    rw [holds.inv i hi c hc, replaceRow_inv_ne (Or.inr le_rfl)]
  rw [hmtx, hinv, ecMethodDiv_eq ht _ hf, ecMethodDiv_eq ht _ hf]
  rfl

theorem addToRow_holds {t : GfTables} (ht : t.Sound) {k i j : ℕ} {s : Matrices}
    {T : Tableau Gf} {f : Gf} (hs : s.Holds k T) (hi : i < k) (hj : j < k) (hij : i ≠ j) :
    ∃ s', addToRow t k i j f.toNat s = some s' ∧
      s'.Holds k (replaceRow T j (fun c => T.mtx j c + T.mtx i c * f)
        (fun c => T.inv j c + T.inv i c * f) k) := by
  refine rowPass_holds _ _ _ hs fun c s hc holds => ?_
  have hmtx : s.mtx j c = (T.mtx j c).toNat ∧ s.mtx i c = (T.mtx i c).toNat := by
    rw [holds.mtx j hj c hc, holds.mtx i hi c hc, replaceRow_mtx_ne (Or.inr le_rfl),
      replaceRow_mtx_ne (Or.inl hij)]
    exact ⟨rfl, rfl⟩
  have hinv : s.inv j c = (T.inv j c).toNat ∧ s.inv i c = (T.inv i c).toNat := by
    rw [holds.inv j hj c hc, holds.inv i hi c hc, replaceRow_inv_ne (Or.inr le_rfl),
      replaceRow_inv_ne (Or.inl hij)]
    exact ⟨rfl, rfl⟩
  rw [hmtx.1, hmtx.2, hinv.1, hinv.2, ecMethodMul_eq ht, ecMethodMul_eq ht,
    Gf.toNat_add, Gf.toNat_add]
  rfl

/-- **One turn of the elimination is one step of the library's**, as long as the
pivot is not zero. -/
theorem eliminateColumn_holds {t : GfTables} (ht : t.Sound) {k i : ℕ} {s : Matrices}
    {T : Tableau Gf} (hs : s.Holds k T) (hi : i < k) (hpivot : T.mtx i i ≠ 0) :
    ∃ s', eliminateColumn t k s i = some s' ∧ s'.Holds k (GaussJordan.eliminate i T) := by
  obtain ⟨s₁, divided, hs₁⟩ := divideRow_holds ht hs hi hpivot
  -- after `n` rows: the rows before `n` are swept, the others as `divideRow` left them
  let swept (n : ℕ) : Tableau Gf :=
    ⟨fun r c => if r < n ∨ r = i then GaussJordan.sweep T.mtx T.mtx i r c else T.mtx r c,
      fun r c => if r < n ∨ r = i then GaussJordan.sweep T.mtx T.inv i r c else T.inv r c⟩
  have start : s₁.Holds k (swept 0) := by
    refine hs₁.congr (fun r hr c hc => ?_) (fun r hr c hc => ?_)
    · simp only [replaceRow, swept, GaussJordan.sweep]
      grind
    · simp only [replaceRow, swept, GaussJordan.sweep]
      grind
  obtain ⟨s', run, hs'⟩ := Loop.foldlM_range_invariant (fun s j =>
      if i ≠ j then addToRow t k i j (s.mtx j i) s else some s)
    (fun n s => s.Holds k (swept n)) k start fun n s hn holds => by
      by_cases hin : i = n
      · subst hin
        refine ⟨s, by simp, holds.congr (fun r _ c _ => ?_) (fun r _ c _ => ?_)⟩
        · simp only [swept]
          grind
        · simp only [swept]
          grind
      · have factor : s.mtx n i = (T.mtx n i).toNat := by
          rw [holds.mtx n hn i hi]
          simp only [swept]
          rw [if_neg (by omega)]
        obtain ⟨s', added, hs'⟩ := addToRow_holds ht holds (f := T.mtx n i) hi hn hin
        refine ⟨s', by rw [if_pos hin, factor, added], hs'.congr ?_ ?_⟩
        · intro r hr c hc
          simp only [replaceRow, swept, GaussJordan.sweep]
          grind [BinaryQuotient.sub_eq_add]
        · intro r hr c hc
          simp only [replaceRow, swept, GaussJordan.sweep]
          grind [BinaryQuotient.sub_eq_add]
  refine ⟨s', ?_, hs'.congr (fun r hr c _ => ?_) (fun r hr c _ => ?_)⟩
  · rw [eliminateColumn, hs.mtx i hi i hi, divided]
    exact run
  · simp only [swept, GaussJordan.eliminate]
    rw [if_pos (Or.inl hr)]
  · simp only [swept, GaussJordan.eliminate]
    rw [if_pos (Or.inl hr)]

/-! ## The matrix of powers -/

/-- The evaluation point of a brick. -/
def node (rows : List ℕ) (r : ℕ) : Gf := ⟨BitVec.ofNat 8 (rows.getD r 0 + 1)⟩

/-- The matrix `ec_method_decode` inverts. -/
def powers (k : ℕ) (rows : List ℕ) (r c : ℕ) : Gf := node rows r ^ (k - 1 - c)

/-- A choice of `k` bricks: pairwise distinct, and each of them has a kernel. -/
structure ValidRows (k : ℕ) (rows : List ℕ) : Prop where
  pos : 1 ≤ k
  le_max : k ≤ 16
  length : rows.length = k
  nodup : rows.Nodup
  small : ∀ row ∈ rows, row < 254

variable {k : ℕ} {rows : List ℕ}

theorem ValidRows.getElem?_eq (h : ValidRows k rows) {r : ℕ} (hr : r < k) :
    rows[r]? = some (rows.getD r 0) := by
  rw [List.getD_eq_getElem?_getD, List.getElem?_eq_getElem (by rw [h.length]; exact hr)]
  rfl

theorem ValidRows.getD_lt (h : ValidRows k rows) {r : ℕ} (hr : r < k) :
    rows.getD r 0 < 254 :=
  h.small _ (List.mem_of_getElem? (h.getElem?_eq hr))

theorem ValidRows.toNat_node (h : ValidRows k rows) {r : ℕ} (hr : r < k) :
    (node rows r).toNat = rows.getD r 0 + 1 := by
  have := h.getD_lt hr
  exact Nat.mod_eq_of_lt (by omega)

theorem ValidRows.leadingIndependent (h : ValidRows k rows) :
    GaussJordan.LeadingIndependent (powers k rows) k := by
  refine GaussJordan.leadingIndependent_powers (fun r hr r' hr' heq => ?_) fun r hr => ?_
  · have equal := congrArg Gf.toNat heq
    rw [h.toNat_node hr, h.toNat_node hr', Nat.add_right_cancel_iff] at equal
    have hr₁ : r < rows.length := by rw [h.length]; exact hr
    have hr₂ : r' < rows.length := by rw [h.length]; exact hr'
    rw [List.getD_eq_getElem _ _ hr₁, List.getD_eq_getElem _ _ hr₂] at equal
    exact (List.Nodup.getElem_inj_iff h.nodup).mp equal
  · refine Gf.toNat_eq_zero.not.mp ?_
    rw [h.toNat_node hr]
    omega

/-- After `n` rows of the first loop. -/
theorem initInv_prefix (n : ℕ) (hn : n ≤ k) :
    ∃ s : Matrices, (List.range n).foldl (fun s i =>
        { s with inv := setCell (setCell s.inv i i 1) i k 1 })
        (⟨fun _ _ => 0, fun _ _ => 0⟩ : Matrices) = s ∧
      (∀ r c, s.mtx r c = 0) ∧
      ∀ r c, s.inv r c = if r < n ∧ (c = r ∨ c = k) then 1 else 0 := by
  induction n with
  | zero => exact ⟨_, rfl, fun _ _ => rfl, fun r c => by simp⟩
  | succ n ih =>
      obtain ⟨s, run, hmtx, hinv⟩ := ih (by omega)
      rw [List.range_succ, List.foldl_append, run]
      refine ⟨_, rfl, hmtx, fun r c => ?_⟩
      simp only [List.foldl_cons, List.foldl_nil, setCell, hinv]
      grind

theorem powersRow_holds {t : GfTables} (ht : t.Sound) (hrows : ValidRows k rows)
    {s : Matrices} {i : ℕ} (hi : i < k) :
    ∃ s', powersRow t k rows s i = some s' ∧ s'.inv = s.inv ∧
      (∀ r ≠ i, ∀ c, s'.mtx r c = s.mtx r c) ∧
      ∀ c < k, s'.mtx i c = (powers k rows i c).toNat := by
  have hk := hrows.pos
  -- after `d` turns the columns from `k - 1 - d` on are filled
  obtain ⟨s', run, hinv, hother, hrow⟩ := Loop.foldlM_range_invariant
    (fun s d => do
      let value ← ecMethodMul t (s.mtx i (k - 1 - d)) (rows.getD i 0 + 1)
      some { s with mtx := setCell s.mtx i (k - 1 - d - 1) value })
    (fun d s' => s'.inv = s.inv ∧ (∀ r ≠ i, ∀ c, s'.mtx r c = s.mtx r c) ∧
      ∀ c < k, k - 1 - d ≤ c → s'.mtx i c = (powers k rows i c).toNat) (k - 1)
    (s := { s with mtx := setCell s.mtx i (k - 1) 1 })
    (by
      refine ⟨rfl, fun r hr c => if_neg (by omega), fun c hc hlow => ?_⟩
      obtain rfl : c = k - 1 := by omega
      refine (if_pos ⟨rfl, rfl⟩).trans ?_
      rw [powers, Nat.sub_self, pow_zero]
      rfl)
    (by
      rintro d s₁ hd ⟨hinv, hother, hrow⟩
      have value : ecMethodMul t (s₁.mtx i (k - 1 - d)) (rows.getD i 0 + 1) =
          some (powers k rows i (k - 1 - d - 1)).toNat := by
        rw [hrow _ (by omega) le_rfl, ← hrows.toNat_node hi, ecMethodMul_eq ht, powers,
          powers, ← pow_succ]
        congr 3
        omega
      let filled := setCell s₁.mtx i (k - 1 - d - 1) (powers k rows i (k - 1 - d - 1)).toNat
      refine ⟨{ s₁ with mtx := filled }, by rw [value]; rfl, hinv, fun r hr c => ?_,
        fun c hc hlow => ?_⟩
      · refine (setCell_toNat _ _ _ _ _ _).trans ?_
        rw [if_neg (by omega), hother r hr c]
      · refine (setCell_toNat _ _ _ _ _ _).trans ?_
        by_cases hnew : c = k - 1 - d - 1
        · rw [if_pos ⟨rfl, hnew⟩, hnew]
        · rw [if_neg (by omega), hrow c hc (by omega)])
  refine ⟨s', ?_, hinv, hother, fun c hc => hrow c hc (by omega)⟩
  rw [powersRow, hrows.getElem?_eq hi]
  exact run

theorem initMatrices_holds {t : GfTables} (ht : t.Sound) (hrows : ValidRows k rows) :
    ∃ s, initMatrices t k rows = some s ∧
      s.Holds k (GaussJordan.start (powers k rows)) := by
  obtain ⟨s₀, run₀, -, hinv₀⟩ := initInv_prefix k le_rfl
  obtain ⟨s, run, hinv, hmtx⟩ := Loop.foldlM_range_invariant (powersRow t k rows)
    (fun n s => s.inv = s₀.inv ∧ ∀ r < n, ∀ c < k, s.mtx r c = (powers k rows r c).toNat) k
    (s := s₀) ⟨rfl, fun r hr => absurd hr (Nat.not_lt_zero r)⟩
    (by
      rintro i s hi ⟨hinv, hmtx⟩
      obtain ⟨s', run, hinv', hother, hrow⟩ := powersRow_holds ht hrows (s := s) hi
      refine ⟨s', run, hinv'.trans hinv, fun r hr c hc => ?_⟩
      by_cases hri : r = i
      · rw [hri, hrow c hc]
      · rw [hother r hri c, hmtx r (by omega) c hc])
  refine ⟨s, ?_, hmtx, fun r hr c hc => ?_, fun r hr => ?_⟩
  · rw [initMatrices, initInv, run₀, run]
  · rw [hinv, hinv₀]
    simp only [GaussJordan.start]
    by_cases hrc : r = c
    · rw [if_pos ⟨hr, Or.inl hrc.symm⟩, if_pos hrc]
      rfl
    · rw [if_neg (by omega), if_neg hrc]
      rfl
  · rw [hinv, hinv₀, if_pos ⟨hr, Or.inr rfl⟩]

/-- **The elimination of `ec_method_decode` never fails and runs the library's
Gauss–Jordan elimination on the matrix of powers.** -/
theorem eliminateColumns_holds {t : GfTables} (ht : t.Sound) (hrows : ValidRows k rows)
    {n : ℕ} (hn : n ≤ k) :
    ∃ s, eliminateColumns t k rows n = some s ∧
      s.Holds k (GaussJordan.run (GaussJordan.start (powers k rows)) n) := by
  obtain ⟨s₀, init, hs₀⟩ := initMatrices_holds ht hrows
  obtain ⟨s, run, hs⟩ := Loop.foldlM_range_invariant (eliminateColumn t k)
    (fun n s => s.Holds k (GaussJordan.run (GaussJordan.start (powers k rows)) n)) n hs₀
    fun i s hi holds => eliminateColumn_holds ht holds (by omega)
      (GaussJordan.run_pivot_ne_zero hrows.leadingIndependent (by omega))
  refine ⟨s, ?_, hs⟩
  rw [eliminateColumns, init]
  exact run

/-- **The pivot of every turn is non-zero.** -/
theorem eliminateColumns_pivot_ne_zero {t : GfTables} (ht : t.Sound)
    (hrows : ValidRows k rows) {i : ℕ} (hi : i < k) :
    ∃ s, eliminateColumns t k rows i = some s ∧ s.mtx i i ≠ 0 := by
  obtain ⟨s, run, hs⟩ := eliminateColumns_holds ht hrows hi.le
  refine ⟨s, run, ?_⟩
  rw [hs.mtx i hi i hi, Gf.toNat_eq_zero.ne]
  exact GaussJordan.run_pivot_ne_zero hrows.leadingIndependent hi

/-- The inverse `ec_method_decode` ends up with. -/
def inverse (k : ℕ) (rows : List ℕ) (i j : ℕ) : Gf :=
  (GaussJordan.run (GaussJordan.start (powers k rows)) k).inv i j

/-! ## What encoding computes -/

/-- Horner's rule after `i` chunks of stripe `s`. -/
def horner (x : Gf) (inp : List Byte) (k s i p : ℕ) : Gf :=
  ∑ c ∈ Finset.range i, x ^ (i - 1 - c) * symbol inp (k * s + c) p

theorem horner_succ (x : Gf) (inp : List Byte) (k s i p : ℕ) :
    horner x inp k s (i + 1) p = x * horner x inp k s i p + symbol inp (k * s + i) p := by
  have last : i + 1 - 1 - i = 0 := by omega
  rw [horner, Finset.sum_range_succ, last, pow_zero, one_mul, horner, Finset.mul_sum]
  congr 1
  refine Finset.sum_congr rfl fun c hc => ?_
  have hc' : c < i := Finset.mem_range.mp hc
  have next : i + 1 - 1 - c = i - 1 - c + 1 := by omega
  rw [← mul_assoc, ← pow_succ', next]

/-- After `i` chunks of stripe `s`: the pointers, and the elements written. -/
structure EncodeState.At (x : Gf) (inp : List Byte) (k S s i : ℕ) (e : EncodeState) :
    Prop where
  out_length : e.out.length = 512 * S
  outOff_eq : e.outOff = 512 * s
  inOff_eq : e.inOff = 512 * (k * s + i)
  done : ∀ s' < s, ∀ p < 512, symbol e.out s' p = horner x inp k s' k p
  current : 0 < i → ∀ p < 512, symbol e.out s p = horner x inp k s i p

theorem encodeChunk_at {x : Gf} {c : ℕ} {inp : List Byte} {S s i : ℕ} {e : EncodeState}
    (hc : c < 256) (hx : 0 < i → (⟨BitVec.ofNat 8 c⟩ : Gf) = x)
    (hzero : i = 0 → c = 0) (hinp : inp.length = 512 * (k * S)) (hs : s < S) (hi : i < k)
    (h : e.At x inp k S s i) :
    ∃ e', encodeChunk c inp e = some e' ∧ e'.At x inp k S s (i + 1) := by
  have place : k * s + i < k * S := by
    calc k * s + i < k * s + k := by omega
      _ = k * (s + 1) := by ring
      _ ≤ k * S := Nat.mul_le_mul_left k hs
  obtain ⟨out, run, length, symbols⟩ :=
    ecGfMuladd_spec hc h.out_length hs hinp.ge place
  refine ⟨⟨out, e.outOff, e.inOff + ecMethodChunkSize⟩, ?_, length, h.outOff_eq, ?_, ?_, ?_⟩
  · rw [encodeChunk, h.outOff_eq, h.inOff_eq, run]
    rfl
  · rw [h.inOff_eq]
    change 512 * (k * s + i) + 512 = 512 * (k * s + (i + 1))
    ring
  · intro s' hs' p hp
    rw [symbols s' p hp, if_neg (by omega), h.done s' hs' p hp]
  · intro _ p hp
    rw [symbols s p hp, if_pos rfl, horner_succ]
    rcases Nat.eq_zero_or_pos i with hi₀ | hi₀
    · -- the first kernel is a copy
      rw [hzero hi₀, hi₀]
      change (0 : Gf) * _ + _ = x * horner x inp k s 0 p + _
      rw [zero_mul, horner, Finset.sum_range_zero, mul_zero]
    · rw [hx hi₀, h.current hi₀ p hp]

theorem encodeStripe_at {row : ℕ} {inp : List Byte} {S s : ℕ} {e : EncodeState}
    (hk : 1 ≤ k) (hrow : row < 256) (hinp : inp.length = 512 * (k * S)) (hs : s < S)
    (h : e.At ⟨BitVec.ofNat 8 row⟩ inp k S s 0) :
    ∃ e', encodeStripe k row inp e = some e' ∧
      e'.At ⟨BitVec.ofNat 8 row⟩ inp k S (s + 1) 0 := by
  obtain ⟨e₁, first, h₁⟩ := encodeChunk_at (by norm_num)
    (fun hpos => absurd hpos (lt_irrefl 0)) (fun _ => rfl) hinp hs (by omega) h
  obtain ⟨e₂, rest, h₂⟩ := Loop.foldlM_range'_invariant
    (fun e _ => encodeChunk row inp e)
    (fun i e => e.At ⟨BitVec.ofNat 8 row⟩ inp k S s i) 1 (k - 1) h₁
    fun i e hlow hhigh hat => encodeChunk_at hrow (fun _ => rfl) (by omega) hinp hs
      (by omega) hat
  have whole : 1 + (k - 1) = k := by omega
  rw [whole] at h₂
  refine ⟨{ e₂ with outOff := e₂.outOff + ecMethodChunkSize }, ?_, h₂.out_length, ?_, ?_,
    ?_, fun hpos => absurd hpos (lt_irrefl 0)⟩
  · simp only [encodeStripe, first, rest, Option.bind_eq_bind, Option.bind_some]
  · change e₂.outOff + 512 = 512 * (s + 1)
    rw [h₂.outOff_eq]
    ring
  · change e₂.inOff = 512 * (k * (s + 1) + 0)
    rw [h₂.inOff_eq]
    ring
  · intro s' hs' p hp
    rcases Nat.lt_succ_iff_lt_or_eq.mp hs' with hlt | rfl
    · exact h₂.done s' hlt p hp
    · exact h₂.current hk p hp

/-- **What `ec_method_encode` computes.**  With fewer than `2 ^ 32` stripes it
returns, and each chunk of the fragment is its stripe evaluated at `row + 1`. -/
theorem ecMethodEncode_spec {row : ℕ} {inp out : List Byte} {S : ℕ} (hk : 1 ≤ k)
    (hrow : row < 254) (hinp : inp.length = 512 * (k * S)) (hout : out.length = 512 * S)
    (hS : S < 2 ^ 32) :
    ∃ out', out'.length = 512 * S ∧
      (∀ s < S, ∀ p < 512, symbol out' s p
        = horner ⟨BitVec.ofNat 8 (row + 1)⟩ inp k s k p) ∧
      ∀ fuel, ecMethodEncode fuel inp.length k row inp out =
        if S < fuel then some (S * 512, out') else none := by
  have stripes : inp.length / (ecMethodChunkSize * k) = S := by
    change inp.length / (512 * k) = S
    rw [hinp, ← mul_assoc, Nat.mul_div_cancel_left _ (by omega)]
  obtain ⟨e, he, run⟩ := Loop.wrappingFor_invariant 32 S (encodeStripe k (row + 1) inp)
    (fun s e => e.At ⟨BitVec.ofNat 8 (row + 1)⟩ inp k S s 0) hS (s := ⟨out, 0, 0⟩)
    ⟨hout, rfl, rfl, fun s hs => absurd hs (Nat.not_lt_zero s),
      fun hpos => absurd hpos (lt_irrefl 0)⟩
    fun s e hs hat => encodeStripe_at hk (by omega) hinp hs hat
  refine ⟨e.out, he.out_length, he.done, fun fuel => ?_⟩
  simp only [ecMethodEncode, stripes, run fuel]
  split <;> rfl

/-- With `2 ^ 32` stripes or more the counter never reaches its bound. -/
theorem ecMethodEncode_diverges {row : ℕ} {inp out : List Byte} {S : ℕ} (hk : 1 ≤ k)
    (hinp : inp.length = 512 * (k * S)) (hS : 2 ^ 32 ≤ S) (fuel : ℕ) :
    ecMethodEncode fuel inp.length k row inp out = none := by
  have stripes : inp.length / (ecMethodChunkSize * k) = S := by
    change inp.length / (512 * k) = S
    rw [hinp, ← mul_assoc, Nat.mul_div_cancel_left _ (by omega)]
  simp only [ecMethodEncode, stripes]
  rw [Loop.wrappingFor_diverges 32 S _ hS fuel 0 (by norm_num)]
  rfl

end GlusterFS.Ec
