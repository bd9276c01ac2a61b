import GlusterFS.Ec.Gf

/-!
# Chunks and the multiply-and-add kernels

`ec-gf.c` works on chunks of `EC_METHOD_CHUNK_SIZE` bytes in a bit-sliced
layout: a chunk holds `512` field elements, and the byte plane
`64 b, …, 64 b + 63` holds bit `b` of all of them.  The kernel
`ec_gf_muladd[c]` replaces every element `o` of the chunk `out` by
`c * o + i`, with `i` the element of the chunk `in` at the same place.

A buffer is a list of bytes and a pointer an offset into it; an access that
leaves its buffer is `none`.  All later proofs look at a buffer through
`symbol buf m p`, the `p`-th element of its `m`-th chunk: `ecGfMuladd_spec` says
what a kernel does to those, and `buffer_ext` that they determine the buffer.
-/

namespace GlusterFS.Ec

/-- `EC_METHOD_WORD_SIZE`. -/
def ecMethodWordSize : ℕ := 64

/-- `EC_METHOD_CHUNK_SIZE`. -/
def ecMethodChunkSize : ℕ := ecMethodWordSize * ecGfBits

/-! ## The bit-sliced layout -/

/-- Element `p` of a chunk: bit `b` is taken from plane `b`. -/
def symbolAt (chunk : List Byte) (p : ℕ) : Gf :=
  ⟨BitVec.ofFnLE fun b : Fin 8 => (chunk.getD (64 * b + p / 8) 0).getLsbD (p % 8)⟩

/-- The chunk with the given elements. -/
def chunkOf (f : ℕ → Gf) : List Byte :=
  (List.range ecMethodChunkSize).map fun o =>
    BitVec.ofFnLE fun e : Fin 8 => (f (8 * (o % 64) + e)).bits.getLsbD (o / 64)

theorem length_chunkOf (f : ℕ → Gf) : (chunkOf f).length = 512 := by
  rw [chunkOf, List.length_map, List.length_range]
  rfl

theorem symbolAt_chunkOf (f : ℕ → Gf) {p : ℕ} (hp : p < 512) :
    symbolAt (chunkOf f) p = f p := by
  ext1
  refine BitVec.eq_of_getLsbD_eq fun b hb => ?_
  have inside : 64 * b + p / 8 < ecMethodChunkSize := by
    have : ecMethodChunkSize = 512 := rfl
    omega
  have plane : (64 * b + p / 8) / 64 = b := by omega
  have place : 8 * ((64 * b + p / 8) % 64) + p % 8 = p := by omega
  rw [symbolAt, BitVec.getLsbD_ofFnLE, dif_pos hb, List.getD_eq_getElem?_getD, chunkOf,
    List.getElem?_map, List.getElem?_range inside, Option.map_some, Option.getD_some,
    BitVec.getLsbD_ofFnLE, dif_pos (Nat.mod_lt p (by norm_num))]
  simp only [plane, place]

/-- Chunks with the same elements are the same chunk. -/
theorem chunk_ext {c c' : List Byte} (hc : c.length = 512) (hc' : c'.length = 512)
    (h : ∀ p < 512, symbolAt c p = symbolAt c' p) : c = c' := by
  refine List.ext_getElem (hc.trans hc'.symm) fun o ho ho' => ?_
  refine BitVec.eq_of_getLsbD_eq fun e he => ?_
  have equal := h (8 * (o % 64) + e) (by omega)
  have byte : 64 * (o / 64) + (8 * (o % 64) + e) / 8 = o := by omega
  have bit : (8 * (o % 64) + e) % 8 = e := by omega
  have hplane : o / 64 < 8 := by omega
  have := congrArg (fun a : Gf => a.bits.getLsbD (o / 64)) equal
  simp only [symbolAt, BitVec.getLsbD_ofFnLE, dif_pos hplane, byte, bit,
    List.getD_eq_getElem?_getD, List.getElem?_eq_getElem ho,
    List.getElem?_eq_getElem ho', Option.getD_some] at this
  exact this

/-! ## Buffers -/

/-- Read the chunk a pointer points to. -/
def loadChunk (buf : List Byte) (off : ℕ) : Option (List Byte) :=
  if off + ecMethodChunkSize ≤ buf.length then
    some ((buf.drop off).take ecMethodChunkSize)
  else
    none

/-- Overwrite the chunk a pointer points to. -/
def storeChunk (buf : List Byte) (off : ℕ) (chunk : List Byte) : Option (List Byte) :=
  if off + ecMethodChunkSize ≤ buf.length then
    some (buf.take off ++ chunk ++ buf.drop (off + ecMethodChunkSize))
  else
    none

/-- The kernel `ec_gf_muladd[c](out + outOff, in + inOff, EC_METHOD_WIDTH)`.
The table has `256` entries. -/
def ecGfMuladd (c : ℕ) (out : List Byte) (outOff : ℕ) (inp : List Byte) (inOff : ℕ) :
    Option (List Byte) :=
  if c < ecGfSize then do
    let o ← loadChunk out outOff
    let i ← loadChunk inp inOff
    storeChunk out outOff
      (chunkOf fun p => ⟨BitVec.ofNat 8 c⟩ * symbolAt o p + symbolAt i p)
  else
    none

/-- Element `p` of chunk `m` of a buffer. -/
def symbol (buf : List Byte) (m p : ℕ) : Gf :=
  symbolAt ((buf.drop (512 * m)).take 512) p

/-- Buffers with the same elements are the same buffer. -/
theorem buffer_ext {n : ℕ} {buf buf' : List Byte} (hbuf : buf.length = 512 * n)
    (hbuf' : buf'.length = 512 * n)
    (h : ∀ m < n, ∀ p < 512, symbol buf m p = symbol buf' m p) : buf = buf' := by
  have chunks : ∀ m < n, (buf.drop (512 * m)).take 512 = (buf'.drop (512 * m)).take 512 := by
    intro m hm
    refine chunk_ext ?_ ?_ (h m hm)
    · rw [List.length_take, List.length_drop]
      omega
    · rw [List.length_take, List.length_drop]
      omega
  refine List.ext_getElem? fun o => ?_
  by_cases ho : o < 512 * n
  · have same := congrArg (fun l : List Byte => l[o % 512]?) (chunks (o / 512) (by omega))
    simp only [List.getElem?_take, List.getElem?_drop] at same
    rw [if_pos (by omega), if_pos (by omega), Nat.div_add_mod] at same
    exact same
  · rw [List.getElem?_eq_none (by omega), List.getElem?_eq_none (by omega)]

theorem getElem?_splice {buf chunk : List Byte} {off : ℕ} (hoff : off + 512 ≤ buf.length)
    (hchunk : chunk.length = 512) (o : ℕ) :
    (buf.take off ++ chunk ++ buf.drop (off + 512))[o]? =
      if off ≤ o ∧ o < off + 512 then chunk[o - off]? else buf[o]? := by
  have htake : (buf.take off).length = off := by
    rw [List.length_take]
    omega
  rw [List.getElem?_append, List.length_append, htake, hchunk]
  by_cases hlow : o < off
  · rw [if_pos (by omega), List.getElem?_append, htake, if_pos hlow,
      List.getElem?_take_of_lt hlow, if_neg (by omega)]
  by_cases hhigh : o < off + 512
  · rw [if_pos hhigh, List.getElem?_append, htake, if_neg hlow, if_pos ⟨by omega, hhigh⟩]
  · have place : off + 512 + (o - (off + 512)) = o := by omega
    rw [if_neg hhigh, List.getElem?_drop, if_neg (by omega), place]

/-- Overwriting one chunk changes the elements of that chunk only. -/
theorem symbol_splice {buf chunk : List Byte} {m n : ℕ} (hbuf : buf.length = 512 * n)
    (hm : m < n) (hchunk : chunk.length = 512) (m' p : ℕ) :
    symbol (buf.take (512 * m) ++ chunk ++ buf.drop (512 * m + 512)) m' p =
      if m' = m then symbolAt chunk p else symbol buf m' p := by
  have hoff : 512 * m + 512 ≤ buf.length := by omega
  have chunkEq : ((buf.take (512 * m) ++ chunk ++ buf.drop (512 * m + 512)).drop
      (512 * m')).take 512 = if m' = m then chunk else (buf.drop (512 * m')).take 512 := by
    refine List.ext_getElem? fun o => ?_
    rw [List.getElem?_take, List.getElem?_drop, getElem?_splice hoff hchunk]
    by_cases hsame : m' = m
    · subst hsame
      rw [if_pos rfl]
      by_cases ho : o < 512
      · rw [if_pos ho, if_pos (by omega), Nat.add_sub_cancel_left]
      · rw [if_neg ho, List.getElem?_eq_none (by omega)]
    · rw [if_neg hsame, List.getElem?_take, List.getElem?_drop]
      by_cases ho : o < 512
      · rw [if_pos ho, if_pos ho, if_neg (by omega)]
      · rw [if_neg ho, if_neg ho]
  rw [symbol, chunkEq]
  split <;> rfl

/-- **What a kernel does.**  On chunks inside their buffers `ec_gf_muladd[c]` does
not fail, and it changes the elements of the one output chunk only. -/
theorem ecGfMuladd_spec {c n n' m m' : ℕ} {out inp : List Byte} (hc : c < 256)
    (hout : out.length = 512 * n) (hm : m < n) (hinp : 512 * n' ≤ inp.length)
    (hm' : m' < n') :
    ∃ out', ecGfMuladd c out (512 * m) inp (512 * m') = some out' ∧
      out'.length = 512 * n ∧
      ∀ r, ∀ p < 512, symbol out' r p =
        if r = m then ⟨BitVec.ofNat 8 c⟩ * symbol out m p + symbol inp m' p
        else symbol out r p := by
  have size : ecMethodChunkSize = 512 := rfl
  have hbyte : c < ecGfSize := hc
  refine ⟨out.take (512 * m) ++ chunkOf (fun p => ⟨BitVec.ofNat 8 c⟩ * symbol out m p
    + symbol inp m' p) ++ out.drop (512 * m + 512), ?_, ?_, fun r p hp => ?_⟩
  · rw [ecGfMuladd, if_pos hbyte, loadChunk, loadChunk, if_pos (by omega),
      if_pos (by omega), Option.bind_eq_bind, Option.bind_some, Option.bind_some,
      storeChunk, if_pos (by omega)]
    rfl
  · rw [List.length_append, List.length_append, List.length_take, List.length_drop,
      length_chunkOf]
    omega
  · rw [symbol_splice hout hm (length_chunkOf _), symbolAt_chunkOf _ hp]

end GlusterFS.Ec
