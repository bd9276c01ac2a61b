import GlusterFS.Ec.Decode
import GlusterFS.Ec.Fragment

/-!
# Decoding a range of a file

The bricks of a disperse volume are read in whole chunks, from the same chunk on every brick, and
`ec_method_decode` turns what they answer into whole stripes of the file.  The module states this
for **any** range of stripes and any bricks:

* `ecAdjustOffset` and `ecAdjustSize` round a request of the user to whole stripes and scale it to
  the fragment files;
* `readBytes` is what a reader of the file should see, and `brickBytes` what a brick holds there;
* `ecMethodDecode_range` says that decoding blocks which **start** with those bytes of the bricks
  gives the bytes of the file.  The blocks may be longer than what is decoded.
-/

namespace GlusterFS.Ec

open Striped

/-! ## Rounding to whole stripes -/

/-- `ec->stripe_size`. -/
def Geometry.stripeSize (g : Geometry) : ℕ := ecMethodChunkSize * g.fragments

/-- `ec_adjust_offset` with `scale`: the offset in the fragment files and the head. -/
def ecAdjustOffset (g : Geometry) (offset : ℕ) : ℕ × ℕ :=
  let head := offset % g.stripeSize
  ((offset - head) / g.fragments, head)

/-- `ec_adjust_size` with `scale`; the size is a `uint64_t`. -/
def ecAdjustSize (g : Geometry) (size : ℕ) : ℕ :=
  let size := (size + (g.stripeSize - 1)) % 2 ^ 64
  (size - size % g.stripeSize) / g.fragments

variable {g : Geometry}

theorem Geometry.fragments_pos (g : Geometry) : 0 < g.fragments := Nat.zero_lt_of_lt g.two_le

theorem Geometry.stripeSize_eq (g : Geometry) : g.stripeSize = 512 * g.fragments := rfl

theorem Geometry.stripeSize_pos (g : Geometry) : 0 < g.stripeSize :=
  Nat.mul_pos (by decide) g.fragments_pos

theorem Geometry.stripeSize_le (g : Geometry) : g.stripeSize ≤ 8192 :=
  Nat.mul_le_mul_left 512 g.le_max

theorem scaled_stripes (g : Geometry) (n : ℕ) : g.stripeSize * n / g.fragments = 512 * n := by
  rw [g.stripeSize_eq, mul_comm 512, mul_assoc, Nat.mul_div_cancel_left _ g.fragments_pos]

theorem ecAdjustOffset_eq (g : Geometry) (offset : ℕ) :
    ecAdjustOffset g offset = (512 * (offset / g.stripeSize), offset % g.stripeSize) := by
  have haligned : offset - offset % g.stripeSize = g.stripeSize * (offset / g.stripeSize) := by
    have := Nat.div_add_mod offset g.stripeSize
    omega
  simp only [ecAdjustOffset, haligned, scaled_stripes]

theorem ecAdjustSize_eq (g : Geometry) (size : ℕ) :
    ecAdjustSize g size = 512 * ((size + (g.stripeSize - 1)) % 2 ^ 64 / g.stripeSize) := by
  have haligned : ∀ n, n - n % g.stripeSize = g.stripeSize * (n / g.stripeSize) := by
    intro n
    have := Nat.div_add_mod n g.stripeSize
    omega
  simp only [ecAdjustSize, haligned, scaled_stripes]

/-! ## Bytes of the file and of the bricks -/

/-- The `n` bytes of a file from an offset on, zeros after its end. -/
def readBytes (f : File Byte) (offset n : ℕ) : List Byte :=
  (List.range n).map fun i => f.byte (offset + i)

/-- What the fragment file of a brick holds from an offset on. -/
def brickBytes (g : Geometry) (f : File Byte) (row offset size : ℕ) : List Byte :=
  ((fragmentBytes g row f).drop offset).take size

@[simp]
theorem length_readBytes (f : File Byte) (offset n : ℕ) : (readBytes f offset n).length = n := by
  rw [readBytes, List.length_map, List.length_range]

theorem take_drop_map_range (F : ℕ → Byte) (n a b : ℕ) :
    (((List.range n).map F).drop a).take b
      = (List.range (min b (n - a))).map fun i => F (a + i) := by
  refine List.ext_getElem (by simp) fun i hi hi' => ?_
  simp

theorem take_drop_readBytes (f : File Byte) (offset n a b : ℕ) :
    ((readBytes f offset n).drop a).take b = readBytes f (offset + a) (min b (n - a)) := by
  rw [readBytes, take_drop_map_range, readBytes]
  exact List.map_congr_left fun i _ => by rw [add_assoc]

@[simp]
theorem length_fragmentBytes (row : ℕ) (f : File Byte) :
    (fragmentBytes g row f).length = 512 * (ecCode g).stripes f.size := by
  rw [fragmentBytes, List.length_map, List.length_range]

theorem length_brickBytes (f : File Byte) (row s S : ℕ) :
    (brickBytes g f row (512 * s) (512 * S)).length
      = 512 * min S ((ecCode g).stripes f.size - s) := by
  rw [brickBytes, List.length_take, List.length_drop, length_fragmentBytes]
  omega

/-- The padded file, cut at stripes. -/
theorem take_drop_paddedBytes {f : File Byte} {s S : ℕ}
    (hend : s + S ≤ (ecCode g).stripes f.size) :
    ((paddedBytes g f).drop (512 * (g.fragments * s))).take (512 * (g.fragments * S))
      = readBytes f (g.stripeSize * s) (g.stripeSize * S) := by
  have hroom : g.fragments * s + g.fragments * S ≤ g.fragments * (ecCode g).stripes f.size := by
    rw [← mul_add]
    exact Nat.mul_le_mul_left _ hend
  rw [paddedBytes, take_drop_map_range, g.stripeSize_eq, mul_assoc, mul_assoc, readBytes,
    min_eq_left (by omega)]

/-! ## Decoding -/

/-- A chunk of a part of a buffer. -/
theorem symbol_take_drop {a n m : ℕ} (buf : List Byte) (hm : m < n) (p : ℕ) :
    symbol ((buf.drop (512 * a)).take (512 * n)) m p = symbol buf (a + m) p := by
  have hplace : 512 * a + 512 * m = 512 * (a + m) := by ring
  rw [symbol, symbol, List.drop_take, List.take_take, List.drop_drop, hplace,
    min_eq_left (by omega)]

theorem symbol_take {n m : ℕ} (buf : List Byte) (hm : m < n) (p : ℕ) :
    symbol (buf.take (512 * n)) m p = symbol buf m p := by
  have h := symbol_take_drop (a := 0) buf hm p
  rwa [mul_zero, List.drop_zero, zero_add] at h

/-- A chunk of a brick is the encoding of a stripe of the padded file. -/
theorem symbol_fragmentBytes_eq_horner {f : File Byte} {row s p : ℕ} (hrow : row < g.nodes)
    (hs : s < (ecCode g).stripes f.size) (hp : p < 512) :
    symbol (fragmentBytes g row f) s p
      = horner ⟨BitVec.ofNat 8 (row + 1)⟩ (paddedBytes g f) g.fragments s g.fragments p := by
  rw [symbol_fragmentBytes hrow hs, (encodedStripe_spec hrow _).2 p hp, horner, horner]
  refine Finset.sum_congr rfl fun c hc => ?_
  rw [symbol_paddedBytes hs (Finset.mem_range.mp hc)]

/-- The stripes `s, …, s + S - 1` of the padded file. -/
def stripesBytes (g : Geometry) (f : File Byte) (s S : ℕ) : List Byte :=
  ((paddedBytes g f).drop (512 * (g.fragments * s))).take (512 * (g.fragments * S))

/-- A chunk of a brick in a range is the encoding of a stripe of that range. -/
theorem symbol_brickBytes {f : File Byte} {row s S j p : ℕ} (hrow : row < g.nodes)
    (hend : s + S ≤ (ecCode g).stripes f.size) (hj : j < S) (hp : p < 512) :
    symbol (brickBytes g f row (512 * s) (512 * S)) j p
      = horner ⟨BitVec.ofNat 8 (row + 1)⟩ (stripesBytes g f s S) g.fragments j g.fragments p := by
  rw [brickBytes, symbol_take_drop _ hj, symbol_fragmentBytes_eq_horner hrow (by omega) hp, horner,
    horner]
  refine Finset.sum_congr rfl fun d hd => ?_
  have hplace : g.fragments * (s + j) + d = g.fragments * s + (g.fragments * j + d) := by ring
  rw [hplace, stripesBytes, symbol_take_drop _ (stripe_lt hj (Finset.mem_range.mp hd))]

/-- **Decoding a range.**  From blocks that start with the chunks `s, …, s + S - 1` of their
bricks, `ec_method_decode` computes the stripes `s, …, s + S - 1` of the file. -/
theorem ecMethodDecode_range {t : GfTables} (ht : t.Sound) {rows : List ℕ}
    (hrows : ValidRows g.fragments rows) (hnodes : ∀ row ∈ rows, row < g.nodes) {f : File Byte}
    {s S : ℕ} (hS : S ≤ 2 ^ 23) (hend : s + S ≤ (ecCode g).stripes f.size)
    {blocks : List (List Byte)} (hblocks : blocks.length = g.fragments)
    (hblock : ∀ c < g.fragments, (blocks.getD c []).take (512 * S)
      = brickBytes g f (rows.getD c 0) (512 * s) (512 * S))
    {out : List Byte} (hout : out.length = g.stripeSize * S) :
    ecMethodDecode t (S + 1) (512 * S) g.fragments rows blocks out
      = some (g.stripeSize * S, readBytes f (g.stripeSize * s) (g.stripeSize * S)) := by
  have hlong : ∀ block ∈ blocks, 512 * S ≤ block.length := by
    intro block hmem
    obtain ⟨c, hc, rfl⟩ := List.mem_iff_getElem.mp hmem
    have hlength := congrArg List.length (hblock c (hblocks ▸ hc))
    rw [List.length_take, length_brickBytes, List.getD_eq_getElem _ _ hc] at hlength
    omega
  have hsize : g.stripeSize * S = 512 * (g.fragments * S) := by rw [g.stripeSize_eq, mul_assoc]
  have hchunks : S < 2 ^ 32 := lt_of_le_of_lt hS (by norm_num)
  obtain ⟨out', hout', symbols, run⟩ :=
    ecMethodDecode_spec ht hrows hblocks hchunks hlong (hout.trans hsize)
  have hdecoded : out' = readBytes f (g.stripeSize * s) (g.stripeSize * S) := by
    refine buffer_ext hout' ((length_readBytes _ _ _).trans hsize) fun m hm p hp => ?_
    -- chunk `m` is chunk `i` of stripe `j`, where the offset into the blocks has not wrapped
    obtain ⟨j, i, hi, rfl⟩ : ∃ j i, i < g.fragments ∧ m = g.fragments * j + i :=
      ⟨m / g.fragments, m % g.fragments, Nat.mod_lt m g.fragments_pos,
        (Nat.div_add_mod m g.fragments).symm⟩
    have hj : j < S := Nat.lt_of_mul_lt_mul_left ((Nat.le_add_right _ i).trans_lt hm)
    have hwrap : j % 2 ^ 23 = j := Nat.mod_eq_of_lt (hj.trans_le hS)
    rw [symbols j hj i hi p hp, hwrap, ← take_drop_paddedBytes hend]
    refine partialSum_horner hrows hi fun c hc => ?_
    have hrow : rows.getD c 0 < g.nodes := hnodes _ (List.mem_of_getElem? (hrows.getElem?_eq hc))
    rw [← symbol_take _ hj, hblock c hc, symbol_brickBytes hrow hend hj hp]
    rfl
  rw [mul_comm 512 S, run, if_pos (Nat.lt_succ_self S), hdecoded, mul_assoc, hsize]
  congr 2
  ring

end GlusterFS.Ec
