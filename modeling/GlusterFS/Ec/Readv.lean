import GlusterFS.Ec.Range

/-!
# Reading from a disperse volume

`ec_readv` rounds the request to whole stripes, reads the same range of every chosen fragment file,
decodes the answers and cuts off what the user has not asked for (`ec_readv_rebuild`).  The lengths
are computed in `size_t`, the results of the bricks and of the volume are `int32_t`.

For a file whose bricks hold the encoding of its bytes, `ReadsExactly` says that the user gets the
bytes of the file between `offset` and `min (offset + size) size_of_file`, and
`ecReadv_exact_iff` says for **every** request when this is so (`Readable`).  There are four ways to
miss it:

* the read starts **behind the end of the file but inside its last stripe**.  The length
  `max -= fop->offset * ec->fragments + fop->head` is then negative, becomes a huge `size_t`, and
  the user gets the zeros that fill up the stripe;
* nothing is asked for at the start of a stripe.  The bricks refuse a read of no bytes;
* there are `2 GiB` or more to return, which `op_ret` cannot hold;
* `size` is so close to `2 ^ 64` that rounding it up wraps.
-/

namespace GlusterFS.Ec

open Striped

/-! ## The model -/

/-- A difference of two `size_t`. -/
def sub64 (a b : ℕ) : ℕ := (a + (2 ^ 64 - b)) % 2 ^ 64

/-- A length stored in an `int32_t`. -/
def int32Of (n : ℕ) : ℤ := ((n + 2147483648) % 4294967296 : ℕ) - 2147483648

/-- `op_ret` and the bytes of `vector`. -/
@[ext]
structure ReadAnswer where
  opRet : ℤ
  vector : List Byte
  deriving DecidableEq

/-- `posix_readv` on a fragment file. -/
def posixReadv (fragment : List Byte) (size offset : ℕ) : ReadAnswer :=
  if size = 0 then ⟨-1, []⟩
  else
    let data := (fragment.drop offset).take size
    let opRet := int32Of data.length
    ⟨opRet, data.take opRet.toNat⟩

/-- `ec_readv_cbk`: an answer has whole chunks. -/
def ecReadvCbk (a : ReadAnswer) : ReadAnswer :=
  if 0 < a.opRet ∧ a.opRet % ecMethodChunkSize ≠ 0 then { a with opRet := -1 } else a

/-- The request of the user, as `EC_STATE_INIT` leaves it, and `fop->pre_size`. -/
structure ReadFop where
  offset : ℕ
  head : ℕ
  userSize : ℕ
  preSize : ℕ

/-- The length that `ec_readv_rebuild` gives to `vector[0]`, and `size` as it returns it.  `size`
bytes have been decoded. -/
def readLength (g : Geometry) (fop : ReadFop) (size : ℕ) : ℕ × ℕ :=
  let iovLen := sub64 size fop.head
  let max := min (fop.offset * g.fragments + size) fop.preSize
  let max := min (sub64 max (fop.offset * g.fragments + fop.head)) fop.userSize
  let rest := sub64 size fop.head
  if max < rest then (sub64 iovLen (sub64 rest max), max) else (iovLen, rest)

/-- `ec_readv_rebuild` for the agreeing answers `answers` of the bricks `rows`, of which `fsize` is
the common `op_ret`.  The new `iobuf` holds `junk`.  The loop over the chunks ends after
`fsize / EC_METHOD_CHUNK_SIZE` turns. -/
def ecReadvRebuild (g : Geometry) (t : GfTables) (junk : ℕ → Byte) (fop : ReadFop) (fsize : ℕ)
    (rows : List ℕ) (answers : List ReadAnswer) : Option ReadAnswer :=
  if fsize = 0 then some ⟨0, []⟩
  else do
    let size := fsize * g.fragments
    let (size, out) ← ecMethodDecode t (fsize / ecMethodChunkSize + 1) fsize g.fragments rows
      (answers.map fun a => a.vector.take fsize) ((List.range size).map junk)
    let (iovLen, size) := readLength g fop size
    some ⟨int32Of size, (out.drop fop.head).take iovLen⟩

/-- `ec_readv` when the bricks `rows` answer; `none` is an answer with `op_ret = -1`.  The fragments
are what the bricks hold at that moment, and `preSize` is the size that the request has found: that
of the file, or for a read in front of a write the one of the write. -/
def ecReadvFrom (g : Geometry) (t : GfTables) (junk : ℕ → Byte) (rows : List ℕ)
    (fragments : ℕ → List Byte) (preSize offset size : ℕ) : Option ReadAnswer := do
  let (brickOffset, head) := ecAdjustOffset g offset
  let brickSize := ecAdjustSize g ((size + head) % 2 ^ 64)
  let answers := rows.map fun row =>
    ecReadvCbk (posixReadv (fragments row) brickSize brickOffset)
  let cbk ← answers.head?
  if cbk.opRet < 0 then none
  else ecReadvRebuild g t junk ⟨brickOffset, head, size, preSize⟩ cbk.opRet.toNat rows answers

/-- `ec_readv` on a file that all bricks hold. -/
def ecReadv (g : Geometry) (t : GfTables) (junk : ℕ → Byte) (rows : List ℕ) (f : File Byte)
    (offset size : ℕ) : Option ReadAnswer :=
  ecReadvFrom g t junk rows (fun row => fragmentBytes g row f) f.size offset size

/-- **The user gets exactly the bytes of the file.** -/
def ReadsExactly (g : Geometry) (t : GfTables) (junk : ℕ → Byte) (rows : List ℕ) (f : File Byte)
    (offset size : ℕ) : Prop :=
  let n := min size (f.size - offset)
  ecReadv g t junk rows f offset size = some ⟨n, readBytes f offset n⟩

/-- The requests that are answered right, for a file of `fileSize` bytes. -/
structure Readable (g : Geometry) (fileSize offset size : ℕ) : Prop where
  /-- A read of nothing does not start at a stripe. -/
  nonempty : size = 0 → ¬ g.stripeSize ∣ offset
  /-- A read of something does not start behind the end in the last stripe. -/
  inside : fileSize < offset → size = 0 ∨ g.stripeSize * (ecCode g).stripes fileSize ≤ offset
  /-- The answer fits into `op_ret`. -/
  short : min size (fileSize - offset) < 2 ^ 31
  /-- Where rounding up wraps, one stripe is left and the file ends in it. -/
  wraps : 2 ^ 64 ≤ size + offset % g.stripeSize + (g.stripeSize - 1) →
    2 ^ 64 + g.stripeSize ≤ size + offset % g.stripeSize + (g.stripeSize - 1) ∧
      fileSize ≤ g.stripeSize * (offset / g.stripeSize) + g.stripeSize

variable {g : Geometry} {t : GfTables} {junk : ℕ → Byte} {rows : List ℕ} {f : File Byte}

/-! ## Machine numbers -/

theorem sub64_of_le {a b : ℕ} (h : b ≤ a) (ha : a < 2 ^ 64) : sub64 a b = a - b := by
  rw [sub64]
  omega

theorem sub64_of_lt {a b : ℕ} (h : a < b) (hb : b < 2 ^ 64) : sub64 a b = a + (2 ^ 64 - b) := by
  rw [sub64]
  omega

theorem int32Of_lt (n : ℕ) : int32Of n < 2 ^ 31 := by
  rw [int32Of]
  omega

theorem int32Of_eq {n : ℕ} (h : n < 2 ^ 31) : int32Of n = n := by
  rw [int32Of]
  omega

/-! ## The answers of the bricks -/

/-- The stripes asked for: what rounding up `size + head` leaves of them. -/
def askedStripes (g : Geometry) (offset size : ℕ) : ℕ :=
  (size + offset % g.stripeSize + (g.stripeSize - 1)) % 2 ^ 64 / g.stripeSize

/-- The stripes that the bricks answer. -/
def answeredStripes (g : Geometry) (fileSize offset size : ℕ) : ℕ :=
  min (askedStripes g offset size) ((ecCode g).stripes fileSize - offset / g.stripeSize)

theorem brickSize_eq (g : Geometry) (offset size : ℕ) :
    ecAdjustSize g ((size + offset % g.stripeSize) % 2 ^ 64)
      = 512 * askedStripes g offset size := by
  rw [ecAdjustSize_eq, Nat.mod_add_mod, askedStripes]

/-- **What a brick answers**: its bytes, when they are less than `2 GiB`. -/
theorem ecReadvCbk_posixReadv (f : File Byte) (row : ℕ) {s R S : ℕ} (hR : R ≠ 0)
    (hS : S = min R ((ecCode g).stripes f.size - s)) (hsmall : S < 2 ^ 22) :
    ecReadvCbk (posixReadv (fragmentBytes g row f) (512 * R) (512 * s))
      = ⟨(512 * S : ℕ), brickBytes g f row (512 * s) (512 * R)⟩ := by
  have hlength : (brickBytes g f row (512 * s) (512 * R)).length = 512 * S := by
    rw [length_brickBytes, hS]
  have hopRet : int32Of (512 * S) = (512 * S : ℕ) := int32Of_eq (by omega)
  have hanswer : posixReadv (fragmentBytes g row f) (512 * R) (512 * s)
      = ⟨(512 * S : ℕ), brickBytes g f row (512 * s) (512 * R)⟩ := by
    rw [posixReadv, if_neg (by omega)]
    change (⟨int32Of (brickBytes g f row (512 * s) (512 * R)).length,
      (brickBytes g f row (512 * s) (512 * R)).take
        (int32Of (brickBytes g f row (512 * s) (512 * R)).length).toNat⟩ : ReadAnswer) = _
    rw [hlength, hopRet, Int.toNat_natCast, List.take_of_length_le hlength.le]
  have hwhole : ¬ (0 < ((512 * S : ℕ) : ℤ) ∧ ((512 * S : ℕ) : ℤ) % ecMethodChunkSize ≠ 0) := by
    rintro ⟨-, hrest⟩
    refine hrest ?_
    change ((512 * S : ℕ) : ℤ) % 512 = 0
    omega
  rw [hanswer, ecReadvCbk, if_neg hwhole]

/-! ## The answer of the volume -/

theorem ValidRows.head?_map {k : ℕ} {α : Type} (hrows : ValidRows k rows) (F : ℕ → α) :
    ∃ row, (rows.map F).head? = some (F row) := by
  have hpos := hrows.pos
  have hlength := hrows.length
  cases rows with
  | nil =>
      rw [List.length_nil] at hlength
      omega
  | cons row rest => exact ⟨row, rfl⟩

theorem ecReadvFrom_eq (g : Geometry) (t : GfTables) (junk : ℕ → Byte) (rows : List ℕ)
    (f : File Byte) (preSize offset size : ℕ) :
    ecReadvFrom g t junk rows (fun row => fragmentBytes g row f) preSize offset size
      = ((rows.map fun row => ecReadvCbk (posixReadv (fragmentBytes g row f)
          (512 * askedStripes g offset size) (512 * (offset / g.stripeSize)))).head?).bind
        fun cbk => if cbk.opRet < 0 then none else
          ecReadvRebuild g t junk
            ⟨512 * (offset / g.stripeSize), offset % g.stripeSize, size, preSize⟩
            cbk.opRet.toNat rows (rows.map fun row => ecReadvCbk (posixReadv (fragmentBytes g row f)
              (512 * askedStripes g offset size) (512 * (offset / g.stripeSize)))) := by
  simp only [ecReadvFrom, ecAdjustOffset_eq, brickSize_eq]
  rfl

/-- Bricks that are asked for nothing refuse. -/
theorem ecReadv_of_asked_eq_zero (hrows : ValidRows g.fragments rows) {offset size : ℕ}
    (h : askedStripes g offset size = 0) : ecReadv g t junk rows f offset size = none := by
  rw [ecReadv, ecReadvFrom_eq, h, mul_zero]
  obtain ⟨row, hhead⟩ := hrows.head?_map fun row =>
    ecReadvCbk (posixReadv (fragmentBytes g row f) 0 (512 * (offset / g.stripeSize)))
  rw [hhead]
  rfl

/-- `op_ret` is an `int32_t`. -/
theorem ecReadv_opRet_lt {offset size : ℕ} {a : ReadAnswer}
    (h : ecReadv g t junk rows f offset size = some a) : a.opRet < 2 ^ 31 := by
  rw [ecReadv, ecReadvFrom_eq] at h
  obtain ⟨cbk, -, hcbk⟩ := Option.bind_eq_some_iff.mp h
  by_cases hfailed : cbk.opRet < 0
  · rw [if_pos hfailed] at hcbk
    cases hcbk
  · rw [if_neg hfailed, ecReadvRebuild] at hcbk
    by_cases hnothing : cbk.opRet.toNat = 0
    · rw [if_pos hnothing] at hcbk
      rw [← Option.some.inj hcbk]
      norm_num
    · rw [if_neg hnothing] at hcbk
      obtain ⟨decoded, -, hdecoded⟩ := Option.bind_eq_some_iff.mp hcbk
      rw [← Option.some.inj hdecoded]
      exact int32Of_lt _

/-- **The answer, when the bricks answer less than `2 GiB`.** -/
theorem ecReadvFrom_of_answered (ht : t.Sound) (hrows : ValidRows g.fragments rows)
    (hnodes : ∀ row ∈ rows, row < g.nodes) {preSize offset size S : ℕ}
    (hasked : askedStripes g offset size ≠ 0) (hS : S = answeredStripes g f.size offset size)
    (hsmall : S < 2 ^ 22) :
    ecReadvFrom g t junk rows (fun row => fragmentBytes g row f) preSize offset size
        = some (if S = 0 then ⟨0, []⟩ else
      let len := readLength g ⟨512 * (offset / g.stripeSize), offset % g.stripeSize, size, preSize⟩
        (g.stripeSize * S)
      ⟨int32Of len.2, readBytes f offset
        (min len.1 (g.stripeSize * S - offset % g.stripeSize))⟩) := by
  have hanswers : (rows.map fun row => ecReadvCbk (posixReadv (fragmentBytes g row f)
        (512 * askedStripes g offset size) (512 * (offset / g.stripeSize))))
      = rows.map fun row => ⟨(512 * S : ℕ), brickBytes g f row (512 * (offset / g.stripeSize))
          (512 * askedStripes g offset size)⟩ :=
    List.map_congr_left fun row _ => ecReadvCbk_posixReadv f row hasked hS hsmall
  rw [ecReadvFrom_eq, hanswers]
  obtain ⟨row, hhead⟩ := hrows.head?_map fun row => (⟨(512 * S : ℕ), brickBytes g f row
    (512 * (offset / g.stripeSize)) (512 * askedStripes g offset size)⟩ : ReadAnswer)
  rw [hhead, Option.bind_some, if_neg (Int.natCast_nonneg (512 * S)).not_gt, Int.toNat_natCast,
    ecReadvRebuild]
  by_cases hzero : S = 0
  · rw [if_pos (by omega), if_pos hzero]
  · rw [if_neg (by omega), if_neg hzero]
    have hturns : 512 * S / ecMethodChunkSize = S := Nat.mul_div_cancel_left S (by decide)
    have hend : offset / g.stripeSize + S ≤ (ecCode g).stripes f.size := by
      rw [hS, answeredStripes] at hzero ⊢
      omega
    have hsize : 512 * S * g.fragments = g.stripeSize * S := by
      rw [g.stripeSize_eq]
      ring
    have hblock : ∀ c < g.fragments, ((((rows.map fun row => (⟨(512 * S : ℕ), brickBytes g f row
        (512 * (offset / g.stripeSize)) (512 * askedStripes g offset size)⟩ : ReadAnswer)).map
          fun a => a.vector.take (512 * S)).getD c []).take (512 * S))
        = brickBytes g f (rows.getD c 0) (512 * (offset / g.stripeSize)) (512 * S) := by
      intro c hc
      have hasked : 512 * S ≤ 512 * askedStripes g offset size := by
        rw [hS, answeredStripes]
        omega
      rw [List.map_map, List.getD_eq_getElem?_getD, List.getElem?_map, hrows.getElem?_eq hc]
      change (List.take (512 * S) (List.take (512 * S) (brickBytes g f (rows.getD c 0) _ _))) = _
      rw [List.take_take, min_self, brickBytes, List.take_take, min_eq_left hasked, brickBytes]
    have hdecode := ecMethodDecode_range ht hrows hnodes (by omega) hend
      (by rw [List.length_map, List.length_map, hrows.length]) hblock
      (show ((List.range (512 * S * g.fragments)).map junk).length = g.stripeSize * S by
        rw [List.length_map, List.length_range, hsize])
    simp only [hturns, hdecode, Option.bind_eq_bind, Option.bind_some, take_drop_readBytes,
      Nat.div_add_mod]

theorem ecReadv_of_answered (ht : t.Sound) (hrows : ValidRows g.fragments rows)
    (hnodes : ∀ row ∈ rows, row < g.nodes) {offset size S : ℕ}
    (hasked : askedStripes g offset size ≠ 0) (hS : S = answeredStripes g f.size offset size)
    (hsmall : S < 2 ^ 22) :
    ecReadv g t junk rows f offset size = some (if S = 0 then ⟨0, []⟩ else
      let len := readLength g ⟨512 * (offset / g.stripeSize), offset % g.stripeSize, size, f.size⟩
        (g.stripeSize * S)
      ⟨int32Of len.2, readBytes f offset
        (min len.1 (g.stripeSize * S - offset % g.stripeSize))⟩) :=
  ecReadvFrom_of_answered ht hrows hnodes hasked hS hsmall

/-! ## The lengths -/

/-- **A read that starts in the file**, or at its end, is cut at the end of the file and at the
size asked for. -/
theorem readLength_of_le {fop : ReadFop} {start T : ℕ} (hscale : fop.offset * g.fragments = start)
    (hhead : fop.head < T) (hbound : start + T < 2 ^ 64) (hstart : start + fop.head ≤ fop.preSize) :
    readLength g fop T = (min (min T (fop.preSize - start) - fop.head) fop.userSize,
      min (min T (fop.preSize - start) - fop.head) fop.userSize) := by
  have hrest : sub64 T fop.head = T - fop.head := sub64_of_le hhead.le (by omega)
  have hmax : sub64 (min (start + T) fop.preSize) (start + fop.head)
      = min T (fop.preSize - start) - fop.head := by
    rw [sub64_of_le (by omega) (by omega)]
    omega
  rw [readLength, hscale, hrest, hmax]
  by_cases hcut : min (min T (fop.preSize - start) - fop.head) fop.userSize < T - fop.head
  · simp only [if_pos hcut, sub64_of_le hcut.le (by omega : T - fop.head < 2 ^ 64)]
    rw [sub64_of_le (by omega) (by omega)]
    refine Prod.ext ?_ rfl
    dsimp only
    omega
  · simp only [if_neg hcut]
    refine Prod.ext ?_ ?_ <;> dsimp only <;> omega

/-- **A read that starts behind the end of the file** is not cut at the end of the file. -/
theorem readLength_of_lt {fop : ReadFop} {start T : ℕ} (hscale : fop.offset * g.fragments = start)
    (hhead : fop.head < T) (hT : T < 2 ^ 62) (hbound : start + T < 2 ^ 64)
    (hstart : fop.preSize < start + fop.head) (hclose : start + fop.head < fop.preSize + 2 ^ 62) :
    readLength g fop T = (min (T - fop.head) fop.userSize, min (T - fop.head) fop.userSize) := by
  have hrest : sub64 T fop.head = T - fop.head := sub64_of_le hhead.le (by omega)
  have hmin : min (start + T) fop.preSize = fop.preSize := min_eq_right (by omega)
  rw [readLength, hscale, hrest, hmin, sub64_of_lt hstart (by omega)]
  -- the difference wraps and is larger than any buffer
  have hwraps : T - fop.head ≤ fop.preSize + (2 ^ 64 - (start + fop.head)) := by omega
  by_cases hcut : min (fop.preSize + (2 ^ 64 - (start + fop.head))) fop.userSize < T - fop.head
  · simp only [if_pos hcut, sub64_of_le hcut.le (by omega : T - fop.head < 2 ^ 64)]
    rw [sub64_of_le (by omega) (by omega)]
    refine Prod.ext ?_ ?_ <;> dsimp only <;> omega
  · simp only [if_neg hcut]
    refine Prod.ext ?_ ?_ <;> dsimp only <;> omega

/-! ## When the user gets the bytes -/

/-- A request in stripes: it starts `head` bytes into the stripe at `start`, `asked` bytes are asked
for from there on, and the file is filled up to `padded` bytes. -/
structure Rounded (stripe fileSize offset size start head asked padded : ℕ) : Prop where
  start_add : start + head = offset
  head_lt : head < stripe
  asked_le : asked ≤ (size + head + (stripe - 1)) % 2 ^ 64
  lt_asked : (size + head + (stripe - 1)) % 2 ^ 64 < asked + stripe
  le_padded : fileSize ≤ padded
  padded_lt : padded < fileSize + stripe
  /-- The three are multiples of the stripe. -/
  start_lt : start < padded → start + stripe ≤ padded
  asked_pos : 0 < asked → stripe ≤ asked
  asked_small : asked < 2 * stripe → asked ≤ stripe
  padded_small : padded < start + 2 * stripe → padded ≤ start + stripe

theorem mul_lt_mul_add {c n m k : ℕ} (h : c * n < c * m + k * c) : n < m + k := by
  refine Nat.lt_of_mul_lt_mul_left (a := c) ?_
  rwa [mul_add, mul_comm c k]

theorem rounded (g : Geometry) (fileSize offset size : ℕ) :
    Rounded g.stripeSize fileSize offset size (g.stripeSize * (offset / g.stripeSize))
      (offset % g.stripeSize) (g.stripeSize * askedStripes g offset size)
      (g.stripeSize * (ecCode g).stripes fileSize) where
  start_add := Nat.div_add_mod _ _
  head_lt := Nat.mod_lt _ g.stripeSize_pos
  asked_le := Nat.mul_div_le _ _
  lt_asked := by
    rw [askedStripes, ← Nat.mul_succ]
    exact Nat.lt_mul_div_succ _ g.stripeSize_pos
  le_padded := (ecCode g).le_stripe_mul_stripes fileSize
  padded_lt := by
    have hpos := g.stripeSize_pos
    rcases Nat.eq_zero_or_pos ((ecCode g).stripes fileSize) with hzero | hsome
    · rw [hzero]
      omega
    · have hlast : g.stripeSize * ((ecCode g).stripes fileSize - 1) < fileSize :=
        (ecCode g).lt_stripes_iff.mp (by omega)
      have hsplit : g.stripeSize * (ecCode g).stripes fileSize
          = g.stripeSize * ((ecCode g).stripes fileSize - 1) + g.stripeSize := by
        rw [← Nat.mul_succ, Nat.succ_eq_add_one, Nat.sub_add_cancel hsome]
      omega
  start_lt h := by
    rw [← Nat.mul_succ]
    exact Nat.mul_le_mul_left _ (Nat.lt_of_mul_lt_mul_left h)
  asked_pos h := Nat.le_mul_of_pos_right _ (Nat.pos_of_mul_pos_left h)
  asked_small h := by
    have hone : askedStripes g offset size < 0 + 2 :=
      mul_lt_mul_add (c := g.stripeSize) (by rw [mul_zero, zero_add]; exact h)
    calc g.stripeSize * askedStripes g offset size ≤ g.stripeSize * 1 :=
          Nat.mul_le_mul_left _ (by omega)
      _ = g.stripeSize := mul_one _
  padded_small h := by
    have hone := mul_lt_mul_add h
    rw [← Nat.mul_succ]
    exact Nat.mul_le_mul_left _ (by omega)

/-- What is answered, in bytes. -/
theorem stripeSize_mul_answered (g : Geometry) (fileSize offset size : ℕ) :
    g.stripeSize * answeredStripes g fileSize offset size
      = min (g.stripeSize * askedStripes g offset size)
        (g.stripeSize * (ecCode g).stripes fileSize
          - g.stripeSize * (offset / g.stripeSize)) := by
  rw [answeredStripes, ← Nat.mul_sub, Nat.mul_min_mul_left]

/-- A request of which nothing reaches the bricks is not `Readable`. -/
theorem Readable.asked_ne_zero {fileSize offset size : ℕ} (h : Readable g fileSize offset size)
    (hsize : size < 2 ^ 64) : askedStripes g offset size ≠ 0 := by
  intro hzero
  have hr := rounded g fileSize offset size
  rw [hzero, mul_zero] at hr
  have hlt := hr.lt_asked
  have hhead := hr.head_lt
  have hstripe := g.stripeSize_le
  by_cases hwrap : 2 ^ 64 ≤ size + offset % g.stripeSize + (g.stripeSize - 1)
  · have := (h.wraps hwrap).1
    omega
  · rw [Nat.mod_eq_of_lt (by omega)] at hlt
    exact h.nonempty (by omega) (Nat.dvd_of_mod_eq_zero (by omega))

/-- An answer of less than `2 GiB` is decoded from less than `2 GiB` of every brick. -/
theorem answeredStripes_lt {fileSize offset size : ℕ}
    (hshort : min size (fileSize - offset) < 2 ^ 31) :
    answeredStripes g fileSize offset size < 2 ^ 22 := by
  have hr := rounded g fileSize offset size
  obtain ⟨hstart, hhead, hle, -, -, hpadded, -, -, -, hsmall⟩ := hr
  have hstripe := g.stripeSize_le
  have hmod := Nat.mod_le (size + offset % g.stripeSize + (g.stripeSize - 1)) (2 ^ 64)
  have hbytes := stripeSize_mul_answered g fileSize offset size
  have htotal : g.stripeSize * answeredStripes g fileSize offset size < 2 ^ 32 := by
    rw [hbytes]
    omega
  have hlarge : 1024 ≤ g.stripeSize := by
    rw [g.stripeSize_eq]
    have := g.two_le
    omega
  have := Nat.mul_le_mul_right (answeredStripes g fileSize offset size) hlarge
  omega

/-- An answer of the right length is the right answer. -/
theorem answer_eq_iff {offset len room n : ℕ} (hn : n < 2 ^ 31) (hroom : len ≤ room) :
    (some (⟨int32Of len, readBytes f offset (min len room)⟩ : ReadAnswer)
      = some ⟨n, readBytes f offset n⟩) ↔ len = n := by
  rw [min_eq_left hroom]
  constructor
  · intro h
    have hvector := congrArg ReadAnswer.vector (Option.some.inj h)
    simpa using congrArg List.length hvector
  · rintro rfl
    rw [int32Of_eq hn]

/-- `Readable`, for a request of which something reaches the bricks. -/
theorem readable_iff {fileSize offset size : ℕ}
    (hasked : askedStripes g offset size ≠ 0)
    (hshort : min size (fileSize - offset) < 2 ^ 31) :
    Readable g fileSize offset size ↔
      (fileSize < offset → size = 0 ∨ g.stripeSize * (ecCode g).stripes fileSize ≤ offset) ∧
        (2 ^ 64 ≤ size + offset % g.stripeSize + (g.stripeSize - 1) →
          fileSize ≤ g.stripeSize * (offset / g.stripeSize) + g.stripeSize) := by
  have hr := rounded g fileSize offset size
  have hone := hr.asked_pos (Nat.mul_pos g.stripeSize_pos (Nat.pos_of_ne_zero hasked))
  have hle := hr.asked_le
  have hstripe := g.stripeSize_le
  refine ⟨fun h => ⟨h.inside, fun hwrap => (h.wraps hwrap).2⟩, fun ⟨hinside, hwraps⟩ =>
    ⟨fun hzero hdvd => ?_, hinside, hshort, fun hwrap => ⟨?_, hwraps hwrap⟩⟩⟩
  · have hhead := Nat.mod_eq_zero_of_dvd hdvd
    have hnothing : size + offset % g.stripeSize + (g.stripeSize - 1) = g.stripeSize - 1 := by omega
    have hpos := g.stripeSize_pos
    rw [hnothing, Nat.mod_eq_of_lt (by omega)] at hle
    omega
  · have hhead := hr.head_lt
    omega

/-- The length of a read that starts in the file is right unless rounding up has wrapped. -/
theorem length_eq_iff_of_le {stripe fileSize offset size start head asked padded T : ℕ}
    (hr : Rounded stripe fileSize offset size start head asked padded) (hsize : size < 2 ^ 64)
    (hstripe : stripe ≤ 8192) (hasked : 0 < asked) (hfile : fileSize < 2 ^ 63)
    (hT : T = min asked (padded - start)) (hstart : offset ≤ fileSize) :
    min (min T (fileSize - start) - head) size = min size (fileSize - offset) ↔
      (2 ^ 64 ≤ size + head + (stripe - 1) → fileSize ≤ start + stripe) := by
  obtain ⟨hoffset, hhead, hle, hlt, hpadded, -, -, hone, hsmall, -⟩ := hr
  by_cases hwrap : 2 ^ 64 ≤ size + head + (stripe - 1)
  · -- one stripe is left of what was asked for
    have hmod : (size + head + (stripe - 1)) % 2 ^ 64
        = size + head + (stripe - 1) - 2 ^ 64 := by omega
    rw [hmod] at hle hlt
    have hasked₁ : asked = stripe := by omega
    omega
  · rw [Nat.mod_eq_of_lt (by omega)] at hle hlt
    omega

theorem readsExactly_iff (ht : t.Sound) (hrows : ValidRows g.fragments rows)
    (hnodes : ∀ row ∈ rows, row < g.nodes) (junk : ℕ → Byte) (f : File Byte)
    (hfile : f.size < 2 ^ 63) {offset size : ℕ} (hoffset : offset < 2 ^ 63)
    (hsize : size < 2 ^ 64) :
    ReadsExactly g t junk rows f offset size ↔ Readable g f.size offset size := by
  by_cases hasked : askedStripes g offset size = 0
  · refine iff_of_false (fun h => ?_) fun h => h.asked_ne_zero hsize hasked
    rw [ReadsExactly, ecReadv_of_asked_eq_zero hrows hasked] at h
    cases h
  by_cases hshort : min size (f.size - offset) < 2 ^ 31
  swap
  · refine iff_of_false (fun h => ?_) fun h => hshort h.short
    have := ecReadv_opRet_lt h
    dsimp only at this
    omega
  have hr := rounded g f.size offset size
  have hstripe := g.stripeSize_le
  have hsmall := answeredStripes_lt (g := g) hshort
  have hbytes := stripeSize_mul_answered g f.size offset size
  have hpositive : 0 < g.stripeSize * askedStripes g offset size :=
    Nat.mul_pos g.stripeSize_pos (Nat.pos_of_ne_zero hasked)
  rw [ReadsExactly, ecReadv_of_answered ht hrows hnodes hasked rfl hsmall,
    readable_iff hasked hshort]
  have hoff := hr.start_add
  have hhead := hr.head_lt
  have hpadded := hr.le_padded
  by_cases hnothing : answeredStripes g f.size offset size = 0
  · -- the bricks end before the stripe, and so does the file
    rw [if_pos hnothing]
    rw [hnothing, mul_zero] at hbytes
    have hnone : min size (f.size - offset) = 0 := by omega
    rw [hnone]
    exact iff_of_true rfl ⟨fun _ => Or.inr (by omega), fun _ => by omega⟩
  · rw [if_neg hnothing]
    have hscaled : 512 * (offset / g.stripeSize) * g.fragments
        = g.stripeSize * (offset / g.stripeSize) := by
      rw [g.stripeSize_eq]
      ring
    have hanswered : g.stripeSize ≤ g.stripeSize * answeredStripes g f.size offset size :=
      Nat.le_mul_of_pos_right _ (Nat.pos_of_ne_zero hnothing)
    have htotal : g.stripeSize * answeredStripes g f.size offset size < 2 ^ 36 := by
      calc g.stripeSize * answeredStripes g f.size offset size
          ≤ 8192 * answeredStripes g f.size offset size := Nat.mul_le_mul_right _ hstripe
        _ < 2 ^ 36 := by omega
    by_cases hstart : offset ≤ f.size
    · rw [readLength_of_le hscaled (hhead.trans_le hanswered) (by omega) (hoff.trans_le hstart)]
      refine (answer_eq_iff hshort (by dsimp only; omega)).trans ?_
      refine (length_eq_iff_of_le hr hsize hstripe hpositive hfile hbytes hstart).trans ?_
      exact ⟨fun h => ⟨fun hbehind => by omega, h⟩, fun h => h.2⟩
    · -- the file ends in the stripe where the read starts
      have hfill := hr.padded_lt
      have hone := hr.start_lt (by omega)
      have hlast := hr.padded_small (by omega)
      have hbehind : f.size < g.stripeSize * (offset / g.stripeSize) + offset % g.stripeSize := by
        omega
      rw [readLength_of_lt hscaled (hhead.trans_le hanswered) (by omega) (by omega) hbehind
        (show g.stripeSize * (offset / g.stripeSize) + offset % g.stripeSize < f.size + 2 ^ 62 by
          omega)]
      refine (answer_eq_iff hshort (by dsimp only; omega)).trans ?_
      dsimp only
      constructor
      · intro h
        exact ⟨fun _ => Or.inl (by omega), fun _ => by omega⟩
      · intro h
        have := h.1 (by omega)
        omega

/-- **Exactly when `ec_readv` is right.**  For every geometry, every choice of bricks, every file
and every request. -/
theorem ecReadv_exact_iff (g : Geometry) {rows : List ℕ} (hrows : ValidRows g.fragments rows)
    (hnodes : ∀ row ∈ rows, row < g.nodes) (junk : ℕ → Byte) (f : File Byte)
    (hfile : f.size < 2 ^ 63) (offset size : ℕ) (hoffset : offset < 2 ^ 63)
    (hsize : size < 2 ^ 64) :
    ∃ t, ecMethodInitialize = some t ∧
      (ReadsExactly g t junk rows f offset size ↔ Readable g f.size offset size) := by
  obtain ⟨t, initialized, ht⟩ := ecMethodInitialize_sound
  exact ⟨t, initialized, readsExactly_iff ht hrows hnodes junk f hfile hoffset hsize⟩

theorem threeNodes_rows : ValidRows threeNodes.fragments [0, 1] :=
  ⟨by decide, by decide, rfl, by decide, by decide⟩

theorem threeNodes_nodes : ∀ row ∈ [0, 1], row < threeNodes.nodes := by decide

/-- A file of one byte. -/
def shortFile : File Byte := ⟨1, fun i => if i = 0 then 1 else 0, fun _ hi => if_neg (by omega)⟩

theorem stripes_shortFile : (ecCode threeNodes).stripes shortFile.size = 1 := by
  refine le_antisymm ((ecCode threeNodes).stripes_le_iff.mpr ?_)
    ((ecCode threeNodes).lt_stripes_iff.mpr ?_) <;> decide

/-- The byte of the file is read. -/
theorem ecReadv_exact_iff_shortFile :
    ∃ t, ecMethodInitialize = some t ∧ ReadsExactly threeNodes t (fun _ => 0) [0, 1] shortFile 0 7 := by
  obtain ⟨t, initialized, exact_iff⟩ := ecReadv_exact_iff threeNodes threeNodes_rows
    threeNodes_nodes (fun _ => 0) shortFile (by decide) 0 7 (by norm_num) (by norm_num)
  refine ⟨t, initialized, exact_iff.mpr ⟨by norm_num, fun h => absurd h (by decide), ?_, ?_⟩⟩
  · exact lt_of_le_of_lt (min_le_left _ _) (by norm_num)
  · intro h
    exact absurd h (by decide)

/-- **Bytes from behind the end.**  Two bytes into a file of one byte, a read of one byte is
answered with a zero; and a read of nothing at the start of the file fails. -/
theorem ecReadv_behind_end :
    ∃ t, ecMethodInitialize = some t ∧
      ecReadv threeNodes t (fun _ => 0) [0, 1] shortFile 2 1 = some ⟨1, [0]⟩ ∧
      ¬ ReadsExactly threeNodes t (fun _ => 0) [0, 1] shortFile 2 1 ∧
      ecReadv threeNodes t (fun _ => 0) [0, 1] shortFile 0 0 = none ∧
      ¬ ReadsExactly threeNodes t (fun _ => 0) [0, 1] shortFile 0 0 := by
  obtain ⟨t, initialized, ht⟩ := ecMethodInitialize_sound
  have hanswered : answeredStripes threeNodes shortFile.size 2 1 = 1 := by
    rw [answeredStripes, stripes_shortFile]
    decide
  have hzero : ecReadv threeNodes t (fun _ => 0) [0, 1] shortFile 2 1 = some ⟨1, [0]⟩ := by
    rw [ecReadv_of_answered ht threeNodes_rows threeNodes_nodes (by decide) rfl
      (by rw [hanswered]; norm_num), hanswered]
    decide
  have hnone : ecReadv threeNodes t (fun _ => 0) [0, 1] shortFile 0 0 = none :=
    ecReadv_of_asked_eq_zero threeNodes_rows (by decide)
  refine ⟨t, initialized, hzero, ?_, hnone, ?_⟩
  · rw [ReadsExactly, hzero]
    decide
  · rw [ReadsExactly, hnone]
    exact nofun

end GlusterFS.Ec
