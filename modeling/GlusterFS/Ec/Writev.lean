import GlusterFS.CommonUtils.IovLength
import GlusterFS.Ec.Readv

/-!
# Writing to a disperse volume

`ec_writev` writes whole stripes.  `ec_writev_init` puts the data of the user into a
buffer of whole stripes, `ec_writev_start` reads the old bytes in front of the data
and behind it, and `ec_wind_writev` encodes the buffer and writes the chunks to the
bricks.  The buffer is a fresh one: whatever the merges leave out would be sent to
the bricks as it happened to be in memory.

`ecWritevStart_stored` is the heart of it: with the answers of the two reads, in either
order, the buffer holds the stripes of the file **after** the write, byte for byte.
There are three ways to a tail: a read of the last stripe, the read of the head when
there is only one stripe, and zeros when the file ends before it.

`ecWritev_stored` then gives the bricks, through the step of a striped file that is
written (`Code.store_write_fragment`): they hold the fragments of the new file, filled up
with zeros to whole stripes as before.

The length of the data is an `iov_length` and therefore an `int`: data of `2 ^ 31` bytes or
more have another one.  Where it is positive, only as many bytes are written
(`ecWritev_take`), and the rest is lost without an error (`ecWritev_loses`).
-/

namespace GlusterFS.Ec

open Striped CommonUtils

/-! ## Buffers -/

/-- `memcpy` of some bytes to a position in a buffer. -/
def memcpy (buffer : ℕ → Byte) (position : ℕ) (data : List Byte) : ℕ → Byte := fun i =>
  if position ≤ i ∧ i < position + data.length then data.getD (i - position) 0 else buffer i

/-- `memset` with zeros. -/
def memset (buffer : ℕ → Byte) (position size : ℕ) : ℕ → Byte := fun i =>
  if position ≤ i ∧ i < position + size then 0 else buffer i

/-- The inner loop of `ec_iov_copy_to`, from the first vector that is copied on. -/
def iovCopyFrom : List (List Byte) → ℕ → ℕ → List Byte
  | [], _, _ => []
  | v :: vector, offset, size =>
      if size = 0 then []
      else
        let len := min size (v.length - offset)
        (v.drop offset).take len ++ iovCopyFrom vector 0 (size - len)

/-- `ec_iov_copy_to`: the bytes that it copies. -/
def ecIovCopyTo : List (List Byte) → ℕ → ℕ → List Byte
  | [], _, _ => []
  | v :: vector, offset, size =>
      if offset < v.length then iovCopyFrom (v :: vector) offset size
      else ecIovCopyTo vector (offset - v.length) size

/-! ## The request -/

/-- `ec_adjust_offset` without `scale`: the start of the stripe and the head. -/
def ecAlignOffset (g : Geometry) (offset : ℕ) : ℕ × ℕ :=
  let head := offset % g.stripeSize
  (offset - head, head)

/-- `ec_adjust_size` without `scale`. -/
def ecAlignSize (g : Geometry) (size : ℕ) : ℕ :=
  let size := (size + (g.stripeSize - 1)) % 2 ^ 64
  size - size % g.stripeSize

/-- The fields of a write that the merges use, and the buffer at `vector[0]`. -/
structure WriteFop where
  offset : ℕ
  head : ℕ
  size : ℕ
  userSize : ℕ
  preSize : ℕ
  buffer : ℕ → Byte

/-- The bytes behind the data in the last stripe. -/
def WriteFop.tail (fop : WriteFop) : ℕ := fop.size - fop.userSize - fop.head

/-- `fop->user_size`, a `size_t` that is set to the `int` of `iov_length`. -/
def userSizeOf (vector : List (List Byte)) : ℕ := sizeT (iovLength (vector.map List.length))

/-- `ec_writev_init`; the new `iobuf` holds `junk`. -/
def ecWritevInit (g : Geometry) (junk : ℕ → Byte) (preSize offset : ℕ)
    (vector : List (List Byte)) : WriteFop :=
  let userSize := userSizeOf vector
  let (offset, head) := ecAlignOffset g offset
  let size := ecAlignSize g ((userSize + head) % 2 ^ 64)
  ⟨offset, head, size, userSize, preSize, memcpy junk head (ecIovCopyTo vector 0 userSize)⟩

/-- `ec_writev_merge_tail`.  Nothing is copied when `op_ret` does not exceed `base`. -/
def ecWritevMergeTail (g : Geometry) (a : ReadAnswer) (fop : WriteFop) : WriteFop :=
  if 0 ≤ a.opRet then
    let size := fop.tail
    let base := g.stripeSize - size
    let tmp := min (a.opRet.toNat - base) size
    let buffer := memcpy fop.buffer (fop.size - size) (ecIovCopyTo [a.vector] base tmp)
    let size := size - tmp
    { fop with buffer := memset buffer (fop.size - size) size }
  else fop

/-- `ec_writev_merge_head`, which also merges the tail of a write to one stripe. -/
def ecWritevMergeHead (g : Geometry) (a : ReadAnswer) (fop : WriteFop) : WriteFop :=
  if 0 ≤ a.opRet then
    let base := min a.opRet.toNat fop.head
    let buffer := memcpy fop.buffer 0 (ecIovCopyTo [a.vector] 0 base)
    let fop := { fop with buffer := memset buffer base (fop.head - base) }
    if 0 < fop.tail ∧ fop.size = g.stripeSize then ecWritevMergeTail g a fop else fop
  else fop

section Start

-- The answers of the two reads; a read that fails makes the write fail.
variable (g : Geometry) (readHead readTail : ℕ → Option ReadAnswer)

/-- The read of the first stripe in `ec_writev_start`, and what is done with it. -/
def mergeHead (fop : WriteFop) : Option (WriteFop → WriteFop) :=
  if 0 < fop.head then (readHead fop.offset).map (ecWritevMergeHead g) else some id

/-- The read of the last stripe in `ec_writev_start`, and what is done with it. -/
def mergeTail (fop : WriteFop) : Option (WriteFop → WriteFop) :=
  if 0 < fop.tail ∧ (fop.head = 0 ∨ fop.size > g.stripeSize) then
    if fop.preSize > fop.offset + fop.head + fop.userSize then
      (readTail (fop.offset + fop.size - g.stripeSize)).map (ecWritevMergeTail g)
    else some fun fop => { fop with buffer := memset fop.buffer (fop.size - fop.tail) fop.tail }
  else some id

/-- `ec_writev_start`.  Both reads are out at the same time; `tailFirst` says which answer
arrives first. -/
def ecWritevStart (tailFirst : Bool) (fop : WriteFop) : Option WriteFop := do
  let head ← mergeHead g readHead fop
  let tail ← mergeTail g readTail fop
  some (if tailFirst then head (tail fop) else tail (head fop))

end Start

/-- `posix_writev` on a fragment file. -/
def posixWritev (file : File Byte) (data : List Byte) (offset : ℕ) : File Byte :=
  if data = [] then file else file.write offset data

/-- `ec_wind_writev` for one brick. -/
def ecWindWritev (g : Geometry) (fuel : ℕ) (junk : ℕ → Byte) (fop : WriteFop) (idx : ℕ)
    (brick : File Byte) : Option (File Byte) := do
  let bufsize := fop.size / g.fragments
  let (_, out) ← ecMethodEncode fuel fop.size g.fragments idx
    ((List.range fop.size).map fop.buffer) ((List.range bufsize).map junk)
  some (posixWritev brick (out.take bufsize) (fop.offset / g.fragments))

/-- The bytes of a file. -/
def fileBytes (file : File Byte) : List Byte := (List.range file.size).map file.byte

/-- The surroundings of a write: the tables, what is in new buffers, the bricks that
answer the reads of the head and of the tail, and the order of these answers. -/
structure WriteEnv where
  tables : GfTables
  junk : ℕ → ℕ → Byte
  headRows : List ℕ
  tailRows : List ℕ
  tailFirst : Bool

/-- A read of one stripe by the bricks `rows`, into the buffer with the number `n`. -/
def WriteEnv.readStripe (env : WriteEnv) (g : Geometry) (n : ℕ) (rows : List ℕ)
    (bricks : List (File Byte)) (preSize offset : ℕ) : Option ReadAnswer :=
  ecReadvFrom g env.tables (env.junk n) rows
    (fun row => fileBytes (bricks.getD row File.empty)) preSize offset g.stripeSize

/-- `ec_writev` on the fragment files `bricks` with the size `preSize`: the new fragment
files and `post_size`.  `none` is a write that fails or does not return. -/
def ecWritev (g : Geometry) (env : WriteEnv) (fuel : ℕ) (bricks : List (File Byte))
    (preSize offset : ℕ) (vector : List (List Byte)) : Option (List (File Byte) × ℕ) := do
  let fop := ecWritevInit g (env.junk 0) preSize offset vector
  let fop ← ecWritevStart g (env.readStripe g 1 env.headRows bricks preSize)
    (env.readStripe g 2 env.tailRows bricks preSize) env.tailFirst fop
  let bricks ← (List.range g.nodes).mapM fun idx =>
    ecWindWritev g fuel (env.junk (3 + idx)) fop idx (bricks.getD idx File.empty)
  let size := fop.offset + fop.head + fop.userSize
  some (bricks, if size > preSize then size else preSize)

/-- The bricks hold the fragments of a file. -/
def storedBricks (g : Geometry) (f : File Byte) : List (File Byte) :=
  (List.range g.nodes).map fun idx => (ecCode g).fragment idx f

variable {g : Geometry} {f : File Byte}

/-! ## Copying from vectors -/

theorem iovCopyFrom_eq (vector : List (List Byte)) {offset size : ℕ}
    (h : ∀ v ∈ vector.head?, offset ≤ v.length) :
    iovCopyFrom vector offset size = (vector.flatten.drop offset).take size := by
  induction vector generalizing offset size with
  | nil => simp [iovCopyFrom]
  | cons v vector ih =>
      have hv : offset ≤ v.length := h v rfl
      rw [iovCopyFrom, List.flatten_cons, List.drop_append_of_le_length hv, List.take_append,
        List.length_drop]
      split_ifs with hsize
      · simp [hsize]
      · have hfirst : (v.drop offset).take (min size (v.length - offset))
            = (v.drop offset).take size := by
          rw [← List.length_drop, ← List.take_take, List.take_length]
        have hrest : size - min size (v.length - offset) = size - (v.length - offset) := by omega
        dsimp only
        rw [ih fun _ _ => Nat.zero_le _, List.drop_zero, hfirst, hrest]

/-- **What `ec_iov_copy_to` copies.** -/
theorem ecIovCopyTo_eq (vector : List (List Byte)) (offset size : ℕ) :
    ecIovCopyTo vector offset size = (vector.flatten.drop offset).take size := by
  induction vector generalizing offset with
  | nil => simp [ecIovCopyTo]
  | cons v vector ih =>
      rw [ecIovCopyTo]
      split_ifs with hlt
      · refine iovCopyFrom_eq _ fun w hw => ?_
        cases hw
        exact hlt.le
      · rw [ih, List.flatten_cons, List.drop_append, List.drop_eq_nil_of_le (Nat.not_lt.mp hlt),
          List.nil_append]

theorem ecIovCopyTo_readBytes (offset n base size : ℕ) :
    ecIovCopyTo [readBytes f offset n] base size
      = readBytes f (offset + base) (min size (n - base)) := by
  rw [ecIovCopyTo_eq, List.flatten_cons, List.flatten_nil, List.append_nil, take_drop_readBytes]

/-! ## What the merges put into the buffer -/

/-- The answer to a read of one stripe. -/
def stripeAnswer (g : Geometry) (f : File Byte) (offset : ℕ) : ReadAnswer :=
  let n := min g.stripeSize (f.size - offset)
  ⟨n, readBytes f offset n⟩

theorem memcpy_readBytes (buffer : ℕ → Byte) (position offset n i : ℕ) :
    memcpy buffer position (readBytes f offset n) i
      = if position ≤ i ∧ i < position + n then f.byte (offset + (i - position)) else buffer i := by
  rw [memcpy, length_readBytes]
  split_ifs with hin
  · rw [readBytes, List.getD_eq_getElem?_getD, List.getElem?_map,
      List.getElem?_range (by omega)]
    rfl
  · rfl

/-- A merge puts the old bytes to some places of the buffer and leaves the others alone. -/
def Fills (f : File Byte) (fop : WriteFop) (place : ℕ → Prop) (merge : WriteFop → WriteFop) :
    Prop :=
  ∀ b, ∃ b', merge { fop with buffer := b } = { fop with buffer := b' } ∧
    ∀ i < fop.size, (place i → b' i = f.byte (fop.offset + i)) ∧ (¬ place i → b' i = b i)

theorem fills_id (f : File Byte) (fop : WriteFop) : Fills f fop (fun _ => False) id := fun b =>
  ⟨b, rfl, fun _ _ => ⟨False.elim, fun _ => rfl⟩⟩

theorem Fills.comp {fop : WriteFop} {place place' : ℕ → Prop} {merge merge' : WriteFop → WriteFop}
    (h : Fills f fop place merge) (h' : Fills f fop place' merge') :
    Fills f fop (fun i => place i ∨ place' i) (merge' ∘ merge) := by
  intro b
  obtain ⟨b₁, hmerge, hb₁⟩ := h b
  obtain ⟨b₂, hmerge', hb₂⟩ := h' b₁
  refine ⟨b₂, by rw [Function.comp_apply, hmerge, hmerge'], fun i hi => ⟨fun hplace => ?_, ?_⟩⟩
  · by_cases hlater : place' i
    · exact (hb₂ i hi).1 hlater
    · rw [(hb₂ i hi).2 hlater]
      exact (hb₁ i hi).1 (hplace.resolve_right hlater)
  · intro hnone
    rw [not_or] at hnone
    rw [(hb₂ i hi).2 hnone.2, (hb₁ i hi).2 hnone.1]

/-- A tail of the last stripe is merged from the old bytes there. -/
theorem fills_mergeTail {fop : WriteFop} (htail : fop.tail ≤ g.stripeSize)
    (hsize : g.stripeSize ≤ fop.size) :
    Fills f fop (fun i => fop.size - fop.tail ≤ i)
      (ecWritevMergeTail g (stripeAnswer g f (fop.offset + fop.size - g.stripeSize))) := by
  intro b
  change fop.size - fop.userSize - fop.head ≤ g.stripeSize at htail
  simp only [ecWritevMergeTail, stripeAnswer, Int.natCast_nonneg, if_true, Int.toNat_natCast,
    ecIovCopyTo_readBytes, WriteFop.tail]
  refine ⟨_, rfl, fun i hi => ?_⟩
  simp only [memset, memcpy_readBytes]
  generalize hn : min g.stripeSize (f.size - (fop.offset + fop.size - g.stripeSize)) = n
  generalize fop.size - fop.userSize - fop.head = tail at htail
  refine ⟨fun hbehind => ?_, fun hbefore => ?_⟩
  · split_ifs with hzero hcopied
    · exact (f.beyond _ (by omega)).symm
    · exact congrArg f.byte (by omega)
    · omega
  · rw [if_neg (by omega), if_neg (by omega)]

/-- A tail behind the end of the file is filled with zeros. -/
theorem fills_zeros {fop : WriteFop} (hend : f.size ≤ fop.offset + (fop.size - fop.tail)) :
    Fills f fop (fun i => fop.size - fop.tail ≤ i)
      fun fop => { fop with buffer := memset fop.buffer (fop.size - fop.tail) fop.tail } := by
  intro b
  refine ⟨_, rfl, fun i hi => ⟨fun hbehind => ?_, fun hbefore => if_neg ?_⟩⟩
  · refine (if_pos ⟨hbehind, ?_⟩).trans (f.beyond _ (by omega)).symm
    change i < fop.size - fop.tail + fop.tail
    omega
  · exact fun hin => hbefore hin.1

/-- The head is merged from the old bytes of the first stripe, and with it the tail when
there is no other stripe. -/
theorem fills_mergeHead {fop : WriteFop} (hhead : fop.head < g.stripeSize)
    (htail : fop.tail ≤ g.stripeSize) (hsize : g.stripeSize ≤ fop.size) :
    Fills f fop
      (fun i => i < fop.head ∨
        (0 < fop.tail ∧ fop.size = g.stripeSize) ∧ fop.size - fop.tail ≤ i)
      (ecWritevMergeHead g (stripeAnswer g f fop.offset)) := by
  intro b
  have hone : 0 ≤ (stripeAnswer g f fop.offset).opRet := Int.natCast_nonneg _
  rw [ecWritevMergeHead, if_pos hone]
  simp only [stripeAnswer, Int.toNat_natCast, ecIovCopyTo_readBytes]
  -- the head alone
  set b₁ := memset (memcpy b 0 (readBytes f (fop.offset + 0) _)) _ _ with hb₁
  have head : ∀ i < fop.size, (i < fop.head → b₁ i = f.byte (fop.offset + i)) ∧
      (¬ i < fop.head → b₁ i = b i) := by
    intro i hi
    rw [hb₁]
    simp only [memset, memcpy_readBytes]
    refine ⟨fun hin => ?_, fun hout => ?_⟩
    · split_ifs with hzero hcopied
      · exact (f.beyond _ (by omega)).symm
      · exact congrArg f.byte (by omega)
      · omega
    · rw [if_neg (by omega), if_neg (by omega)]
  by_cases honly : 0 < fop.tail ∧ fop.size = g.stripeSize
  · obtain ⟨b₂, hmerge, hb₂⟩ := fills_mergeTail (f := f) htail hsize b₁
    have hstart : fop.offset + fop.size - g.stripeSize = fop.offset := by omega
    rw [hstart] at hmerge
    refine ⟨b₂, (if_pos honly).trans hmerge, fun i hi => ⟨?_, ?_⟩⟩
    · intro hplace
      by_cases hbehind : fop.size - fop.tail ≤ i
      · exact (hb₂ i hi).1 hbehind
      · rw [(hb₂ i hi).2 hbehind]
        exact (head i hi).1 (hplace.resolve_right fun h => hbehind h.2)
    · intro hnone
      rw [not_or] at hnone
      rw [(hb₂ i hi).2 fun hbehind => hnone.2 ⟨honly, hbehind⟩, (head i hi).2 hnone.1]
  · refine ⟨b₁, if_neg honly, fun i hi => ⟨fun hplace => ?_, fun hnone => ?_⟩⟩
    · exact (head i hi).1 (hplace.resolve_right fun h => honly h.1)
    · exact (head i hi).2 fun h => hnone (Or.inl h)

/-- A write that is framed by whole stripes. -/
structure WriteFop.Framed (g : Geometry) (fop : WriteFop) : Prop where
  head_lt : fop.head < g.stripeSize
  tail_lt : fop.tail < g.stripeSize
  size_eq : fop.head + fop.userSize + fop.tail = fop.size
  stripe_le : g.stripeSize ≤ fop.size

section Start

variable {readHead readTail : ℕ → Option ReadAnswer} {fop : WriteFop}

theorem mergeHead_fills (hfop : fop.Framed g)
    (hhead : 0 < fop.head → readHead fop.offset = some (stripeAnswer g f fop.offset)) :
    ∃ merge, mergeHead g readHead fop = some merge ∧ Fills f fop
      (fun i => 0 < fop.head ∧ (i < fop.head ∨
        (0 < fop.tail ∧ fop.size = g.stripeSize) ∧ fop.size - fop.tail ≤ i)) merge := by
  rw [mergeHead]
  split_ifs with hpos
  · refine ⟨_, by rw [hhead hpos]; rfl, ?_⟩
    simpa only [hpos, true_and] using
      fills_mergeHead hfop.head_lt hfop.tail_lt.le hfop.stripe_le
  · refine ⟨id, rfl, ?_⟩
    simpa only [hpos, false_and] using fills_id f fop

theorem mergeTail_fills (hfop : fop.Framed g) (hpre : f.size ≤ fop.preSize)
    (htail : 0 < fop.tail → readTail (fop.offset + fop.size - g.stripeSize)
      = some (stripeAnswer g f (fop.offset + fop.size - g.stripeSize))) :
    ∃ merge, mergeTail g readTail fop = some merge ∧ Fills f fop
      (fun i => (0 < fop.tail ∧ (fop.head = 0 ∨ fop.size > g.stripeSize)) ∧
        fop.size - fop.tail ≤ i) merge := by
  have hsize := hfop.size_eq
  rw [mergeTail]
  split_ifs with hcond hread
  · refine ⟨_, by rw [htail hcond.1]; rfl, ?_⟩
    simpa only [hcond, true_and] using fills_mergeTail hfop.tail_lt.le hfop.stripe_le
  · refine ⟨_, rfl, ?_⟩
    simpa only [hcond, true_and] using fills_zeros (f := f) (by omega)
  · refine ⟨id, rfl, ?_⟩
    simpa only [hcond, false_and] using fills_id f fop

/-- **The buffer after the merges**: the old bytes around the data, in whatever order the
answers arrive. -/
theorem ecWritevStart_buffer (hfop : fop.Framed g) (hpre : f.size ≤ fop.preSize)
    (hhead : 0 < fop.head → readHead fop.offset = some (stripeAnswer g f fop.offset))
    (htail : 0 < fop.tail → readTail (fop.offset + fop.size - g.stripeSize)
      = some (stripeAnswer g f (fop.offset + fop.size - g.stripeSize))) (tailFirst : Bool) :
    ∃ b, ecWritevStart g readHead readTail tailFirst fop = some { fop with buffer := b } ∧
      ∀ i < fop.size, b i = if fop.head ≤ i ∧ i < fop.head + fop.userSize then fop.buffer i
        else f.byte (fop.offset + i) := by
  obtain ⟨head, hmergeHead, fillsHead⟩ := mergeHead_fills hfop hhead
  obtain ⟨tail, hmergeTail, fillsTail⟩ := mergeTail_fills hfop hpre htail
  have hsize := hfop.size_eq
  have hstripe := hfop.stripe_le
  have run : ∀ place merge, Fills f fop place merge →
      (∀ i < fop.size, place i ↔ i < fop.head ∨ fop.size - fop.tail ≤ i) →
      ∃ b, merge fop = { fop with buffer := b } ∧
        ∀ i < fop.size, b i = if fop.head ≤ i ∧ i < fop.head + fop.userSize then fop.buffer i
          else f.byte (fop.offset + i) := by
    intro place merge fills hplace
    obtain ⟨b, hmerge, hb⟩ := fills fop.buffer
    refine ⟨b, hmerge, fun i hi => ?_⟩
    split_ifs with hdata
    · refine (hb i hi).2 fun hin => ?_
      have := (hplace i hi).mp hin
      omega
    · exact (hb i hi).1 ((hplace i hi).mpr (by omega))
  rw [ecWritevStart, hmergeHead, hmergeTail]
  cases tailFirst with
  | false =>
      obtain ⟨b, hmerge, hb⟩ := run _ _ (fillsHead.comp fillsTail) fun i hi => by omega
      exact ⟨b, congrArg some hmerge, hb⟩
  | true =>
      obtain ⟨b, hmerge, hb⟩ := run _ _ (fillsTail.comp fillsHead) fun i hi => by omega
      exact ⟨b, congrArg some hmerge, hb⟩

end Start

/-! ## The stripes of a write -/

section Stripes

variable {offset : ℕ} {data : List Byte}

/-- The number of stripes that a write touches. -/
def writtenStripes (g : Geometry) (offset : ℕ) (data : List Byte) : ℕ :=
  (ecCode g).endStripe offset data - (ecCode g).firstStripe offset

theorem firstStripe_eq (g : Geometry) (offset : ℕ) :
    (ecCode g).firstStripe offset = offset / g.stripeSize := rfl

/-- The stripes of a write, counted from its first one. -/
theorem endStripe_eq (hdata : data ≠ []) :
    (ecCode g).endStripe offset data = offset / g.stripeSize
      + (data.length + offset % g.stripeSize + (g.stripeSize - 1)) / g.stripeSize := by
  have hlength : 0 < data.length := List.length_pos_of_ne_nil hdata
  have hpos := g.stripeSize_pos
  have hsplit := Nat.div_add_mod offset g.stripeSize
  generalize hT : (data.length + offset % g.stripeSize + (g.stripeSize - 1)) / g.stripeSize = T
  have hle := Nat.mul_div_le (data.length + offset % g.stripeSize + (g.stripeSize - 1)) g.stripeSize
  have hlt := Nat.lt_mul_div_succ (data.length + offset % g.stripeSize + (g.stripeSize - 1)) hpos
  rw [hT] at hle hlt
  rw [mul_add, mul_one] at hlt
  refine le_antisymm ((ecCode g).stripes_le_iff.mpr ?_) ?_
  · change offset + data.length ≤ g.stripeSize * (offset / g.stripeSize + T)
    rw [mul_add]
    omega
  · obtain ⟨T', rfl⟩ : ∃ T', T = T' + 1 := by
      refine Nat.exists_eq_succ_of_ne_zero fun hzero => ?_
      rw [hzero, mul_zero] at hlt
      omega
    rw [mul_add, mul_one] at hle
    refine (ecCode g).lt_stripes_iff.mpr ?_
    change g.stripeSize * (offset / g.stripeSize + T') < offset + data.length
    rw [mul_add]
    omega

theorem writtenStripes_eq (hdata : data ≠ []) :
    writtenStripes g offset data
      = (data.length + offset % g.stripeSize + (g.stripeSize - 1)) / g.stripeSize := by
  rw [writtenStripes, endStripe_eq hdata, firstStripe_eq, Nat.add_sub_cancel_left]

theorem first_add_written (hdata : data ≠ []) :
    offset / g.stripeSize + writtenStripes g offset data = (ecCode g).endStripe offset data := by
  rw [writtenStripes_eq hdata, endStripe_eq hdata]

theorem ecAlignSize_eq (g : Geometry) {size : ℕ} (hsize : size + g.stripeSize < 2 ^ 64) :
    ecAlignSize g (size % 2 ^ 64)
      = g.stripeSize * ((size + (g.stripeSize - 1)) / g.stripeSize) := by
  have hpos := g.stripeSize_pos
  have := Nat.div_add_mod (size + (g.stripeSize - 1)) g.stripeSize
  rw [ecAlignSize, Nat.mod_eq_of_lt (by omega : size < 2 ^ 64),
    Nat.mod_eq_of_lt (by omega : size + (g.stripeSize - 1) < 2 ^ 64)]
  omega

/-- The 32 bit counter of `ec_method_encode` counts the stripes. -/
theorem writtenStripes_lt (hlength : data.length < 2 ^ 31) (hdata : data ≠ []) :
    writtenStripes g offset data < 2 ^ 32 := by
  have hpos := g.stripeSize_pos
  have hhead := Nat.mod_lt offset hpos
  have hle := g.stripeSize_le
  rw [writtenStripes_eq hdata]
  exact lt_of_le_of_lt (Nat.div_le_self _ _) (by omega)

variable {junk : ℕ → Byte} {preSize : ℕ} {vector : List (List Byte)}

theorem userSizeOf_eq (hlength : vector.flatten.length < 2 ^ 31) :
    userSizeOf vector = vector.flatten.length := by
  rw [List.length_flatten] at hlength ⊢
  rw [userSizeOf, iovLength_eq hlength, sizeT_natCast (by omega)]

/-- What `ec_writev_init` computes. -/
theorem ecWritevInit_eq (hbound : offset + vector.flatten.length < 2 ^ 63 + 2 ^ 13)
    (hlength : vector.flatten.length < 2 ^ 31) (hdata : vector.flatten ≠ []) :
    ecWritevInit g junk preSize offset vector
      = ⟨g.stripeSize * (offset / g.stripeSize), offset % g.stripeSize,
          g.stripeSize * writtenStripes g offset vector.flatten, vector.flatten.length, preSize,
          memcpy junk (offset % g.stripeSize) vector.flatten⟩ := by
  have hle := g.stripeSize_le
  have hmod := Nat.mod_le offset g.stripeSize
  have hstart : offset - offset % g.stripeSize = g.stripeSize * (offset / g.stripeSize) := by
    have := Nat.div_add_mod offset g.stripeSize
    omega
  have hcopy : ecIovCopyTo vector 0 vector.flatten.length = vector.flatten := by
    rw [ecIovCopyTo_eq, List.drop_zero, List.take_length]
  simp only [ecWritevInit, ecAlignOffset, userSizeOf_eq hlength, hstart, hcopy]
  rw [ecAlignSize_eq g (by omega), writtenStripes_eq hdata]

theorem ecWritevInit_framed (hbound : offset + vector.flatten.length < 2 ^ 63 + 2 ^ 13)
    (hlength : vector.flatten.length < 2 ^ 31) (hdata : vector.flatten ≠ []) :
    (ecWritevInit g junk preSize offset vector).Framed g := by
  have hsome : 0 < vector.flatten.length := List.length_pos_of_ne_nil hdata
  have hpos := g.stripeSize_pos
  have hhead := Nat.mod_lt offset hpos
  have hle := Nat.mul_div_le
    (vector.flatten.length + offset % g.stripeSize + (g.stripeSize - 1)) g.stripeSize
  have hlt := Nat.lt_mul_div_succ
    (vector.flatten.length + offset % g.stripeSize + (g.stripeSize - 1)) hpos
  rw [← writtenStripes_eq hdata] at hle hlt
  rw [mul_add, mul_one] at hlt
  have hone : g.stripeSize ≤ g.stripeSize * writtenStripes g offset vector.flatten := by
    refine Nat.le_mul_of_pos_right _ (Nat.pos_of_ne_zero fun hzero => ?_)
    rw [hzero, mul_zero] at hlt
    omega
  rw [ecWritevInit_eq hbound hlength hdata]
  refine ⟨hhead, ?_, ?_, hone⟩
  · change g.stripeSize * writtenStripes g offset vector.flatten - vector.flatten.length
      - offset % g.stripeSize < g.stripeSize
    omega
  · change offset % g.stripeSize + vector.flatten.length
      + (g.stripeSize * writtenStripes g offset vector.flatten - vector.flatten.length
        - offset % g.stripeSize) = g.stripeSize * writtenStripes g offset vector.flatten
    omega

end Stripes

/-! ## Encoding and storing the stripes -/

/-- **One call of `ec_method_encode` over some stripes of a file** computes their chunks. -/
theorem ecMethodEncode_range {row : ℕ} (hrow : row < g.nodes) {s S : ℕ}
    (hend : s + S ≤ (ecCode g).stripes f.size) {out : List Byte} (hout : out.length = 512 * S)
    (fuel : ℕ) :
    ecMethodEncode fuel (g.stripeSize * S) g.fragments row
        (readBytes f (g.stripeSize * s) (g.stripeSize * S)) out
      = if S < 2 ^ 32 ∧ S < fuel then some (S * 512, brickBytes g f row (512 * s) (512 * S))
        else none := by
  have hlength : (readBytes f (g.stripeSize * s) (g.stripeSize * S)).length
      = 512 * (g.fragments * S) := by rw [length_readBytes, g.stripeSize_eq, mul_assoc]
  have hsize : (readBytes f (g.stripeSize * s) (g.stripeSize * S)).length = g.stripeSize * S :=
    length_readBytes _ _ _
  by_cases hS : S < 2 ^ 32
  · obtain ⟨out', hout', symbols, run⟩ := ecMethodEncode_spec g.fragments_pos
      (hrow.trans g.nodes_lt) hlength hout hS
    have hchunks : out' = brickBytes g f row (512 * s) (512 * S) := by
      refine buffer_ext hout' (by rw [length_brickBytes]; omega) fun j hj p hp => ?_
      rw [symbols j hj p hp, symbol_brickBytes hrow hend hj hp, stripesBytes,
        take_drop_paddedBytes hend]
    rw [hsize] at run
    rw [run fuel, hchunks]
    simp only [hS, true_and]
  · have diverges : ecMethodEncode fuel _ g.fragments row _ out = none :=
      ecMethodEncode_diverges g.fragments_pos hlength (Nat.not_lt.mp hS) fuel
    rw [hsize] at diverges
    rw [diverges, if_neg fun h => hS h.1]

/-- Writing the chunks of some stripes stores them. -/
theorem posixWritev_brickBytes (idx : ℕ) (brick : File Byte) {s S : ℕ} (hS : 0 < S)
    (hend : s + S ≤ (ecCode g).stripes f.size) :
    posixWritev brick (brickBytes g f idx (512 * s) (512 * S)) (512 * s)
      = (ecCode g).store idx brick s (s + S) f := by
  have hbytes : brickBytes g f idx (512 * s) (512 * S)
      = (List.range (512 * S)).map fun i => ((ecCode g).fragment idx f).byte (512 * s + i) := by
    rw [brickBytes, fragmentBytes, take_drop_map_range, min_eq_left (by omega)]
  have hlength : (brickBytes g f idx (512 * s) (512 * S)).length = 512 * S := by
    rw [hbytes, List.length_map, List.length_range]
  have hne : brickBytes g f idx (512 * s) (512 * S) ≠ [] := by
    refine List.ne_nil_of_length_pos ?_
    omega
  rw [posixWritev, if_neg hne]
  refine File.ext ?_ fun i => ?_
  · change max brick.size (512 * s + _) = max brick.size (512 * (s + S))
    rw [hlength, mul_add]
  · change (if 512 * s ≤ i ∧ i < 512 * s + _ then _ else _)
      = if 512 * s ≤ i ∧ i < 512 * (s + S) then _ else _
    rw [hlength, mul_add]
    split_ifs with hin
    · rw [hbytes, List.getD_eq_getElem?_getD, List.getElem?_map, List.getElem?_range (by omega)]
      exact congrArg ((ecCode g).fragment idx f).byte (by omega)
    · rfl

/-- A buffer that holds some stripes of a file is stored as their chunks. -/
theorem ecWindWritev_eq {fop : WriteFop} {s S : ℕ} (hoffset : fop.offset = g.stripeSize * s)
    (hsize : fop.size = g.stripeSize * S) (hS : 0 < S)
    (hend : s + S ≤ (ecCode g).stripes f.size)
    (hbuffer : ∀ i < fop.size, fop.buffer i = f.byte (fop.offset + i)) {idx : ℕ}
    (hidx : idx < g.nodes) (fuel : ℕ) (junk : ℕ → Byte) (brick : File Byte) :
    ecWindWritev g fuel junk fop idx brick
      = if S < 2 ^ 32 ∧ S < fuel then some ((ecCode g).store idx brick s (s + S) f) else none := by
  have hinp : (List.range fop.size).map fop.buffer
      = readBytes f (g.stripeSize * s) (g.stripeSize * S) := by
    rw [readBytes, ← hsize]
    refine List.map_congr_left fun i hi => ?_
    rw [hbuffer i (List.mem_range.mp hi), hoffset]
  have hout : ((List.range (fop.size / g.fragments)).map junk).length = 512 * S := by
    rw [List.length_map, List.length_range, hsize, scaled_stripes]
  have hlength : (brickBytes g f idx (512 * s) (512 * S)).length = 512 * S := by
    rw [length_brickBytes]
    omega
  rw [ecWindWritev, hinp, hsize, ecMethodEncode_range hidx hend (by rw [← hsize]; exact hout) fuel]
  split_ifs with hfuel
  · simp only [Option.bind_eq_bind, Option.bind_some, hoffset, scaled_stripes,
      List.take_of_length_le hlength.le, posixWritev_brickBytes idx brick hS hend]
  · rfl

/-! ## The reads of one stripe -/

/-- A read of one stripe, also for a request whose `pre_size` only tells where the file ends
in that stripe. -/
theorem ecReadvFrom_stripe {t : GfTables} (ht : t.Sound) {rows : List ℕ}
    (hrows : ValidRows g.fragments rows) (hnodes : ∀ row ∈ rows, row < g.nodes) (junk : ℕ → Byte)
    {m preSize : ℕ} (hm : g.stripeSize * m < 2 ^ 63 + 2 ^ 13)
    (hpre : min preSize (g.stripeSize * m + g.stripeSize)
      = min f.size (g.stripeSize * m + g.stripeSize)) :
    ecReadvFrom g t junk rows (fun row => fragmentBytes g row f) preSize (g.stripeSize * m)
      g.stripeSize = some (stripeAnswer g f (g.stripeSize * m)) := by
  have hpos := g.stripeSize_pos
  have hle := g.stripeSize_le
  have hdiv : g.stripeSize * m / g.stripeSize = m := Nat.mul_div_cancel_left m hpos
  have hmod : g.stripeSize * m % g.stripeSize = 0 := Nat.mul_mod_right _ _
  have hasked : askedStripes g (g.stripeSize * m) g.stripeSize = 1 := by
    rw [askedStripes, hmod, Nat.mod_eq_of_lt (by omega)]
    exact Nat.div_eq_of_lt_le (by omega) (by omega)
  have hanswered : answeredStripes g f.size (g.stripeSize * m) g.stripeSize
      = min 1 ((ecCode g).stripes f.size - m) := by rw [answeredStripes, hasked, hdiv]
  rw [ecReadvFrom_of_answered ht hrows hnodes (by rw [hasked]; exact one_ne_zero) hanswered.symm
    (by omega), stripeAnswer]
  by_cases hinside : m < (ecCode g).stripes f.size
  · have hone : min 1 ((ecCode g).stripes f.size - m) = 1 := by omega
    have hstart : g.stripeSize * m < f.size := (ecCode g).lt_stripes_iff.mp hinside
    have hscaled : 512 * m * g.fragments = g.stripeSize * m := by
      rw [g.stripeSize_eq]
      ring
    have hlen : readLength g ⟨512 * m, 0, g.stripeSize, preSize⟩ g.stripeSize = (_, _) :=
      readLength_of_le hscaled hpos (by omega) (show g.stripeSize * m + 0 ≤ preSize by omega)
    have hn : min (min g.stripeSize (preSize - g.stripeSize * m) - 0) g.stripeSize
        = min g.stripeSize (f.size - g.stripeSize * m) := by omega
    have hcut : min (min g.stripeSize (f.size - g.stripeSize * m)) (g.stripeSize - 0)
        = min g.stripeSize (f.size - g.stripeSize * m) := by omega
    rw [hone, if_neg one_ne_zero, hdiv, hmod, mul_one]
    simp only [hlen, hn, hcut]
    rw [int32Of_eq (by omega)]
  · have hzero : min 1 ((ecCode g).stripes f.size - m) = 0 := by omega
    have hbehind : f.size ≤ g.stripeSize * m := (ecCode g).stripes_le_iff.mp (Nat.not_lt.mp hinside)
    have hn : min g.stripeSize (f.size - g.stripeSize * m) = 0 := by omega
    rw [hzero, if_pos rfl, hn]
    rfl

theorem ecReadvFrom_congr {t : GfTables} {junk : ℕ → Byte} {rows : List ℕ}
    {fragments fragments' : ℕ → List Byte} (h : ∀ row ∈ rows, fragments row = fragments' row)
    (preSize offset size : ℕ) :
    ecReadvFrom g t junk rows fragments preSize offset size
      = ecReadvFrom g t junk rows fragments' preSize offset size := by
  have hanswers : ∀ brickSize brickOffset,
      (rows.map fun row => ecReadvCbk (posixReadv (fragments row) brickSize brickOffset))
        = rows.map fun row => ecReadvCbk (posixReadv (fragments' row) brickSize brickOffset) :=
    fun brickSize brickOffset => List.map_congr_left fun row hrow => by rw [h row hrow]
  simp only [ecReadvFrom, hanswers]

/-! ## The bricks after a write -/

theorem getD_storedBricks {idx : ℕ} (hidx : idx < g.nodes) :
    (storedBricks g f).getD idx File.empty = (ecCode g).fragment idx f := by
  rw [storedBricks, List.getD_eq_getElem?_getD, List.getElem?_map, List.getElem?_range hidx]
  rfl

theorem mapM_range_eq {α : Type} (n : ℕ) (F : ℕ → Option α) (G : ℕ → α) {p : Prop} [Decidable p]
    (hn : 0 < n) (h : ∀ i < n, F i = if p then some (G i) else none) :
    (List.range n).mapM F = if p then some ((List.range n).map G) else none := by
  have hall : ∀ l : List ℕ, (∀ i ∈ l, i < n) → p →
      l.mapM F = some (l.map G) := by
    intro l hl hp
    induction l with
    | nil => rfl
    | cons i l ih =>
        rw [List.mapM_cons, h i (hl i List.mem_cons_self), if_pos hp,
          ih fun j hj => hl j (List.mem_cons_of_mem _ hj)]
        rfl
  split_ifs with hp
  · exact hall _ (fun i hi => List.mem_range.mp hi) hp
  · obtain ⟨m, rfl⟩ := Nat.exists_eq_succ_of_ne_zero hn.ne'
    rw [List.range_succ_eq_map, List.mapM_cons, h 0 hn, if_neg hp]
    rfl

/-- The bricks that answer the reads of a write. -/
structure WriteEnv.Ok (g : Geometry) (env : WriteEnv) : Prop where
  tables : env.tables.Sound
  headRows : ValidRows g.fragments env.headRows
  headNodes : ∀ row ∈ env.headRows, row < g.nodes
  tailRows : ValidRows g.fragments env.tailRows
  tailNodes : ∀ row ∈ env.tailRows, row < g.nodes

section Run

variable {env : WriteEnv} {preSize offset : ℕ} {vector : List (List Byte)}

/-- `preSize` and the size of `f` tell the same about the stripes from `first` on and before
`last`: both end in the same place of the stripe, or behind it. -/
def SameEnd (g : Geometry) (f : File Byte) (preSize first last : ℕ) : Prop :=
  ∀ m, first ≤ m → m < last → min preSize (g.stripeSize * m + g.stripeSize)
    = min f.size (g.stripeSize * m + g.stripeSize)

/-- The reads of the head and of the tail. -/
theorem readStripe_stored (henv : env.Ok g) {rows : List ℕ} (hrows : ValidRows g.fragments rows)
    (hnodes : ∀ row ∈ rows, row < g.nodes) {first last m n : ℕ}
    (hpre : SameEnd g f preSize first last) (hfirst : first ≤ m) (hlast : m < last)
    (hm : g.stripeSize * m < 2 ^ 63 + 2 ^ 13) :
    env.readStripe g n rows (storedBricks g f) preSize (g.stripeSize * m)
      = some (stripeAnswer g f (g.stripeSize * m)) := by
  refine (ecReadvFrom_congr (fun row hrow => ?_) _ _ _).trans
    (ecReadvFrom_stripe henv.tables hrows hnodes _ hm (hpre m hfirst hlast))
  rw [getD_storedBricks (hnodes row hrow)]
  rfl

/-- **The buffer of a write** holds the stripes of the new file. -/
theorem ecWritevStart_stored (henv : env.Ok g)
    (hbound : offset + vector.flatten.length < 2 ^ 63 + 2 ^ 13)
    (hlength : vector.flatten.length < 2 ^ 31) (hdata : vector.flatten ≠ [])
    (hle : f.size ≤ preSize) (hpre : SameEnd g f preSize (offset / g.stripeSize)
      ((ecCode g).endStripe offset vector.flatten)) :
    ∃ b, ecWritevStart g (env.readStripe g 1 env.headRows (storedBricks g f) preSize)
        (env.readStripe g 2 env.tailRows (storedBricks g f) preSize) env.tailFirst
        (ecWritevInit g (env.junk 0) preSize offset vector)
          = some { ecWritevInit g (env.junk 0) preSize offset vector with buffer := b } ∧
      ∀ i < g.stripeSize * writtenStripes g offset vector.flatten,
        b i = (f.write offset vector.flatten).byte
          (g.stripeSize * (offset / g.stripeSize) + i) := by
  have hend : offset / g.stripeSize + writtenStripes g offset vector.flatten = _ :=
    first_add_written hdata
  have hframed : (ecWritevInit g (env.junk 0) preSize offset vector).Framed g :=
    ecWritevInit_framed hbound hlength hdata
  rw [ecWritevInit_eq hbound hlength hdata] at hframed ⊢
  have hS : 0 < writtenStripes g offset vector.flatten :=
    Nat.pos_of_mul_pos_left (g.stripeSize_pos.trans_le hframed.stripe_le)
  have hsmall : ∀ m, m < (ecCode g).endStripe offset vector.flatten →
      g.stripeSize * m < 2 ^ 63 + 2 ^ 13 :=
    fun m hm => lt_trans ((ecCode g).lt_stripes_iff.mp hm) hbound
  have hhead : env.readStripe g 1 env.headRows (storedBricks g f) preSize
      (g.stripeSize * (offset / g.stripeSize)) = some (stripeAnswer g f _) :=
    readStripe_stored henv henv.headRows henv.headNodes hpre le_rfl (by omega)
      (hsmall _ (by omega))
  have htail : env.readStripe g 2 env.tailRows (storedBricks g f) preSize
      (g.stripeSize * (offset / g.stripeSize)
        + g.stripeSize * writtenStripes g offset vector.flatten - g.stripeSize)
        = some (stripeAnswer g f (g.stripeSize * (offset / g.stripeSize)
          + g.stripeSize * writtenStripes g offset vector.flatten - g.stripeSize)) := by
    have hlast : g.stripeSize * (offset / g.stripeSize)
        + g.stripeSize * writtenStripes g offset vector.flatten - g.stripeSize
          = g.stripeSize
            * (offset / g.stripeSize + writtenStripes g offset vector.flatten - 1) := by
      rw [← mul_add, Nat.mul_sub, mul_one]
    have hinside : offset / g.stripeSize + writtenStripes g offset vector.flatten - 1
        < (ecCode g).endStripe offset vector.flatten :=
      hend ▸ Nat.sub_one_lt (Nat.add_pos_right _ hS).ne'
    rw [hlast]
    exact readStripe_stored henv henv.tailRows henv.tailNodes hpre
      (Nat.le_sub_one_of_lt (Nat.lt_add_of_pos_right hS)) hinside (hsmall _ hinside)
  obtain ⟨b, hstart, hb⟩ := ecWritevStart_buffer hframed hle (fun _ => hhead) (fun _ => htail)
    env.tailFirst
  refine ⟨b, hstart, fun i hi => (hb i hi).trans ?_⟩
  have hsplit := Nat.div_add_mod offset g.stripeSize
  change (if offset % g.stripeSize ≤ i ∧ i < offset % g.stripeSize + vector.flatten.length
    then memcpy (env.junk 0) (offset % g.stripeSize) vector.flatten i else _)
      = if offset ≤ _ ∧ _ < offset + vector.flatten.length then _ else _
  split_ifs with hin hin' hin'
  · rw [memcpy, if_pos hin]
    exact congrArg (fun k => vector.flatten.getD k 0) (by omega)
  · omega
  · omega
  · rfl

/-- **The bricks after a write** to bricks that hold the fragments of `f`. -/
theorem ecWritev_run (henv : env.Ok g) (fuel : ℕ)
    (hbound : offset + vector.flatten.length < 2 ^ 63 + 2 ^ 13)
    (hlength : vector.flatten.length < 2 ^ 31) (hdata : vector.flatten ≠ [])
    (hle : f.size ≤ preSize) (hpre : SameEnd g f preSize (offset / g.stripeSize)
      ((ecCode g).endStripe offset vector.flatten)) :
    ecWritev g env fuel (storedBricks g f) preSize offset vector
      = if writtenStripes g offset vector.flatten < fuel then
          some (storedBricks g (f.write offset vector.flatten),
            max preSize (offset + vector.flatten.length))
        else none := by
  have hcounter : writtenStripes g offset vector.flatten < 2 ^ 32 := writtenStripes_lt hlength hdata
  obtain ⟨b, hstart, hb⟩ := ecWritevStart_stored henv hbound hlength hdata hle hpre
  have hframed : (ecWritevInit g (env.junk 0) preSize offset vector).Framed g :=
    ecWritevInit_framed hbound hlength hdata
  have hend : offset / g.stripeSize + writtenStripes g offset vector.flatten = _ :=
    first_add_written hdata
  rw [ecWritev, hstart]
  rw [ecWritevInit_eq hbound hlength hdata] at hframed ⊢
  have hS : 0 < writtenStripes g offset vector.flatten :=
    Nat.pos_of_mul_pos_left (g.stripeSize_pos.trans_le hframed.stripe_le)
  have hstripes : offset / g.stripeSize + writtenStripes g offset vector.flatten
      ≤ (ecCode g).stripes (f.write offset vector.flatten).size := by
    rw [hend]
    exact (ecCode g).stripes_mono (le_max_right _ _)
  have hwind : ∀ idx < g.nodes, ecWindWritev g fuel (env.junk (3 + idx))
        ⟨g.stripeSize * (offset / g.stripeSize), offset % g.stripeSize,
          g.stripeSize * writtenStripes g offset vector.flatten, vector.flatten.length, preSize, b⟩
        idx ((storedBricks g f).getD idx File.empty)
      = if writtenStripes g offset vector.flatten < fuel then
          some ((ecCode g).fragment idx (f.write offset vector.flatten)) else none := by
    intro idx hidx
    rw [ecWindWritev_eq (f := f.write offset vector.flatten) rfl rfl hS hstripes hb hidx, hend,
      getD_storedBricks hidx, ← firstStripe_eq, Code.store_write_fragment rfl]
    simp only [hcounter, true_and]
  have hpost : (if offset + vector.flatten.length > preSize then offset + vector.flatten.length
      else preSize) = max preSize (offset + vector.flatten.length) := by
    split_ifs <;> omega
  have hnodes : 0 < g.nodes := Nat.zero_lt_of_lt g.fragments_lt
  simp only [Option.bind_eq_bind, Option.bind_some]
  rw [mapM_range_eq g.nodes _ _ hnodes hwind]
  by_cases hfuel : writtenStripes g offset vector.flatten < fuel
  · rw [if_pos hfuel, if_pos hfuel]
    simp only [Option.bind_some, Nat.div_add_mod, hpost]
    rfl
  · rw [if_neg hfuel, if_neg hfuel]
    rfl

end Run

/-- A write of nothing between two stripes leaves the bricks alone. -/
theorem ecWritev_nothing {env : WriteEnv} {fuel : ℕ} (hfuel : 0 < fuel) {preSize offset : ℕ}
    (hoffset : offset % g.stripeSize = 0) :
    (ecWritev g env fuel (storedBricks g f) preSize offset [[]]).map Prod.fst
      = some (storedBricks g f) := by
  have hpos := g.stripeSize_pos
  have hle := g.stripeSize_le
  have hinit : ecWritevInit g (env.junk 0) preSize offset [[]]
      = ⟨offset, 0, 0, 0, preSize, memcpy (env.junk 0) 0 (ecIovCopyTo [[]] 0 0)⟩ := by
    have hsize : ecAlignSize g ((0 + 0) % 2 ^ 64) = 0 := by
      rw [ecAlignSize_eq g (by omega), Nat.div_eq_of_lt (by omega), mul_zero]
    have huser : userSizeOf [[]] = 0 := rfl
    simp only [ecWritevInit, ecAlignOffset, hoffset, Nat.sub_zero, huser, hsize]
  have hwind : ∀ idx < g.nodes, ecWindWritev g fuel (env.junk (3 + idx))
        ⟨offset, 0, 0, 0, preSize, memcpy (env.junk 0) 0 (ecIovCopyTo [[]] 0 0)⟩ idx
        ((storedBricks g f).getD idx File.empty)
      = if True then some ((ecCode g).fragment idx f) else none := by
    intro idx hidx
    obtain ⟨out, hout, -, run⟩ := ecMethodEncode_spec g.fragments_pos (hidx.trans g.nodes_lt)
      (show ([] : List Byte).length = 512 * (g.fragments * 0) from rfl)
      (show ([] : List Byte).length = 512 * 0 from rfl) (by norm_num)
    have hrun : ecMethodEncode fuel 0 g.fragments idx [] [] = some (0 * 512, out) :=
      (run fuel).trans (if_pos hfuel)
    rw [List.length_eq_zero_iff.mp hout] at hrun
    rw [ecWindWritev, getD_storedBricks hidx, if_pos trivial]
    simp only [Nat.zero_div, List.range_zero, List.map_nil, hrun, Option.bind_eq_bind,
      Option.bind_some, List.take_nil, posixWritev, if_true]
  rw [ecWritev, hinit]
  have hstart : ∀ readHead readTail fop, fop.head = 0 → fop.tail = 0 →
      ecWritevStart g readHead readTail env.tailFirst fop = some fop := by
    intro readHead readTail fop hhead htail
    rw [ecWritevStart, mergeHead, if_neg (by omega), mergeTail, if_neg (by omega)]
    cases env.tailFirst <;> rfl
  rw [hstart _ _ _ rfl rfl]
  simp only [Option.bind_eq_bind, Option.bind_some]
  rw [mapM_range_eq g.nodes _ _ (Nat.zero_lt_of_lt g.fragments_lt) hwind, if_pos trivial]
  rfl

/-- **A write keeps the bricks in step with the file.**  For every geometry, file and
offset, every non-empty data of less than `2 ^ 31` bytes in any vectors, whatever is in the new
buffers, whichever bricks answer the two reads and in whatever order: the bricks hold the fragments
of the file with the data written over it, and `post_size` is its size.  The encoding loop ends
after as many turns as stripes are written. -/
theorem ecWritev_stored (g : Geometry) (junk : ℕ → ℕ → Byte) {headRows tailRows : List ℕ}
    (hhead : ValidRows g.fragments headRows) (hheadNodes : ∀ row ∈ headRows, row < g.nodes)
    (htail : ValidRows g.fragments tailRows) (htailNodes : ∀ row ∈ tailRows, row < g.nodes)
    (tailFirst : Bool) (f : File Byte) (offset : ℕ) (vector : List (List Byte))
    (hbound : offset + vector.flatten.length < 2 ^ 63) (hlength : vector.flatten.length < 2 ^ 31)
    (hdata : vector.flatten ≠ []) {fuel : ℕ} (hfuel : writtenStripes g offset vector.flatten < fuel) :
    ∃ t, ecMethodInitialize = some t ∧
      ecWritev g ⟨t, junk, headRows, tailRows, tailFirst⟩ fuel (storedBricks g f) f.size offset
          vector
        = some (storedBricks g (f.write offset vector.flatten),
            max f.size (offset + vector.flatten.length)) := by
  obtain ⟨t, initialized, ht⟩ := ecMethodInitialize_sound
  refine ⟨t, initialized, (ecWritev_run ⟨ht, hhead, hheadNodes, htail, htailNodes⟩ fuel
    (hbound.trans (by norm_num)) hlength hdata le_rfl fun _ _ _ => rfl).trans (if_pos hfuel)⟩

/-- One byte behind the end of a file of one byte: the head and the tail are in the only
stripe, and the gap is filled with a zero. -/
theorem ecWritev_stored_shortFile :
    ∃ t, ecMethodInitialize = some t ∧
      ecWritev threeNodes ⟨t, fun _ _ => 7, [0, 1], [0, 1], false⟩ 2
          (storedBricks threeNodes shortFile) 1 2 [[5]]
        = some (storedBricks threeNodes (shortFile.write 2 [5]), 3) ∧
      (List.range 4).map (shortFile.write 2 [5]).byte = [1, 0, 5, 0] := by
  have hfuel : writtenStripes threeNodes 2 [[5]].flatten < 2 := by
    rw [writtenStripes_eq (by decide)]
    decide
  obtain ⟨t, initialized, run⟩ := ecWritev_stored threeNodes (fun _ _ => 7) threeNodes_rows
    threeNodes_nodes threeNodes_rows threeNodes_nodes false shortFile 2 [[5]] (by decide)
    (by decide) (by decide) hfuel
  exact ⟨t, initialized, run, by decide⟩

/-- **Where the `int` is positive, as many bytes are written**: the request is the same as for the
first bytes of the data. -/
theorem ecWritev_take (g : Geometry) (env : WriteEnv) (fuel : ℕ) (bricks : List (File Byte))
    (preSize offset : ℕ) {vector : List (List Byte)}
    (hpos : 0 ≤ iovLength (vector.map List.length))
    (hle : userSizeOf vector ≤ vector.flatten.length) :
    ecWritev g env fuel bricks preSize offset vector
      = ecWritev g env fuel bricks preSize offset [vector.flatten.take (userSizeOf vector)] := by
  have hshort : userSizeOf vector < 2 ^ 31 := by
    have hbounds := iovLength_bounds (vector.map List.length)
    rw [userSizeOf, sizeT]
    omega
  have hsize : userSizeOf [vector.flatten.take (userSizeOf vector)] = userSizeOf vector := by
    have hlength : [vector.flatten.take (userSizeOf vector)].flatten.length = userSizeOf vector := by
      simpa using hle
    rw [userSizeOf_eq (by omega), hlength]
  have hinit : ecWritevInit g (env.junk 0) preSize offset vector
      = ecWritevInit g (env.junk 0) preSize offset [vector.flatten.take (userSizeOf vector)] := by
    simp only [ecWritevInit, hsize, ecIovCopyTo_eq, List.drop_zero, List.flatten_cons,
      List.flatten_nil, List.append_nil, List.take_take, min_self]
  rw [ecWritev, ecWritev, hinit]

/-- Equal bytes whose number is one as an `int`: the first is written to an empty file, and its size
becomes one. -/
theorem ecWritev_loses_all_but_one {n : ℕ} (hn : 0 < n) (hone : iovLength [n] = 1) :
    ∃ t, ecMethodInitialize = some t ∧
      ecWritev threeNodes ⟨t, fun _ _ => 7, [0, 1], [0, 1], false⟩ 2
          (storedBricks threeNodes File.empty) 0 0 [List.replicate n 5]
        = some (storedBricks threeNodes (File.empty.write 0 [5]), 1) := by
  have hfuel : writtenStripes threeNodes 0 [[5]].flatten < 2 := by
    rw [writtenStripes_eq (by decide)]
    decide
  obtain ⟨t, ht, hsound⟩ := ecMethodInitialize_sound
  refine ⟨t, ht, ?_⟩
  have hint : iovLength ([List.replicate n (5 : Byte)].map List.length) = 1 := by
    rw [List.map_singleton, List.length_replicate, hone]
  have huser : userSizeOf [List.replicate n (5 : Byte)] = 1 := by
    rw [userSizeOf, hint]
    decide
  have htake : [List.replicate n (5 : Byte)].flatten.take 1 = [5] := by
    rw [List.flatten_singleton, List.take_replicate, min_eq_left hn, List.replicate_one]
  have hle : userSizeOf [List.replicate n (5 : Byte)]
      ≤ [List.replicate n (5 : Byte)].flatten.length := by
    rw [huser, List.flatten_singleton, List.length_replicate]
    exact hn
  rw [ecWritev_take _ _ _ _ _ _ (by rw [hint]; norm_num) hle, huser, htake]
  exact (ecWritev_run ⟨hsound, threeNodes_rows, threeNodes_nodes, threeNodes_rows, threeNodes_nodes⟩ 2
    (by decide) (by decide) (by decide) le_rfl fun _ _ _ => rfl).trans (if_pos hfuel)

/-- **A long write is lost without an error**: of `2 ^ 32 + 1` bytes one is written. -/
theorem ecWritev_loses : ∃ t, ecMethodInitialize = some t ∧
    ecWritev threeNodes ⟨t, fun _ _ => 7, [0, 1], [0, 1], false⟩ 2
        (storedBricks threeNodes File.empty) 0 0 [List.replicate (2 ^ 32 + 1) 5]
      = some (storedBricks threeNodes (File.empty.write 0 [5]), 1) :=
  ecWritev_loses_all_but_one (by norm_num) (by decide)

end GlusterFS.Ec
