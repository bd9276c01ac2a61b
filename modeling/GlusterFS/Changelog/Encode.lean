import GlusterFS.Changelog.Ascii

/-!
# The buffer of the changelog encoder

`changelog_encode_ascii` writes a record into a buffer on the stack.  Its size is computed in front,
from `cld_ptr_len`: the `CHANGELOG_FILL_*` macros add to it, for every optional record, the size of a
number in memory or the length of a parent and a name in text.

The module models the encoder for records with any list of optional records, and compares what it
writes with the size of the buffer.  A number takes one byte for its separator and one for each
**digit**, and four have been counted; a parent with a name takes two bytes more than have been
counted.  The ten bytes for "decorations" pay for the type, the last NUL and eight further bytes
(`ascii_within_buffer_iff`).  A `create` by a user and in a group with ten digits writes nine bytes
behind the end (`create_beyond_buffer`).
-/

namespace GlusterFS.Changelog.Encode

open TextFields Ascii

/-! ## Records -/

/-- `changelog_opt_t`, as the `CHANGELOG_FILL_*` macros fill it; a text ends before its NUL. -/
inductive OptRec where
  | fop (fop : Fin 49)
  | uint32 (number : Fin (2 ^ 32))
  | entry (cefUuid : Uuid) (cefBname : List Byte)

/-- What the macro adds to `xtra_len`. -/
def OptRec.xlen : OptRec → ℕ
  | .fop _ => 4
  | .uint32 _ => 4
  | .entry _ bname => 36 + bname.length

/-- `changelog_log_data_t`; `mapped` is `priv->maps[cld_type]`. -/
structure LogData where
  mapped : Byte
  cldGfid : Uuid
  xtra : List OptRec

/-- `cld_ptr_len`. -/
def LogData.cldPtrLen (cld : LogData) : ℕ := (cld.xtra.map OptRec.xlen).sum

/-! ## Writing -/

/-- `CHANGELOG_FILL_BUFFER`; the offset is the number of the bytes that have been written. -/
def fillBuffer (buffer val : List Byte) : List Byte := buffer ++ val

/-- The bytes of a `uuid_t`. -/
def uuidBytes (u : Uuid) : List Byte :=
  List.ofFn u.timeLow ++ List.ofFn u.timeMid ++ List.ofFn u.timeHi ++ List.ofFn u.clockSeq
    ++ List.ofFn u.node

/-- The four bytes of a number in memory. -/
def uint32Bytes (n : ℕ) : List Byte :=
  [Fin.ofNat 256 n, Fin.ofNat 256 (n / 2 ^ 8), Fin.ofNat 256 (n / 2 ^ 16),
    Fin.ofNat 256 (n / 2 ^ 24)]

/-- `snprintf` of a number into a buffer of some size, and `strlen`. -/
def snprintf (size n : ℕ) : List Byte := (decimal n).take (size - 1)

/-- `entry_fn`. -/
def entryFn (uuid : Uuid) (bname buffer : List Byte) (encode : Bool) : List Byte :=
  let buffer := fillBuffer buffer (if encode then uuidUtoa uuid else uuidBytes uuid)
  fillBuffer (fillBuffer buffer [47]) bname

/-- `fop_fn`. -/
def fopFn (fop : Fin 49) (buffer : List Byte) (encode : Bool) : List Byte :=
  fillBuffer buffer (if encode then snprintf 10 fop else uint32Bytes fop)

/-- `number_fn`. -/
def numberFn (nr : Fin (2 ^ 32)) (buffer : List Byte) (encode : Bool) : List Byte :=
  fillBuffer buffer (if encode then snprintf 20 nr else uint32Bytes nr)

/-- `co_convert`, as the macros are called. -/
def OptRec.convert : OptRec → List Byte → Bool → List Byte
  | .fop op => fopFn op
  | .uint32 nr => numberFn nr
  | .entry uuid bname => entryFn uuid bname

/-- `changelog_encode_write_xtra`. -/
def changelogEncodeWriteXtra (encode : Bool) : List OptRec → List Byte → List Byte
  | [], buffer => buffer
  | co :: rest, buffer =>
      changelogEncodeWriteXtra encode rest (co.convert (fillBuffer buffer [0]) encode)

/-- What `changelog_encode_ascii` writes into its buffer. -/
def changelogEncodeAscii (cld : LogData) : List Byte :=
  let buffer := fillBuffer (fillBuffer [] [cld.mapped]) (uuidUtoa cld.cldGfid)
  fillBuffer (changelogEncodeWriteXtra true cld.xtra buffer) [0]

/-- The buffer of `changelog_encode_ascii`: `gfid_len + cld_ptr_len + 10`. -/
def asciiBuffer (cld : LogData) : ℕ := (uuidUtoa cld.cldGfid).length + cld.cldPtrLen + 10

/-! ## Lengths -/

theorem length_snprintf {size n : ℕ} (h : (decimal n).length < size) :
    (snprintf size n).length = (decimal n).length := by
  rw [snprintf, List.length_take]
  omega

/-- What an optional record takes in ASCII beyond what has been counted for it. -/
def OptRec.excess : OptRec → ℤ
  | .fop op => (decimal op).length - 3
  | .uint32 nr => (decimal nr).length - 3
  | .entry _ _ => 2

theorem length_convert_ascii (co : OptRec) (buffer : List Byte) :
    ((co.convert (fillBuffer buffer [0]) true).length : ℤ)
      = buffer.length + co.xlen + co.excess := by
  cases co with
  | fop fop =>
      have hdigits : (decimal fop).length ≤ 2 := length_decimal_fop fop fop.isLt
      simp only [OptRec.convert, fopFn, fillBuffer, if_true, List.length_append,
        List.length_singleton, length_snprintf (show (decimal fop).length < 10 by omega),
        OptRec.xlen, OptRec.excess]
      omega
  | uint32 nr =>
      have hdigits : (decimal nr).length ≤ 10 := length_decimalOf_le 10 nr
      simp only [OptRec.convert, numberFn, fillBuffer, if_true, List.length_append,
        List.length_singleton, length_snprintf (show (decimal nr).length < 20 by omega),
        OptRec.xlen, OptRec.excess]
      omega
  | entry uuid bname =>
      simp only [OptRec.convert, entryFn, fillBuffer, if_true, List.length_append,
        List.length_singleton, length_uuidUtoa, OptRec.xlen, OptRec.excess]
      omega

/-- The loop over the optional records. -/
theorem length_writeXtra (xtra : List OptRec) (buffer : List Byte) :
    ((changelogEncodeWriteXtra true xtra buffer).length : ℤ)
      = buffer.length + (xtra.map OptRec.xlen).sum + (xtra.map OptRec.excess).sum := by
  induction xtra generalizing buffer with
  | nil => simp [changelogEncodeWriteXtra]
  | cons co rest ih =>
      rw [changelogEncodeWriteXtra, ih, length_convert_ascii, List.map_cons, List.sum_cons,
        List.map_cons, List.sum_cons]
      push_cast
      ring

theorem length_changelogEncodeAscii (cld : LogData) :
    ((changelogEncodeAscii cld).length : ℤ)
      = 38 + cld.cldPtrLen + (cld.xtra.map OptRec.excess).sum := by
  simp only [changelogEncodeAscii, LogData.cldPtrLen]
  rw [fillBuffer, List.length_append, Nat.cast_add, length_writeXtra]
  simp only [fillBuffer, List.length_append, List.length_singleton, List.length_nil,
    length_uuidUtoa]
  push_cast
  ring

/-! ## What stays within the buffer -/

/-- **The ASCII encoder stays within its buffer** if and only if the digits beyond three of each
number, and two bytes for each parent and name, are at most eight bytes together. -/
theorem ascii_within_buffer_iff (cld : LogData) :
    (changelogEncodeAscii cld).length ≤ asciiBuffer cld
      ↔ (cld.xtra.map OptRec.excess).sum ≤ 8 := by
  have hlength := length_changelogEncodeAscii cld
  rw [asciiBuffer, length_uuidUtoa]
  omega

/-- The optional record of a record that is built. -/
def OptRec.of : Opt → Option OptRec
  | .fop number => if h : number < 49 then some (.fop ⟨number, h⟩) else none
  | .uint32 number => some (.uint32 number)
  | .entry e => some (.entry e.pargfid e.bname.bytes)

/-- The data of a record that the translator builds. -/
def LogData.of (r : Ascii.Record) : LogData := ⟨r.type, r.gfid, r.xtra.filterMap OptRec.of⟩

/-- **A `create` runs over the buffer**, by a user and in a group with ten digits. -/
theorem create_beyond_buffer :
    (changelogEncodeAscii (.of createA)).length = 108 ∧ asciiBuffer (.of createA) = 99 := by
  decide +kernel

end GlusterFS.Changelog.Encode
