import Mathlib
import GlusterFS.Lib.TextFields

/-!
# Changelog records in ASCII

The changelog translator writes its records with `changelog_encode_ascii`; another program reads the
file with `gf_changelog_parse_ascii` and writes one line for each record.  The two agree through NUL
bytes between the parts of a record and through two tables, which give for a file operation the number
of its numbers and the number of its parent/name pairs.

The module models both sides byte by byte.  A write behind the end of a buffer makes the result
`none`, on either side.

**Round trip** (`roundTrip_iff`): writing a list of records and parsing the file succeeds, with exactly
the lines of the records in their order, if and only if all records **fit the buffer** of the writer;
and the line of a record determines the record.  The buffer is allocated with four bytes for each
number, but a number is written with up to ten digits: a record of `create` with a user and a group of
ten digits each is written behind the end of the buffer (`create_overflows`).
-/

namespace GlusterFS.Changelog.Ascii

open TextFields

/-! ## Records -/

/-- A `uuid_t`, by the parts that `uuid_unparse` separates. -/
structure Uuid where
  timeLow : Fin 4 → Byte
  timeMid : Fin 2 → Byte
  timeHi : Fin 2 → Byte
  clockSeq : Fin 2 → Byte
  node : Fin 6 → Byte
  deriving DecidableEq

/-- `uuid_utoa`. -/
def uuidUtoa (u : Uuid) : List Byte :=
  hexBytes (List.ofFn u.timeLow) ++ 45 :: (hexBytes (List.ofFn u.timeMid) ++
    45 :: (hexBytes (List.ofFn u.timeHi) ++ 45 :: (hexBytes (List.ofFn u.clockSeq) ++
      45 :: hexBytes (List.ofFn u.node))))

/-- A base name. -/
structure BaseName where
  bytes : List Byte
  valid : ∀ b ∈ bytes, b ≠ 0 ∧ b ≠ 47
  pos : 0 < bytes.length
  le_max : bytes.length ≤ 255

/-- A parent and a name in it, `changelog_entry_fields`. -/
structure Entry where
  pargfid : Uuid
  bname : BaseName

/-- The names of the file operations, `gf_fop_list` in the order of `glusterfs_fop_t`. -/
def gfFopList : List String :=
  ["NULL", "STAT", "READLINK", "MKNOD", "MKDIR", "UNLINK", "RMDIR", "SYMLINK", "RENAME", "LINK",
    "TRUNCATE", "OPEN", "READ", "WRITE", "STATFS", "FLUSH", "FSYNC", "SETXATTR", "GETXATTR",
    "REMOVEXATTR", "OPENDIR", "FSYNCDIR", "ACCESS", "CREATE", "FTRUNCATE", "FSTAT", "LK", "LOOKUP",
    "READDIR", "INODELK", "FINODELK", "ENTRYLK", "FENTRYLK", "XATTROP", "FXATTROP", "FGETXATTR",
    "FSETXATTR", "RCHECKSUM", "SETATTR", "FSETATTR", "READDIRP", "FORGET", "RELEASE", "RELEASEDIR",
    "GETSPEC", "FREMOVEXATTR", "FALLOCATE", "DISCARD", "ZEROFILL"]

/-- The bytes of a string. -/
def toBytes (s : String) : List Byte := s.toList.map fun c => Fin.ofNat 256 c.toNat

/-- `gf_fop_list[fop]`. -/
def fopName (fop : ℕ) : Option (List Byte) := gfFopList[fop]?.map toBytes

/-- `nr_extra_recs`. -/
def nrExtraRecs (fop : ℕ) : ℕ := if fop = 3 ∨ fop = 4 ∨ fop = 23 then 3 else 0

/-- `nr_gfids`. -/
def nrGfids (fop : ℕ) : ℕ :=
  if fop = 8 then 2
  else if fop = 3 ∨ fop = 4 ∨ fop = 5 ∨ fop = 6 ∨ fop = 7 ∨ fop = 9 ∨ fop = 23 then 1 else 0

/-- The operations with three numbers. -/
inductive MakeOp where
  | mknod
  | mkdir
  | create
  deriving DecidableEq

def MakeOp.fop : MakeOp → ℕ
  | .mknod => 3
  | .mkdir => 4
  | .create => 23

/-- The other operations with one entry. -/
inductive EntryOp where
  | unlink
  | rmdir
  | symlink
  | link
  deriving DecidableEq

def EntryOp.fop : EntryOp → ℕ
  | .unlink => 5
  | .rmdir => 6
  | .symlink => 7
  | .link => 9

/-- The records that the translator builds. -/
inductive Record where
  | data (gfid : Uuid)
  | metadata (gfid : Uuid) (fop : Fin 49)
  | make (gfid : Uuid) (op : MakeOp) (mode uid gid : Fin (2 ^ 32)) (entry : Entry)
  | entry (gfid : Uuid) (op : EntryOp) (entry : Entry)
  | rename (gfid : Uuid) (old new : Entry)

theorem MakeOp.fop_lt (op : MakeOp) : op.fop < 49 := by cases op <;> decide

theorem EntryOp.fop_lt (op : EntryOp) : op.fop < 49 := by cases op <;> decide

theorem MakeOp.fop_inj {op op' : MakeOp} (h : op.fop = op'.fop) : op = op' := by
  cases op <;> cases op' <;> first | rfl | cases h

theorem EntryOp.fop_inj {op op' : EntryOp} (h : op.fop = op'.fop) : op = op' := by
  cases op <;> cases op' <;> first | rfl | cases h

/-! ## Writing -/

/-- An extra record, `changelog_opt_t`. -/
inductive Opt where
  | fop (number : ℕ)
  | uint32 (number : Fin (2 ^ 32))
  | entry (entry : Entry)

/-- `fop_fn`, `number_fn` and `entry_fn`. -/
def Opt.convert : Opt → List Byte
  | .fop number => decimal number
  | .uint32 number => decimal number
  | .entry e => uuidUtoa e.pargfid ++ 47 :: e.bname.bytes

/-- What `CHANGELOG_FILL_*` adds to `xtra_len`. -/
def Opt.xlen : Opt → ℕ
  | .fop _ | .uint32 _ => 4
  | .entry e => 36 + e.bname.bytes.length

def Record.gfid : Record → Uuid
  | .data gfid | .metadata gfid _ | .make gfid .. | .entry gfid .. | .rename gfid .. => gfid

/-- `priv->maps` at the type of the record. -/
def Record.type : Record → Byte
  | .data _ => 68
  | .metadata _ _ => 77
  | .make .. | .entry .. | .rename .. => 69

/-- The extra records, in the order in which the translator fills them in. -/
def Record.xtra : Record → List Opt
  | .data _ => []
  | .metadata _ fop => [.fop fop]
  | .make _ op mode uid gid e => [.fop op.fop, .uint32 mode, .uint32 uid, .uint32 gid, .entry e]
  | .entry _ op e => [.fop op.fop, .entry e]
  | .rename _ old new => [.fop 8, .entry old, .entry new]

/-- The bytes that `changelog_encode_ascii` puts into its buffer. -/
def Record.text (r : Record) : List Byte :=
  r.type :: (uuidUtoa r.gfid ++ fieldText 0 (r.xtra.map Opt.convert) ++ [0])

/-- `changelog_encode_ascii`, with the buffer that it allocates. -/
def changelogEncodeAscii (r : Record) : Option (List Byte) :=
  if r.text.length ≤ (uuidUtoa r.gfid).length + (r.xtra.map Opt.xlen).sum + 10 then some r.text
  else none

/-- The file behind its header. -/
def encodeAll (rs : List Record) : Option (List Byte) :=
  (rs.mapM changelogEncodeAscii).map List.flatten

/-! ## Parsing -/

/-- `VERIFY_SEPARATOR`. -/
def verifySeparator (mover : List Byte) (plen : ℕ) : Bool := mover[plen]? = some 0

/-- The numbers of an entry: `ng` texts, each behind a separator. -/
def parseNumbers : ℕ → List Byte → List Byte → Option (List Byte × List Byte)
  | 0, mover, ascii => some (mover, ascii)
  | ng + 1, mover, ascii =>
      let mover := mover.drop 1
      let text := upTo 0 mover
      if verifySeparator mover text.length then
        parseNumbers ng (mover.drop text.length) (ascii ++ 32 :: text)
      else none

/-- The parent/name pairs.  `eptr` has three bytes for each byte of the text. -/
def parseGfids : ℕ → List Byte → List Byte → Option (List Byte × List Byte)
  | 0, mover, ascii => some (mover, ascii)
  | ng + 1, mover, ascii =>
      let mover := mover.drop 1
      let text := upTo 0 mover
      if verifySeparator mover text.length ∧ (percentEncode text).length + 1 ≤ 3 * text.length then
        parseGfids ng (mover.drop text.length) (ascii ++ 32 :: percentEncode text)
      else none

/-- The target gfid, and the separator behind it if `fop` follows. -/
def parseGfid (mover ascii : List Byte) : Option (List Byte × List Byte) :=
  if verifySeparator mover 36 then some (mover.drop 36, ascii ++ upTo 0 mover) else none

/-- The number of the file operation, for its name. -/
def parseFop (mover ascii : List Byte) : Option (ℕ × List Byte × List Byte) :=
  let mover := mover.drop 1
  let text := upTo 0 mover
  if verifySeparator mover text.length then
    (fopName (atoi text)).map fun name =>
      (atoi text, mover.drop text.length, ascii ++ 32 :: name)
  else none

/-- The body of the loop: the line and where the record ends. -/
def parseRecord (mover : List Byte) : Option (List Byte × List Byte) := do
  let current ← mover.head?
  let (mover, ascii) ← parseGfid (mover.drop 1) [current, 32]
  if current = 68 then some (mover, ascii)
  else if current = 77 then
    let (_, mover, ascii) ← parseFop mover ascii
    some (mover, ascii)
  else if current = 69 then
    let (fop, mover, ascii) ← parseFop mover ascii
    let (mover, ascii) ← parseNumbers (nrExtraRecs fop) mover ascii
    parseGfids (nrGfids fop) mover ascii
  else none

/-- The loop, with the lines written so far; `ascii` has `LINE_BUFSIZE` bytes. -/
def parseLoop : ℕ → List Byte → List (List Byte) → Bool × List (List Byte)
  | _, [], lines => (true, lines)
  | 0, _ :: _, lines => (false, lines)
  | fuel + 1, b :: mover, lines =>
      match parseRecord (b :: mover) with
      | some (rest, ascii) =>
          if ascii.length + 1 ≤ 3 * 4096 then parseLoop fuel (rest.drop 1) (lines ++ [ascii ++ [10]])
          else (false, lines)
      | none => (false, lines)

/-- `gf_changelog_parse_ascii`: whether it succeeds, and what it has written. -/
def gfChangelogParseAscii (file : List Byte) (startOffset : ℕ) : Bool × List (List Byte) :=
  parseLoop file.length (file.drop startOffset) []

/-! ## The lines -/

/-- An extra record in a line. -/
def Opt.field : Opt → List Byte
  | .fop number => (fopName number).getD []
  | .uint32 number => decimal number
  | .entry e => percentEncode (uuidUtoa e.pargfid ++ 47 :: e.bname.bytes)

/-- **The line of a record**: type, gfid, name of the operation, numbers and encoded pairs. -/
def Record.line (r : Record) : List Byte :=
  r.type :: (fieldText 32 (uuidUtoa r.gfid :: r.xtra.map Opt.field) ++ [10])

/-- Writing and parsing succeeds, with one line for each record. -/
def RoundTrip (header : List Byte) (rs : List Record) : Prop :=
  ∃ bytes, encodeAll rs = some bytes ∧
    gfChangelogParseAscii (header ++ bytes) header.length = (true, rs.map Record.line)

/-- The digits of the operation and of the three numbers are at most `18`. -/
def Record.Fits : Record → Prop
  | .make _ op mode uid gid _ => (decimal op.fop).length + (decimal mode).length +
      (decimal uid).length + (decimal gid).length ≤ 18
  | _ => True

/-! ## Texts without NUL and blank -/

theorem unreserved_hexDigit : ∀ n < 16, unreserved (hexDigit 87 n) = true := by decide +kernel

theorem unreserved_hexByte (b : Byte) : ∀ c ∈ hexByte 87 b, unreserved c = true := by
  have hb := b.isLt
  intro c hc
  rcases List.mem_cons.mp hc with rfl | hc
  · exact unreserved_hexDigit _ (by omega)
  · rw [List.mem_singleton.mp hc]
    exact unreserved_hexDigit _ (by omega)

theorem unreserved_hexBytes (bytes : List Byte) : ∀ c ∈ hexBytes bytes, unreserved c = true := by
  intro c hc
  obtain ⟨b, -, hb⟩ := List.mem_flatMap.mp hc
  exact unreserved_hexByte b c hb

theorem unreserved_uuidUtoa (u : Uuid) : ∀ c ∈ uuidUtoa u, unreserved c = true := by
  intro c hc
  simp only [uuidUtoa, List.mem_append, List.mem_cons] at hc
  rcases hc with hc | rfl | hc | rfl | hc | rfl | hc | rfl | hc
  all_goals first | rfl | exact unreserved_hexBytes _ c hc

theorem not_mem_uuidUtoa {c : Byte} (hc : unreserved c = false) (u : Uuid) : c ∉ uuidUtoa u := by
  intro hmem
  rw [unreserved_uuidUtoa u c hmem] at hc
  cases hc

theorem length_uuidUtoa (u : Uuid) : (uuidUtoa u).length = 36 := by
  simp [uuidUtoa, length_hexBytes]

theorem uuidUtoa_inj {u v : Uuid} (h : uuidUtoa u = uuidUtoa v) : u = v := by
  have hlength : ∀ {n : ℕ} (f g : Fin n → Byte),
      (hexBytes (List.ofFn f)).length = (hexBytes (List.ofFn g)).length := by
    intro n f g
    rw [length_hexBytes, length_hexBytes, List.length_ofFn, List.length_ofFn]
  have hpart : ∀ {n : ℕ} {f g : Fin n → Byte}, hexBytes (List.ofFn f) = hexBytes (List.ofFn g) →
      f = g := fun h => List.ofFn_injective (hexBytes_inj h)
  rw [uuidUtoa, uuidUtoa] at h
  obtain ⟨h₁, h⟩ := List.append_inj h (hlength _ _)
  obtain ⟨h₂, h⟩ := List.append_inj (List.cons.inj h).2 (hlength _ _)
  obtain ⟨h₃, h⟩ := List.append_inj (List.cons.inj h).2 (hlength _ _)
  obtain ⟨h₄, h⟩ := List.append_inj (List.cons.inj h).2 (hlength _ _)
  have h₅ := (List.cons.inj h).2
  obtain ⟨a, b, c, d, e⟩ := u
  obtain ⟨a', b', c', d', e'⟩ := v
  rw [Uuid.mk.injEq]
  exact ⟨hpart h₁, hpart h₂, hpart h₃, hpart h₄, hpart h₅⟩

theorem nul_not_mem_convert (o : Opt) : (0 : Byte) ∉ o.convert := by
  cases o with
  | fop n => exact not_mem_decimal rfl n
  | uint32 n => exact not_mem_decimal rfl n
  | entry e =>
      intro hmem
      rcases List.mem_append.mp hmem with hmem | hmem
      · exact not_mem_uuidUtoa rfl e.pargfid hmem
      · rcases List.mem_cons.mp hmem with hmem | hmem
        · cases hmem
        · exact (e.bname.valid 0 hmem).1 rfl

theorem fopName_blank : ∀ n < 49, (32 : Byte) ∉ (fopName n).getD [] := by decide +kernel

/-- A number for a name, different for the names of all operations. -/
def nameKey (name : List Byte) : ℕ := name.foldl (fun k b => (k * 16 + b.val) % 181) 0

theorem nameKey_fopName : (List.range 49).map (fun n => nameKey ((fopName n).getD [])) =
    [88, 53, 82, 158, 50, 118, 167, 3, 12, 77, 98, 79, 65, 78, 110, 43, 151, 96, 130, 155, 152,
        34, 38, 83, 62, 128, 24, 173, 4, 122, 165, 174, 36, 135, 178, 94, 60, 73, 1, 44,
        144, 67, 13, 49, 120, 33, 170, 180, 169] := by
  decide +kernel

theorem fopName_inj {m n : ℕ} (hm : m < 49) (hn : n < 49)
    (h : (fopName m).getD [] = (fopName n).getD []) : m = n := by
  have hnodup : ((List.range 49).map fun n => nameKey ((fopName n).getD [])).Nodup := by
    rw [nameKey_fopName]
    decide
  exact List.inj_on_of_nodup_map hnodup (List.mem_range.mpr hm) (List.mem_range.mpr hn)
    (congrArg nameKey h)

theorem fopName_isSome : ∀ n < 49, fopName n = some ((fopName n).getD []) := by decide +kernel

/-! ## Parsing what was written -/

variable {x rest ascii : List Byte}

theorem verifySeparator_append (x rest : List Byte) :
    verifySeparator (x ++ 0 :: rest) x.length = true := by
  rw [verifySeparator, List.getElem?_append_right le_rfl, Nat.sub_self]
  rfl

/-- Behind a text comes a separator. -/
theorem fieldText_append_nul (texts : List (List Byte)) (rest : List Byte) :
    ∃ tail, fieldText 0 texts ++ 0 :: rest = 0 :: tail := by
  cases texts with
  | nil => exact ⟨rest, rfl⟩
  | cons x texts => exact ⟨x ++ fieldText 0 texts ++ 0 :: rest, rfl⟩

theorem fieldText_cons (sep : Byte) (x : List Byte) (texts : List (List Byte)) :
    fieldText sep (x :: texts) = sep :: (x ++ fieldText sep texts) := rfl

theorem parseNumbers_fieldText (texts : List (List Byte)) (hnul : ∀ x ∈ texts, (0 : Byte) ∉ x)
    (rest ascii : List Byte) :
    parseNumbers texts.length (fieldText 0 texts ++ 0 :: rest) ascii =
      some (0 :: rest, ascii ++ fieldText 32 texts) := by
  induction texts generalizing ascii with
  | nil =>
      rw [fieldText, fieldText, List.flatMap_nil, List.flatMap_nil, List.append_nil]
      rfl
  | cons x texts ih =>
      obtain ⟨tail, htail⟩ := fieldText_append_nul texts rest
      rw [List.length_cons, parseNumbers, fieldText_cons, List.cons_append, List.drop_one,
        List.tail_cons, List.append_assoc, htail, upTo_append (hnul x List.mem_cons_self),
        if_pos (verifySeparator_append x tail), List.drop_left, ← htail,
        ih fun y hy => hnul y (List.mem_cons_of_mem _ hy), fieldText_cons, List.append_assoc]
      rfl

theorem parseGfids_fieldText (texts : List (List Byte)) (hnul : ∀ x ∈ texts, (0 : Byte) ∉ x)
    (hroom : ∀ x ∈ texts, (percentEncode x).length + 1 ≤ 3 * x.length) (rest ascii : List Byte) :
    parseGfids texts.length (fieldText 0 texts ++ 0 :: rest) ascii =
      some (0 :: rest, ascii ++ fieldText 32 (texts.map percentEncode)) := by
  induction texts generalizing ascii with
  | nil =>
      rw [fieldText, fieldText, List.flatMap_nil, List.map_nil, List.flatMap_nil, List.append_nil]
      rfl
  | cons x texts ih =>
      obtain ⟨tail, htail⟩ := fieldText_append_nul texts rest
      rw [List.length_cons, parseGfids, fieldText_cons, List.cons_append, List.drop_one,
        List.tail_cons, List.append_assoc, htail, upTo_append (hnul x List.mem_cons_self),
        if_pos ⟨verifySeparator_append x tail, hroom x List.mem_cons_self⟩, List.drop_left, ← htail,
        ih (fun y hy => hnul y (List.mem_cons_of_mem _ hy))
          (fun y hy => hroom y (List.mem_cons_of_mem _ hy)), List.map_cons, fieldText_cons,
        List.append_assoc]
      rfl

theorem parseFop_decimal {n : ℕ} (hn : n < 49) (rest ascii : List Byte) :
    parseFop (0 :: (decimal n ++ 0 :: rest)) ascii =
      some (n, 0 :: rest, ascii ++ 32 :: (fopName n).getD []) := by
  have hsmall : n < 10 ^ 10 := hn.trans (by norm_num)
  rw [parseFop, List.drop_one, List.tail_cons, upTo_append (not_mem_decimal rfl n),
    if_pos (verifySeparator_append _ rest), atoi_decimal hsmall, List.drop_left]
  nth_rewrite 1 [fopName_isSome n hn]
  rfl

theorem parseGfid_uuidUtoa (u : Uuid) (rest ascii : List Byte) :
    parseGfid (uuidUtoa u ++ 0 :: rest) ascii = some (0 :: rest, ascii ++ uuidUtoa u) := by
  have hsep := verifySeparator_append (uuidUtoa u) rest
  have hdrop : (uuidUtoa u ++ 0 :: rest).drop (uuidUtoa u).length = 0 :: rest := List.drop_left
  rw [length_uuidUtoa] at hsep hdrop
  rw [parseGfid, if_pos hsep, upTo_append (not_mem_uuidUtoa rfl u), hdrop]

/-- The buffer of the encoded pair is large enough, since the gfid is not encoded. -/
theorem length_percentEncode_entry (e : Entry) :
    (percentEncode (Opt.entry e).convert).length + 1 ≤ 3 * (Opt.entry e).convert.length := by
  have hname := length_percentEncode_le (47 :: e.bname.bytes)
  rw [Opt.convert, percentEncode_append, percentEncode_eq_self (unreserved_uuidUtoa e.pargfid),
    List.length_append, List.length_append, length_uuidUtoa]
  omega

/-- The line without its newline. -/
def Record.body (r : Record) : List Byte :=
  r.type :: fieldText 32 (uuidUtoa r.gfid :: r.xtra.map Opt.field)

/-- The body of an entry record: the operation, its numbers and its pairs. -/
theorem parseRecord_entry (gfid : Uuid) {n : ℕ} (hn : n < 49) (numbers : List (Fin (2 ^ 32)))
    (entries : List Entry) (hnumbers : nrExtraRecs n = numbers.length)
    (hentries : nrGfids n = entries.length) (rest : List Byte) :
    parseRecord (69 :: (uuidUtoa gfid ++ fieldText 0 ((.fop n :: (numbers.map .uint32 ++
        entries.map .entry)).map Opt.convert) ++ 0 :: rest)) =
      some (0 :: rest, 69 :: fieldText 32 (uuidUtoa gfid :: (.fop n :: (numbers.map .uint32 ++
        entries.map .entry)).map Opt.field)) := by
  have hnul : ∀ opts : List Opt, ∀ x ∈ opts.map Opt.convert, (0 : Byte) ∉ x := by
    intro opts x hx
    obtain ⟨o, -, rfl⟩ := List.mem_map.mp hx
    exact nul_not_mem_convert o
  have hfields : ∀ (f : Opt → List Byte) (sep : Byte),
      fieldText sep ((Opt.fop n :: (numbers.map .uint32 ++ entries.map .entry)).map f) =
        sep :: (f (.fop n) ++ (fieldText sep ((numbers.map .uint32).map f) ++
          fieldText sep ((entries.map .entry).map f))) := by
    intro f sep
    rw [List.map_cons, List.map_append, fieldText_cons, fieldText, List.flatMap_append]
    rfl
  obtain ⟨tail, htail⟩ := fieldText_append_nul ((entries.map .entry).map Opt.convert) rest
  obtain ⟨tail', htail'⟩ := fieldText_append_nul ((numbers.map .uint32).map Opt.convert) tail
  have hgfid := parseGfid_uuidUtoa gfid (decimal n ++ 0 :: tail') [69, 32]
  have hfop := parseFop_decimal hn tail' ([69, 32] ++ uuidUtoa gfid)
  have hnums := parseNumbers_fieldText ((numbers.map .uint32).map Opt.convert) (hnul _) tail
    ([69, 32] ++ uuidUtoa gfid ++ 32 :: (fopName n).getD [])
  have hpairs := parseGfids_fieldText ((entries.map .entry).map Opt.convert) (hnul _) (by
    intro x hx
    obtain ⟨o, ho, rfl⟩ := List.mem_map.mp hx
    obtain ⟨e, -, rfl⟩ := List.mem_map.mp ho
    exact length_percentEncode_entry e) rest ([69, 32] ++ uuidUtoa gfid ++
      32 :: (fopName n).getD [] ++ fieldText 32 ((numbers.map .uint32).map Opt.convert))
  rw [List.length_map, List.length_map, ← hnumbers, htail'] at hnums
  rw [List.length_map, List.length_map, ← hentries, htail] at hpairs
  have hmover : uuidUtoa gfid ++ fieldText 0 ((Opt.fop n :: (numbers.map .uint32 ++
      entries.map .entry)).map Opt.convert) ++ 0 :: rest =
        uuidUtoa gfid ++ 0 :: (decimal n ++ 0 :: tail') := by
    rw [hfields, ← htail', ← htail]
    simp only [Opt.convert, List.append_assoc, List.cons_append]
  have hencode : ((entries.map .entry).map Opt.convert).map percentEncode =
      (entries.map .entry).map Opt.field := by
    rw [List.map_map, List.map_map, List.map_map]
    rfl
  have hplain : (numbers.map .uint32).map Opt.convert = (numbers.map .uint32).map Opt.field := by
    rw [List.map_map, List.map_map]
    rfl
  rw [hmover, parseRecord]
  simp only [List.head?_cons, Option.bind_eq_bind, Option.bind_some, List.drop_one, List.tail_cons,
    hgfid, hfop, hnums, hpairs]
  rw [if_neg (by decide), if_neg (by decide), if_pos trivial, hencode, hplain, fieldText_cons, hfields]
  simp only [Opt.field, List.append_assoc, List.cons_append, List.nil_append]

theorem parseRecord_text (r : Record) (rest : List Byte) :
    parseRecord (r.text ++ rest) = some (0 :: rest, r.body) := by
  have htext : r.text ++ rest = r.type ::
      (uuidUtoa r.gfid ++ fieldText 0 (r.xtra.map Opt.convert) ++ 0 :: rest) := by
    rw [Record.text, List.cons_append, List.append_assoc]
    rfl
  rw [htext]
  cases r with
  | data gfid =>
      have hgfid := parseGfid_uuidUtoa gfid rest [68, 32]
      change parseRecord (68 :: (uuidUtoa gfid ++ [] ++ 0 :: rest)) = _
      rw [List.append_nil, parseRecord]
      simp only [List.head?_cons, Option.bind_eq_bind, Option.bind_some, List.drop_one,
        List.tail_cons, hgfid]
      rw [if_pos trivial]
      exact congrArg (fun l => some (0 :: rest, 68 :: 32 :: l)) (List.append_nil _).symm
  | metadata gfid fop =>
      have hgfid := parseGfid_uuidUtoa gfid (decimal fop ++ 0 :: rest) [77, 32]
      have hfop := parseFop_decimal fop.isLt rest ([77, 32] ++ uuidUtoa gfid)
      have hmover : uuidUtoa gfid ++ fieldText 0 [decimal fop] ++ 0 :: rest =
          uuidUtoa gfid ++ 0 :: (decimal fop ++ 0 :: rest) := by
        rw [fieldText_cons, List.append_assoc]
        exact congrArg (fun l => uuidUtoa gfid ++ 0 :: (l ++ 0 :: rest)) (List.append_nil _)
      change parseRecord (77 :: (uuidUtoa gfid ++ fieldText 0 [decimal fop] ++ 0 :: rest)) = _
      rw [hmover, parseRecord]
      simp only [List.head?_cons, Option.bind_eq_bind, Option.bind_some, List.drop_one,
        List.tail_cons, hgfid, hfop]
      rw [if_neg (by decide), if_pos trivial, Record.body, fieldText_cons]
      change _ = some (0 :: rest,
        77 :: 32 :: (uuidUtoa gfid ++ 32 :: ((fopName fop).getD [] ++ [])))
      rw [List.append_nil]
      rfl
  | make gfid op mode uid gid e =>
      have hop : op.fop < 49 ∧ nrExtraRecs op.fop = 3 ∧ nrGfids op.fop = 1 := by
        cases op <;> decide
      exact parseRecord_entry gfid hop.1 [mode, uid, gid] [e] hop.2.1 hop.2.2 rest
  | entry gfid op e =>
      have hop : op.fop < 49 ∧ nrExtraRecs op.fop = 0 ∧ nrGfids op.fop = 1 := by
        cases op <;> decide
      exact parseRecord_entry gfid hop.1 [] [e] hop.2.1 hop.2.2 rest
  | rename gfid old new => exact parseRecord_entry gfid (by decide) [] [old, new] rfl rfl rest

/-! ## The round trip -/

theorem fopName_of_ge {n : ℕ} (hn : 49 ≤ n) : fopName n = none := by
  rw [fopName, List.getElem?_eq_none hn]
  rfl

theorem length_fopName : ∀ n < 49, ((fopName n).getD []).length ≤ 12 := by decide +kernel

theorem length_field_le (o : Opt) : o.field.length ≤ 1000 := by
  cases o with
  | fop n =>
      rcases Nat.lt_or_ge n 49 with hn | hn
      · exact (length_fopName n hn).trans (by norm_num)
      · rw [Opt.field, fopName_of_ge hn]
        exact Nat.zero_le _
  | uint32 n => exact (length_decimalOf_le 10 n).trans (by norm_num)
  | entry e =>
      have hencoded := length_percentEncode_le (uuidUtoa e.pargfid ++ 47 :: e.bname.bytes)
      have hname := e.bname.le_max
      rw [List.length_append, List.length_cons, length_uuidUtoa] at hencoded
      rw [Opt.field]
      omega

theorem length_fieldText_le (sep : Byte) {m : ℕ} (fields : List (List Byte))
    (h : ∀ x ∈ fields, x.length ≤ m) :
    (fieldText sep fields).length ≤ fields.length * (m + 1) := by
  induction fields with
  | nil => exact Nat.zero_le _
  | cons x fields ih =>
      have hx := h x List.mem_cons_self
      have hrest := ih fun y hy => h y (List.mem_cons_of_mem _ hy)
      rw [fieldText_cons, List.length_cons, List.length_append, List.length_cons, Nat.succ_mul]
      omega

/-- The line fits into `ascii`. -/
theorem length_body_le (r : Record) : r.body.length + 1 ≤ 3 * 4096 := by
  have hfields : ∀ x ∈ uuidUtoa r.gfid :: r.xtra.map Opt.field, x.length ≤ 1000 := by
    intro x hx
    rcases List.mem_cons.mp hx with rfl | hx
    · rw [length_uuidUtoa]
      norm_num
    · obtain ⟨o, -, rfl⟩ := List.mem_map.mp hx
      exact length_field_le o
  have hxtra : r.xtra.length ≤ 5 := by
    cases r <;> simp [Record.xtra]
  have hlength := length_fieldText_le 32 _ hfields
  rw [List.length_cons, List.length_map] at hlength
  rw [Record.body, List.length_cons]
  omega

theorem parseLoop_texts (rs : List Record) {fuel : ℕ} (hfuel : rs.length ≤ fuel)
    (lines : List (List Byte)) :
    parseLoop fuel (rs.flatMap Record.text) lines = (true, lines ++ rs.map Record.line) := by
  induction rs generalizing fuel lines with
  | nil =>
      rw [List.flatMap_nil, List.map_nil, List.append_nil]
      cases fuel <;> rfl
  | cons r rs ih =>
      obtain ⟨fuel, rfl⟩ : ∃ k, fuel = k + 1 := ⟨fuel - 1, by rw [List.length_cons] at hfuel; omega⟩
      have hparse := parseRecord_text r (rs.flatMap Record.text)
      rw [List.flatMap_cons]
      rw [Record.text, List.cons_append] at hparse ⊢
      rw [parseLoop, hparse]
      dsimp only
      rw [if_pos (length_body_le r), List.drop_one, List.tail_cons,
        ih (Nat.le_of_succ_le_succ hfuel), List.append_assoc]
      rfl

theorem length_text_pos (r : Record) : 0 < r.text.length := Nat.succ_pos _

theorem length_le_flatMap (rs : List Record) : rs.length ≤ (rs.flatMap Record.text).length := by
  induction rs with
  | nil => exact le_rfl
  | cons r rs ih =>
      rw [List.flatMap_cons, List.length_append, List.length_cons]
      have := length_text_pos r
      omega

theorem length_decimal_fop : ∀ n < 49, (decimal n).length ≤ 2 := by decide +kernel

theorem length_fieldText (sep : Byte) (opts : List Opt) :
    (fieldText sep (opts.map Opt.convert)).length =
      (opts.map fun o => o.convert.length + 1).sum := by
  induction opts with
  | nil => rfl
  | cons o opts ih =>
      rw [List.map_cons, fieldText_cons, List.length_cons, List.length_append, ih, List.map_cons,
        List.sum_cons]
      omega

theorem length_text (r : Record) :
    r.text.length = 38 + (r.xtra.map fun o => o.convert.length + 1).sum := by
  rw [Record.text, List.length_cons, List.length_append, List.length_append, length_fieldText,
    length_uuidUtoa, List.length_singleton]
  omega

theorem length_convert_entry (e : Entry) :
    (Opt.entry e).convert.length = 37 + e.bname.bytes.length := by
  rw [Opt.convert, List.length_append, List.length_cons, length_uuidUtoa]
  omega

/-- **What fits the buffer.** -/
theorem fits_iff (r : Record) : r.text.length ≤
    (uuidUtoa r.gfid).length + (r.xtra.map Opt.xlen).sum + 10 ↔ r.Fits := by
  rw [length_text, length_uuidUtoa]
  cases r with
  | data gfid => exact iff_of_true (show 38 + 0 ≤ 36 + 0 + 10 by decide) trivial
  | metadata gfid fop =>
      have hfop : (Opt.fop fop).convert.length ≤ 2 := length_decimal_fop fop fop.isLt
      simp only [Record.xtra, Record.Fits, List.map_cons, List.map_nil, Opt.xlen, List.sum_cons,
        List.sum_nil, iff_true]
      omega
  | make gfid op mode uid gid e =>
      simp only [Record.xtra, Record.Fits, List.map_cons, List.map_nil, Opt.xlen, List.sum_cons,
        List.sum_nil, length_convert_entry]
      simp only [Opt.convert]
      omega
  | entry gfid op e =>
      have hop : (Opt.fop op.fop).convert.length ≤ 2 := by cases op <;> decide
      simp only [Record.xtra, Record.Fits, List.map_cons, List.map_nil, Opt.xlen, List.sum_cons,
        List.sum_nil, length_convert_entry, iff_true]
      omega
  | rename gfid old new =>
      have hop : (Opt.fop 8).convert.length ≤ 2 := by decide
      simp only [Record.xtra, Record.Fits, List.map_cons, List.map_nil, Opt.xlen, List.sum_cons,
        List.sum_nil, length_convert_entry, iff_true]
      omega

theorem encode_eq_some_iff (r : Record) (bytes : List Byte) :
    changelogEncodeAscii r = some bytes ↔ r.Fits ∧ bytes = r.text := by
  rw [changelogEncodeAscii]
  by_cases hfits : r.Fits
  · rw [if_pos ((fits_iff r).mpr hfits), Option.some.injEq, eq_comm]
    exact (and_iff_right hfits).symm
  · rw [if_neg fun h => hfits ((fits_iff r).mp h)]
    constructor
    · intro h
      cases h
    · exact fun h => absurd h.1 hfits

theorem mapM_encode_iff (rs : List Record) (texts : List (List Byte)) :
    rs.mapM changelogEncodeAscii = some texts ↔
      (∀ r ∈ rs, r.Fits) ∧ texts = rs.map Record.text := by
  induction rs generalizing texts with
  | nil =>
      rw [List.mapM_nil]
      constructor
      · intro h
        exact ⟨fun r hr => absurd hr List.not_mem_nil, (Option.some.inj h).symm⟩
      · rintro ⟨-, rfl⟩
        rfl
  | cons r rs ih =>
      rw [List.mapM_cons]
      constructor
      · intro h
        obtain ⟨text, htext, h⟩ := Option.bind_eq_some_iff.mp h
        obtain ⟨rest, hrest, h⟩ := Option.bind_eq_some_iff.mp h
        obtain ⟨hfits, rfl⟩ := (encode_eq_some_iff r text).mp htext
        obtain ⟨hall, rfl⟩ := (ih rest).mp hrest
        refine ⟨fun r' hr' => ?_, (Option.some.inj h).symm⟩
        rcases List.mem_cons.mp hr' with rfl | hr'
        · exact hfits
        · exact hall r' hr'
      · rintro ⟨hall, rfl⟩
        have hhead := (encode_eq_some_iff r r.text).mpr ⟨hall r List.mem_cons_self, rfl⟩
        have htail := (ih (rs.map Record.text)).mpr
          ⟨fun r' hr' => hall r' (List.mem_cons_of_mem _ hr'), rfl⟩
        rw [hhead, htail]
        rfl

theorem encodeAll_eq_some_iff (rs : List Record) (bytes : List Byte) :
    encodeAll rs = some bytes ↔ (∀ r ∈ rs, r.Fits) ∧ bytes = rs.flatMap Record.text := by
  rw [encodeAll, Option.map_eq_some_iff]
  constructor
  · rintro ⟨texts, htexts, rfl⟩
    obtain ⟨hall, rfl⟩ := (mapM_encode_iff rs texts).mp htexts
    exact ⟨hall, List.flatMap_def.symm⟩
  · rintro ⟨hall, rfl⟩
    exact ⟨_, (mapM_encode_iff rs _).mpr ⟨hall, rfl⟩, List.flatMap_def.symm⟩

/-! ## The line determines the record -/

theorem blank_not_mem_field (o : Opt) : (32 : Byte) ∉ o.field := by
  cases o with
  | fop n =>
      rcases Nat.lt_or_ge n 49 with hn | hn
      · exact fopName_blank n hn
      · rw [Opt.field, fopName_of_ge hn]
        exact List.not_mem_nil
  | uint32 n => exact not_mem_decimal rfl n
  | entry e => exact not_mem_percentEncode space_not_mem_encodeByte _

theorem blank_not_mem_fields (r : Record) :
    ∀ x ∈ uuidUtoa r.gfid :: r.xtra.map Opt.field, (32 : Byte) ∉ x := by
  intro x hx
  rcases List.mem_cons.mp hx with rfl | hx
  · exact not_mem_uuidUtoa rfl r.gfid
  · obtain ⟨o, -, rfl⟩ := List.mem_map.mp hx
    exact blank_not_mem_field o

theorem number_inj {m n : Fin (2 ^ 32)} (h : decimal m = decimal n) : m = n :=
  Fin.ext (decimal_inj (m.isLt.trans (by norm_num)) (n.isLt.trans (by norm_num)) h)

theorem entry_inj {e e' : Entry} (h : (Opt.entry e).field = (Opt.entry e').field) : e = e' := by
  have htext := percentEncode_inj h
  obtain ⟨hgfid, hname⟩ := List.append_inj htext (by rw [length_uuidUtoa, length_uuidUtoa])
  obtain ⟨pargfid, bytes, hvalid, hpos, hle⟩ := e
  obtain ⟨pargfid', bytes', hvalid', hpos', hle'⟩ := e'
  obtain rfl := uuidUtoa_inj hgfid
  obtain rfl : bytes = bytes' := (List.cons.inj hname).2
  rfl

/-- **The line determines the record.** -/
theorem line_inj {r r' : Record} (h : r.line = r'.line) : r = r' := by
  obtain ⟨htype, htail⟩ := List.cons.inj h
  have hfields := fieldText_inj (blank_not_mem_fields r) (blank_not_mem_fields r')
    (List.append_cancel_right htail)
  obtain ⟨hgfid, hxtra⟩ := List.cons.inj hfields
  replace hgfid := uuidUtoa_inj hgfid
  cases r with
  | data gfid =>
      cases r' with
      | data gfid' => rw [show gfid = gfid' from hgfid]
      | _ => cases htype
  | metadata gfid fop =>
      cases r' with
      | metadata gfid' fop' =>
          have hfop := fopName_inj fop.isLt fop'.isLt (List.cons.inj hxtra).1
          rw [show gfid = gfid' from hgfid, Fin.ext hfop]
      | _ => cases htype
  | make gfid op mode uid gid e =>
      cases r' with
      | make gfid' op' mode' uid' gid' e' =>
          obtain ⟨hname, hxtra⟩ := List.cons.inj hxtra
          obtain ⟨hmode, hxtra⟩ := List.cons.inj hxtra
          obtain ⟨huid, hxtra⟩ := List.cons.inj hxtra
          obtain ⟨hgid, hxtra⟩ := List.cons.inj hxtra
          have hentry := entry_inj (List.cons.inj hxtra).1
          have hop := MakeOp.fop_inj (fopName_inj op.fop_lt op'.fop_lt hname)
          rw [show gfid = gfid' from hgfid, hop, number_inj hmode, number_inj huid, number_inj hgid,
            hentry]
      | data => cases htype
      | metadata => cases htype
      | entry => cases congrArg List.length hxtra
      | rename => cases congrArg List.length hxtra
  | entry gfid op e =>
      cases r' with
      | entry gfid' op' e' =>
          obtain ⟨hname, hxtra⟩ := List.cons.inj hxtra
          have hentry := entry_inj (List.cons.inj hxtra).1
          have hop := EntryOp.fop_inj (fopName_inj op.fop_lt op'.fop_lt hname)
          rw [show gfid = gfid' from hgfid, hop, hentry]
      | data => cases htype
      | metadata => cases htype
      | make => cases congrArg List.length hxtra
      | rename => cases congrArg List.length hxtra
  | rename gfid old new =>
      cases r' with
      | rename gfid' old' new' =>
          obtain ⟨-, hxtra⟩ := List.cons.inj hxtra
          obtain ⟨hold, hxtra⟩ := List.cons.inj hxtra
          rw [show gfid = gfid' from hgfid, entry_inj hold, entry_inj (List.cons.inj hxtra).1]
      | data => cases htype
      | metadata => cases htype
      | make => cases congrArg List.length hxtra
      | entry => cases congrArg List.length hxtra

/-- **Round trip.**  Writing records and parsing the file succeeds, with exactly the lines of the
records, if and only if every record fits the buffer of the writer; and a line determines its
record. -/
theorem roundTrip_iff (header : List Byte) (rs : List Record) :
    (RoundTrip header rs ↔ ∀ r ∈ rs, r.Fits) ∧
      ∀ r r' : Record, r.line = r'.line → r = r' := by
  refine ⟨⟨?_, fun hfits => ?_⟩, fun r r' => line_inj⟩
  · rintro ⟨bytes, hencode, -⟩
    exact ((encodeAll_eq_some_iff rs bytes).mp hencode).1
  · refine ⟨_, (encodeAll_eq_some_iff rs _).mpr ⟨hfits, rfl⟩, ?_⟩
    rw [gfChangelogParseAscii, List.drop_left, parseLoop_texts rs ?_ [], List.nil_append]
    rw [List.length_append]
    exact (length_le_flatMap rs).trans (Nat.le_add_left _ _)

/-- The null gfid. -/
def nullUuid : Uuid := ⟨fun _ => 0, fun _ => 0, fun _ => 0, fun _ => 0, fun _ => 0⟩

/-- A file `a` in the directory with the null gfid. -/
def entryA : Entry := ⟨nullUuid, ⟨[97], by decide +kernel, by decide, by decide⟩⟩

/-- A regular file that is created by a user and in a group with ten digits. -/
def createA : Record :=
  .make nullUuid .create ⟨33188, by norm_num⟩ ⟨4294967294, by norm_num⟩ ⟨4294967294, by norm_num⟩
    entryA

/-- **The writer runs over its buffer.** -/
theorem create_overflows : changelogEncodeAscii createA = none ∧ ¬ RoundTrip [] [createA] := by
  have hnone : changelogEncodeAscii createA = none := by decide +kernel
  refine ⟨hnone, ?_⟩
  rintro ⟨bytes, hencode, -⟩
  obtain ⟨hfits, -⟩ := (encodeAll_eq_some_iff [createA] bytes).mp hencode
  have hsome := (encode_eq_some_iff createA createA.text).mpr
    ⟨hfits createA List.mem_cons_self, rfl⟩
  rw [hnone] at hsome
  cases hsome

end GlusterFS.Changelog.Ascii
