import GlusterFS.Dict.Table

/-!
# Dictionaries on the wire

`_dict_serialize` writes the count and then, for each pair of `members_list`, the lengths of key
and value, the key with its terminating zero and the value.  All numbers are signed 32-bit words
in network order.  `dict_unserialize` reads such a buffer into a new dictionary.

The buffer of `dict_unserialize` stands at address `0` of a memory that goes on in both
directions.  Its checks compare with the end of the buffer only, and the key is read as a C
string, so what it reads depends on the lengths that the buffer declares; `reads` keeps a record.

The module first shows what one record of a well-formed buffer does (`after_encoded`), and from it
what a whole well-formed buffer does (`iterate_encoded`).  The round trip follows for the
dictionaries that `dict_set` and `dict_del` make.  For a buffer from elsewhere, the records that
pass the checks (`Passes`) are compared with those that are well formed (`IsRecord`).
-/

namespace GlusterFS.Dictionary

open PointerList

/-! ## Words -/

/-- The conversion to `int32_t`. -/
def int32 (n : ℤ) : ℤ := n.bmod (2 ^ 32)

/-- `hton32`, as bytes. -/
def hton32 (n : ℤ) : List UInt8 :=
  let w := (n % 2 ^ 32).toNat
  [.ofNat (w / 2 ^ 24), .ofNat (w / 2 ^ 16), .ofNat (w / 2 ^ 8), .ofNat w]

@[simp] theorem length_hton32 (n : ℤ) : (hton32 n).length = 4 := rfl

/-- `ntoh32`. -/
def ntoh32 (b₀ b₁ b₂ b₃ : UInt8) : ℤ :=
  int32 (b₀.toNat * 2 ^ 24 + b₁.toNat * 2 ^ 16 + b₂.toNat * 2 ^ 8 + b₃.toNat : ℕ)

theorem int32_of_lt {n : ℤ} (h₀ : 0 ≤ n) (h : n < 2 ^ 31) : int32 n = n :=
  Int.bmod_eq_of_le (by omega) (by omega)

theorem int32_int32_add (m n : ℤ) : int32 (int32 m + n) = int32 (m + n) := Int.bmod_add_bmod

/-! ## Memory -/

/-- The memory around a buffer, which stands at `0`; a string ends somewhere. -/
structure Memory where
  read : ℤ → UInt8
  terminated : ∀ p, ∃ n : ℕ, read (p + n) = 0

namespace Memory

variable {mem : Memory} {p : ℤ} {xs ys : List UInt8}

/-- The bytes from `p` on. -/
def bytes (mem : Memory) : ℤ → ℕ → List UInt8
  | _, 0 => []
  | p, n + 1 => mem.read p :: mem.bytes (p + 1) n

/-- A word, as `memcpy` and `ntoh32` read it. -/
def word (mem : Memory) (p : ℤ) : ℤ :=
  ntoh32 (mem.read p) (mem.read (p + 1)) (mem.read (p + 2)) (mem.read (p + 3))

/-- `strlen`. -/
def strlen (mem : Memory) (p : ℤ) : ℕ := Nat.find (mem.terminated p)

/-- These bytes stand at `p`. -/
def Holds (mem : Memory) (p : ℤ) (xs : List UInt8) : Prop := mem.bytes p xs.length = xs

instance (mem : Memory) (p : ℤ) (xs : List UInt8) : Decidable (mem.Holds p xs) :=
  inferInstanceAs (Decidable (mem.bytes p xs.length = xs))

@[simp] theorem length_bytes (mem : Memory) (p : ℤ) (n : ℕ) : (mem.bytes p n).length = n := by
  induction n generalizing p with
  | zero => rfl
  | succ n ih => rw [bytes, List.length_cons, ih]

theorem bytes_add (mem : Memory) (p : ℤ) (m n : ℕ) :
    mem.bytes p (m + n) = mem.bytes p m ++ mem.bytes (p + m) n := by
  induction m generalizing p with
  | zero => simp [bytes]
  | succ m ih =>
      rw [Nat.add_right_comm, bytes, ih, bytes, List.cons_append, Nat.cast_succ, add_assoc,
        add_comm (1 : ℤ)]

theorem holds_bytes (mem : Memory) (p : ℤ) (n : ℕ) : mem.Holds p (mem.bytes p n) := by
  rw [Holds, length_bytes]

theorem holds_append : mem.Holds p (xs ++ ys) ↔ mem.Holds p xs ∧ mem.Holds (p + xs.length) ys := by
  unfold Holds
  rw [List.length_append, bytes_add]
  exact ⟨fun h => List.append_inj h (length_bytes ..), fun h => congrArg₂ _ h.1 h.2⟩

theorem holds_cons {b : UInt8} : mem.Holds p (b :: ys) ↔ mem.read p = b ∧ mem.Holds (p + 1) ys := by
  unfold Holds
  rw [List.length_cons, bytes, List.cons.injEq]

theorem mem_bytes {b : UInt8} {n : ℕ} :
    b ∈ mem.bytes p n ↔ ∃ i : ℕ, i < n ∧ mem.read (p + i) = b := by
  induction n generalizing p with
  | zero => simp [bytes]
  | succ n ih =>
      rw [bytes, List.mem_cons, ih]
      refine ⟨?_, ?_⟩
      · rintro (rfl | ⟨i, hi, rfl⟩)
        · exact ⟨0, n.succ_pos, by simp⟩
        · exact ⟨i + 1, Nat.succ_lt_succ hi, by rw [Nat.cast_succ, add_assoc, add_comm (1 : ℤ)]⟩
      · rintro ⟨i, hi, rfl⟩
        cases i with
        | zero => simp
        | succ i =>
            refine .inr ⟨i, Nat.lt_of_succ_lt_succ hi, ?_⟩
            rw [Nat.cast_succ, add_assoc, add_comm (1 : ℤ)]

/-- The string at `p`. -/
def cString (mem : Memory) (p : ℤ) : Key :=
  ⟨mem.bytes p (mem.strlen p), fun h => by
    obtain ⟨i, hi, hread⟩ := mem_bytes.mp h
    exact Nat.find_min (mem.terminated p) hi hread⟩

theorem read_strlen (mem : Memory) (p : ℤ) : mem.read (p + mem.strlen p) = 0 :=
  Nat.find_spec (mem.terminated p)

/-- A string that stands at `p` with its zero is the string at `p`. -/
theorem cString_of_holds {key : Key} (h : mem.Holds p (key.1 ++ [0])) :
    mem.strlen p = key.1.length ∧ mem.cString p = key := by
  obtain ⟨hkey, hzero⟩ := holds_append.mp h
  have hstrlen : mem.strlen p = key.1.length := by
    refine (Nat.find_eq_iff _).mpr ⟨(holds_cons.mp hzero).1, fun i hi hread => key.2 ?_⟩
    rw [← hkey]
    exact mem_bytes.mpr ⟨i, hi, hread⟩
  refine ⟨hstrlen, Subtype.ext ?_⟩
  change mem.bytes p (mem.strlen p) = key.1
  rw [hstrlen]
  exact hkey

theorem bytes_four (mem : Memory) (p : ℤ) : mem.bytes p 4 =
    [mem.read p, mem.read (p + 1), mem.read (p + 2), mem.read (p + 3)] := by
  simp only [bytes, add_assoc]
  norm_num

/-- **A word that was written is read back.** -/
theorem word_of_holds {n : ℤ} (h : mem.Holds p (hton32 n)) : mem.word p = int32 n := by
  rw [Holds, length_hton32, bytes_four] at h
  simp only [hton32, List.cons.injEq, and_true] at h
  obtain ⟨h₀, h₁, h₂, h₃⟩ := h
  have hsum : ((n % 2 ^ 32).toNat / 2 ^ 24 % 256 * 2 ^ 24 + (n % 2 ^ 32).toNat / 2 ^ 16 % 256 * 2 ^ 16
      + (n % 2 ^ 32).toNat / 2 ^ 8 % 256 * 2 ^ 8 + (n % 2 ^ 32).toNat % 256 : ℕ) =
      (n % 2 ^ 32).toNat := by omega
  have hcast : (((n % 2 ^ 32).toNat : ℕ) : ℤ) = n % (2 ^ 32 : ℕ) := by omega
  rw [word, h₀, h₁, h₂, h₃, ntoh32]
  simp only [UInt8.toNat_ofNat']
  rw [hsum, hcast, int32, int32, Int.emod_bmod]

/-- **A word is written as it stands.** -/
theorem holds_word (mem : Memory) (p : ℤ) : mem.Holds p (hton32 (mem.word p)) := by
  rw [Holds, length_hton32, bytes_four]
  have h₀ := (mem.read p).toNat_lt
  have h₁ := (mem.read (p + 1)).toNat_lt
  have h₂ := (mem.read (p + 2)).toNat_lt
  have h₃ := (mem.read (p + 3)).toNat_lt
  have hword : (mem.word p % 2 ^ 32).toNat = (mem.read p).toNat * 2 ^ 24 +
      (mem.read (p + 1)).toNat * 2 ^ 16 + (mem.read (p + 2)).toNat * 2 ^ 8 +
      (mem.read (p + 3)).toNat := by
    have hmod := @Int.bmod_emod (((mem.read p).toNat * 2 ^ 24 +
      (mem.read (p + 1)).toNat * 2 ^ 16 + (mem.read (p + 2)).toNat * 2 ^ 8 +
      (mem.read (p + 3)).toNat : ℕ) : ℤ) (2 ^ 32)
    rw [word, ntoh32, int32]
    omega
  simp only [hton32, hword, List.cons.injEq, and_true, ← UInt8.toNat_inj, UInt8.toNat_ofNat']
  omega

end Memory

/-! ## Serializing -/

/-- `EINVAL`. -/
def EINVAL : ℤ := 22

/-- The loop of `_dict_serialized_length`; `len` is an `int`. -/
def Dict.lengthFrom (this : Dict) : ℕ → Option ℕ → ℤ → ℤ
  | 0, _, len => len
  | _ + 1, none, _ => -EINVAL
  | count + 1, some a, len =>
      match (this.pair a).key, (this.pair a).value with
      | some key, some value =>
          if value.len < 0 then -EINVAL
          else this.lengthFrom count (this.pair a).next
            (int32 (int32 (int32 (len + 8) + (key.1.length + 1)) + value.len))
      | _, _ => -EINVAL

/-- `_dict_serialized_length`. -/
def dictSerializedLength (this : Dict) : ℤ :=
  if this.count < 0 then -EINVAL else this.lengthFrom this.count.toNat this.membersList 4

/-- The loop of `_dict_serialize`: what it writes. -/
def Dict.serializeFrom (this : Dict) : ℕ → Option ℕ → Option (List UInt8)
  | 0, _ => some []
  | _ + 1, none => none
  | count + 1, some a => do
      let key ← (this.pair a).key
      let value ← (this.pair a).value
      let data ← value.data
      let rest ← this.serializeFrom count (this.pair a).next
      return hton32 key.1.length ++ hton32 value.len ++ (key.1 ++ [0]) ++ data ++ rest

/-- `_dict_serialize`. -/
def dictSerialize (this : Dict) : Option (List UInt8) :=
  if this.count < 0 then none
  else (this.serializeFrom this.count.toNat this.membersList).map (hton32 this.count ++ ·)

/-- `dict_allocate_and_serialize`: the buffer and its length. -/
def dictAllocateAndSerialize (this : Dict) : ℤ × Option (List UInt8 × ℤ) :=
  let len := dictSerializedLength this
  if len < 0 then (len, none)
  else match dictSerialize this with
    | none => (-1, none)
    | some buf => (0, some (buf, len))

/-! ## Unserializing -/

/-- What `__gf_malloc` takes for itself: `GF_MEM_HEADER_SIZE` and `GF_MEM_TRAILER_SIZE`. -/
def allocOverhead : ℤ := 40

/-- A value of these bytes. -/
def Data.ofBytes (bytes : List UInt8) : Data where
  len := bytes.length
  data := some bytes
  len_eq := by rintro _ ⟨⟩; rfl

/-- `get_new_data` and `memdup`.  A negative length is a huge `size_t`.  With the overhead of the
allocation it may turn small again, and the copy then faults; otherwise there is no memory. -/
def Memory.memdup (mem : Memory) (p len : ℤ) : Option Data :=
  if 0 ≤ len then some (.ofBytes (mem.bytes p len.toNat))
  else if -allocOverhead ≤ len then none
  else some ⟨len, none, by rintro _ ⟨⟩⟩

/-- The state of the loop, and what was read so far. -/
structure Scan where
  pos : ℤ
  fill : Dict
  reads : List (ℤ × ℤ)

/-- `n` bytes at `p` are read. -/
def Scan.read (s : Scan) (p n : ℤ) : Scan := { s with reads := (p, n) :: s.reads }

/-- `buf += n`. -/
def Scan.advance (s : Scan) (n : ℤ) : Scan := { s with pos := s.pos + n }

/-- The bytes that were read lie in the buffer. -/
def Inside (size : ℤ) (r : ℤ × ℤ) : Prop := ∀ i, 0 ≤ i → i < r.2 → 0 ≤ r.1 + i ∧ r.1 + i < size

section Unserialize

variable (hash : Key → UInt32) (pool : MemPool) (mem : Memory) (size : ℤ)

/-- The body of the loop; `false` is `goto out`. -/
def unserializeRecord (s : Scan) : Option (Bool × Scan) :=
  if s.pos + 4 > size then some (false, s)
  else
    let keylen := mem.word s.pos
    let s := (s.read s.pos 4).advance 4
    if s.pos + 4 > size then some (false, s)
    else
      let vallen := mem.word s.pos
      let s := (s.read s.pos 4).advance 4
      if s.pos + keylen > size then some (false, s)
      else
        let key := s.pos
        let s := s.advance (int32 (keylen + 1))
        if s.pos + vallen > size then some (false, s)
        else do
          let value ← mem.memdup s.pos vallen
          let s := (s.read s.pos vallen).advance vallen
          let (_, fill) ← dictAdd hash pool s.fill (mem.cString key) (some value)
          return (true, { s.read key (mem.strlen key + 1) with fill := fill })

/-- The loop. -/
def unserializeRecords : ℕ → Scan → Option (ℤ × Scan)
  | 0, s => some (0, s)
  | count + 1, s => do
      let (more, s) ← unserializeRecord hash pool mem size s
      if more then unserializeRecords count s else return (-1, s)

/-- `dict_unserialize`. -/
def dictUnserialize (fill : Dict) : Option (ℤ × Scan) :=
  let s : Scan := ⟨0, fill, []⟩
  if size = 0 then some (-1, s)
  else if s.pos + 4 > size then some (-1, s)
  else
    let count := mem.word s.pos
    let s := (s.read s.pos 4).advance 4
    if count < 0 then some (-1, s)
    else
      let s := { s with fill := { s.fill with count := 0 } }
      unserializeRecords hash pool mem size count.toNat s

end Unserialize

/-! ## Encodings -/

/-- A key and the bytes of its value. -/
abbrev Record := Key × List UInt8

/-- The entry of a record. -/
def Record.entry (r : Record) : Key × Data := (r.1, .ofBytes r.2)

/-- The record on the wire. -/
def Record.encode (r : Record) : List UInt8 :=
  hton32 r.1.1.length ++ hton32 r.2.length ++ (r.1.1 ++ [0]) ++ r.2

/-- **A well-formed encoding.** -/
def encodeDict (records : List Record) : List UInt8 :=
  hton32 records.length ++ records.flatMap Record.encode

theorem Record.length_encode (r : Record) :
    r.encode.length = 8 + (r.1.1.length + 1) + r.2.length := by
  simp only [encode, List.length_append, length_hton32, List.length_singleton]

theorem length_encodeDict (records : List Record) :
    (encodeDict records).length = 4 + (records.flatMap Record.encode).length := by
  rw [encodeDict, List.length_append, length_hton32]

/-- The encoding is longer than there are records. -/
theorem length_le_flatMap (records : List Record) :
    records.length ≤ (records.flatMap Record.encode).length := by
  induction records with
  | nil => exact le_rfl
  | cons r records ih =>
      rw [List.flatMap_cons, List.length_append, List.length_cons, Record.length_encode]
      omega

/-! ## One record -/

section OneRecord

variable {hash : Key → UInt32} {pool : MemPool} {mem : Memory} {size : ℤ} {s : Scan}

/-- Where the next record starts, by the lengths that this one declares. -/
def Memory.nextRecord (mem : Memory) (p : ℤ) : ℤ :=
  p + 8 + int32 (mem.word p + 1) + mem.word (p + 4)

/-- **The checks of the loop**: the record, as far as it declares its lengths, ends before the
buffer does. -/
def Passes (mem : Memory) (size p : ℤ) : Prop :=
  p + 8 ≤ size ∧ p + 8 + mem.word p ≤ size ∧ mem.nextRecord p ≤ size ∧
    ¬ (-allocOverhead ≤ mem.word (p + 4) ∧ mem.word (p + 4) < 0)

/-- **A record that is one**: its lengths are not negative, and its key ends where it says. -/
def IsRecord (mem : Memory) (p : ℤ) : Prop :=
  0 ≤ mem.word p ∧ 0 ≤ mem.word (p + 4) ∧ mem.strlen (p + 8) = mem.word p

/-- The value of a record, where there is memory for it. -/
def Memory.valueAt (mem : Memory) (p : ℤ) : Data :=
  (mem.memdup (p + 8 + int32 (mem.word p + 1)) (mem.word (p + 4))).getD ⟨0, none, by rintro _ ⟨⟩⟩

/-- The scan after a record that passes. -/
def Scan.after (hash : Key → UInt32) (pool : MemPool) (mem : Memory) (s : Scan) : Scan where
  pos := mem.nextRecord s.pos
  fill := s.fill.insert hash pool (mem.cString (s.pos + 8)) (mem.valueAt s.pos)
  reads := (s.pos + 8, mem.strlen (s.pos + 8) + 1) ::
    (s.pos + 8 + int32 (mem.word s.pos + 1), mem.word (s.pos + 4)) ::
      (s.pos + 4, 4) :: (s.pos, 4) :: s.reads

theorem memdup_eq_none_iff (p : ℤ) {len : ℤ} :
    mem.memdup p len = none ↔ -allocOverhead ≤ len ∧ len < 0 := by
  unfold Memory.memdup
  split_ifs with hneg hfault
  · exact ⟨fun h => (nomatch h), fun h => absurd hneg h.2.not_ge⟩
  · exact ⟨fun _ => ⟨hfault, not_le.mp hneg⟩, fun _ => rfl⟩
  · exact ⟨fun h => (nomatch h), fun h => absurd h.1 hfault⟩

/-- **The loop goes on exactly where the record passes the checks.** -/
theorem unserializeRecord_iff {s' : Scan} :
    unserializeRecord hash pool mem size s = some (true, s') ↔
      Passes mem size s.pos ∧ s' = s.after hash pool mem := by
  have hadd : s.pos + 4 + 4 = s.pos + 8 := by ring
  have hnext : s.pos + 8 + int32 (mem.word s.pos + 1) + mem.word (s.pos + 4) =
    mem.nextRecord s.pos := rfl
  have hstop : ∀ {s₁ : Scan} {q : Prop}, ¬ Passes mem size s.pos →
      (some (false, s₁) = some (true, s') ↔ Passes mem size s.pos ∧ q) := fun hpasses =>
    ⟨fun h => by simp at h, fun h => absurd h.1 hpasses⟩
  simp only [unserializeRecord, Scan.read, Scan.advance, hadd, hnext]
  split_ifs with h₁ h₂ h₃ h₄
  · exact hstop fun h => by have := h.1; omega
  · exact hstop fun h => by have := h.1; omega
  · exact hstop fun h => by have := h.2.1; omega
  · exact hstop fun h => by have := h.2.2.1; omega
  · have hpasses : Passes mem size s.pos ↔
        ¬ (-allocOverhead ≤ mem.word (s.pos + 4) ∧ mem.word (s.pos + 4) < 0) :=
      ⟨fun h => h.2.2.2, fun h => ⟨by omega, by omega, by omega, h⟩⟩
    rw [hpasses, ← memdup_eq_none_iff (s.pos + 8 + int32 (mem.word s.pos + 1))]
    cases hvalue : mem.memdup (s.pos + 8 + int32 (mem.word s.pos + 1)) (mem.word (s.pos + 4)) with
    | none => exact ⟨fun h => (nomatch h), fun h => absurd rfl h.1⟩
    | some value =>
        have hat : mem.valueAt s.pos = value := by rw [Memory.valueAt, hvalue, Option.getD_some]
        rw [Scan.after, hat]
        refine ⟨fun h => ⟨Option.some_ne_none _, ?_⟩, ?_⟩
        · exact (congrArg Prod.snd (Option.some.inj h)).symm
        · rintro ⟨-, rfl⟩
          rfl

/-- What stands in the memory of a record. -/
theorem Record.holds_encode_iff {p : ℤ} {r : Record} : mem.Holds p r.encode ↔
    mem.Holds p (hton32 r.1.1.length) ∧ mem.Holds (p + 4) (hton32 r.2.length) ∧
      mem.Holds (p + 8) (r.1.1 ++ [0]) ∧ mem.Holds (p + 8 + (r.1.1.length + 1)) r.2 := by
  have hadd : p + 4 + 4 = p + 8 := by ring
  rw [Record.encode, Memory.holds_append, Memory.holds_append, Memory.holds_append]
  simp only [List.length_append, length_hton32, List.length_singleton, Nat.cast_add,
    Nat.cast_ofNat, Nat.cast_one, ← add_assoc, hadd, and_assoc]

/-- **A record of a well-formed encoding is read as it was written.** -/
theorem Record.read_encode {p : ℤ} {r : Record} (h : mem.Holds p r.encode)
    (hlength : (r.encode.length : ℤ) < 2 ^ 31) :
    mem.word p = r.1.1.length ∧ mem.word (p + 4) = r.2.length ∧
      mem.strlen (p + 8) = r.1.1.length ∧ mem.cString (p + 8) = r.1 ∧
      mem.nextRecord p = p + r.encode.length ∧ mem.valueAt p = .ofBytes r.2 := by
  rw [Record.length_encode] at hlength ⊢
  obtain ⟨hkeylen, hvallen, hkey, hvalue⟩ := Record.holds_encode_iff.mp h
  have hword := Memory.word_of_holds hkeylen
  have hword' := Memory.word_of_holds hvallen
  rw [int32_of_lt (by omega) (by omega)] at hword hword'
  have hend : int32 (mem.word p + 1) = r.1.1.length + 1 := by
    rw [hword, int32_of_lt (by omega) (by omega)]
  obtain ⟨hstrlen, hstring⟩ := Memory.cString_of_holds hkey
  refine ⟨hword, hword', hstrlen, hstring, ?_, ?_⟩
  · rw [Memory.nextRecord, hend, hword']
    push_cast
    ring
  · rw [Memory.valueAt, hend, hword', Memory.memdup, if_pos (Int.natCast_nonneg _),
      Option.getD_some, Int.toNat_natCast, hvalue]

/-- What has been read so far lies in the buffer. -/
def Scan.Inside (size : ℤ) (s : Scan) : Prop := ∀ r ∈ s.reads, Dictionary.Inside size r

/-- **One record of a well-formed encoding.** -/
theorem after_encoded {r : Record} (h : mem.Holds s.pos r.encode) (hpos : 0 ≤ s.pos)
    (hend : s.pos + r.encode.length ≤ size) (hsize : size < 2 ^ 31) (hinside : s.Inside size) :
    Passes mem size s.pos ∧ IsRecord mem s.pos ∧
      (s.after hash pool mem).pos = s.pos + r.encode.length ∧
      (s.after hash pool mem).fill = s.fill.insert hash pool r.1 (.ofBytes r.2) ∧
      (s.after hash pool mem).Inside size := by
  obtain ⟨hkeylen, hvallen, hstrlen, hstring, hnext, hvalue⟩ := Record.read_encode h (by omega)
  rw [Record.length_encode] at hend hnext ⊢
  have hint : int32 (mem.word s.pos + 1) = r.1.1.length + 1 := by
    rw [hkeylen, int32_of_lt (by omega) (by omega)]
  refine ⟨⟨?_, ?_, ?_, ?_⟩, ⟨?_, ?_, ?_⟩, hnext, ?_, ?_⟩
  · omega
  · rw [hkeylen]
    omega
  · rw [hnext]
    exact hend
  · rw [hvallen]
    omega
  · rw [hkeylen]
    exact Int.natCast_nonneg _
  · rw [hvallen]
    exact Int.natCast_nonneg _
  · rw [hstrlen, hkeylen]
  · rw [Scan.after, hstring, hvalue]
  · unfold Scan.Inside Scan.after
    rw [hstrlen, hint, hvallen]
    simp only [List.forall_mem_cons]
    refine ⟨?_, ?_, ?_, ?_, hinside⟩ <;> intro i h₀ hi <;> dsimp only at hi ⊢ <;> omega

end OneRecord

/-! ## All records -/

section AllRecords

variable {hash : Key → UInt32} {pool : MemPool} {mem : Memory} {size : ℤ}

/-- A property of the records, each found by the lengths of the one before it. -/
def AllRecords (mem : Memory) (P : ℤ → Prop) : ℕ → ℤ → Prop
  | 0, _ => True
  | count + 1, p => P p ∧ AllRecords mem P count (mem.nextRecord p)

/-- **The loop ends well exactly where all records pass the checks.** -/
theorem unserializeRecords_iff {count : ℕ} {s s' : Scan} :
    unserializeRecords hash pool mem size count s = some (0, s') ↔
      AllRecords mem (Passes mem size) count s.pos ∧ s' = (Scan.after hash pool mem)^[count] s := by
  induction count generalizing s with
  | zero =>
      rw [unserializeRecords, AllRecords, true_and, Function.iterate_zero, id]
      exact ⟨fun h => (congrArg Prod.snd (Option.some.inj h)).symm, fun h => by rw [h]⟩
  | succ count ih =>
      rw [unserializeRecords, AllRecords, Function.iterate_succ_apply]
      cases hrecord : unserializeRecord hash pool mem size s with
      | none =>
          refine ⟨fun h => (nomatch h), fun ⟨⟨hpasses, _⟩, _⟩ => ?_⟩
          have hgo := (@unserializeRecord_iff hash pool mem size s _).mpr ⟨hpasses, rfl⟩
          rw [hrecord] at hgo
          cases hgo
      | some r =>
          obtain ⟨more, s₁⟩ := r
          cases more with
          | false =>
              refine ⟨fun h => ?_, fun ⟨⟨hpasses, _⟩, _⟩ => ?_⟩
              · have hret := congrArg Prod.fst (Option.some.inj h)
                cases hret
              · have hgo := (@unserializeRecord_iff hash pool mem size s _).mpr ⟨hpasses, rfl⟩
                rw [hrecord] at hgo
                cases hgo
          | true =>
              obtain ⟨hpasses, rfl⟩ := unserializeRecord_iff.mp hrecord
              exact ih.trans ⟨fun ⟨hrest, heq⟩ => ⟨⟨hpasses, hrest⟩, heq⟩,
                fun ⟨⟨_, hrest⟩, heq⟩ => ⟨hrest, heq⟩⟩

/-- **A well-formed encoding**: all records pass and are records, the dictionary gets them, and
nothing else is read. -/
theorem iterate_encoded {records : List Record} {s : Scan} {l : List ℕ} {entries : Entries}
    (h : mem.Holds s.pos (records.flatMap Record.encode)) (hpos : 0 ≤ s.pos)
    (hend : s.pos + (records.flatMap Record.encode).length ≤ size) (hsize : size < 2 ^ 31)
    (hinside : s.Inside size) (hrep : Rep s.fill l entries) :
    AllRecords mem (Passes mem size) records.length s.pos ∧
      AllRecords mem (IsRecord mem) records.length s.pos ∧
      ∃ l', Rep ((Scan.after hash pool mem)^[records.length] s).fill l'
          ((records.map Record.entry).reverse ++ entries) ∧
        ((Scan.after hash pool mem)^[records.length] s).Inside size := by
  induction records generalizing s l entries with
  | nil => exact ⟨trivial, trivial, l, hrep, hinside⟩
  | cons r records ih =>
      rw [List.flatMap_cons, Memory.holds_append] at h
      rw [List.flatMap_cons, List.length_append, Nat.cast_add, ← add_assoc] at hend
      obtain ⟨hpasses, hrecord, hnext, hfill, hinside⟩ :=
        @after_encoded hash pool _ _ _ _ h.1 hpos (by omega) hsize hinside
      have hrep' := hrep.insert hash pool r.1 (.ofBytes r.2)
      rw [← hfill] at hrep'
      rw [← hnext] at h hend
      obtain ⟨hpasses', hrecord', l', hrep', hinside'⟩ := ih h.2 (by omega) hend hinside hrep'
      refine ⟨⟨hpasses, hpasses'⟩, ⟨hrecord, hrecord'⟩, l', ?_, hinside'⟩
      rw [List.map_cons, List.reverse_cons, List.append_assoc]
      exact hrep'

/-- A record that is one is the encoding of its key and its value. -/
theorem IsRecord.exists_record {p : ℤ} (h : IsRecord mem p) : ∃ r : Record,
    mem.Holds p r.encode ∧ (r.1.1.length : ℤ) = mem.word p ∧
      (r.2.length : ℤ) = mem.word (p + 4) := by
  obtain ⟨-, hvallen, hstrlen⟩ := h
  obtain ⟨key, hkey⟩ : ∃ key, key = mem.cString (p + 8) := ⟨_, rfl⟩
  obtain ⟨value, hvalue⟩ : ∃ value, value =
    mem.bytes (p + 8 + (mem.word p + 1)) (mem.word (p + 4)).toNat := ⟨_, rfl⟩
  have hkeylen : (key.1.length : ℤ) = mem.word p := by
    rw [hkey, ← hstrlen]
    exact congrArg _ (Memory.length_bytes ..)
  have hvallen : (value.length : ℤ) = mem.word (p + 4) := by
    rw [hvalue, Memory.length_bytes, Int.toNat_of_nonneg hvallen]
  refine ⟨(key, value), Record.holds_encode_iff.mpr ?_, hkeylen, hvallen⟩
  dsimp only
  rw [hkeylen, hvallen, hvalue]
  refine ⟨mem.holds_word p, mem.holds_word _, ?_, mem.holds_bytes _ _⟩
  rw [Memory.holds_append, Memory.holds_cons, hkeylen, ← hstrlen, hkey]
  exact ⟨mem.holds_bytes _ _, mem.read_strlen _, rfl⟩

/-- **Records that pass the checks and are records are an encoding.** -/
theorem exists_encoded {count : ℕ} {p : ℤ} (hp : 0 ≤ p)
    (hpasses : AllRecords mem (Passes mem size) count p)
    (hrecords : AllRecords mem (IsRecord mem) count p) (hsize : size < 2 ^ 31) (hend : p ≤ size) :
    ∃ records : List Record, records.length = count ∧
      mem.Holds p (records.flatMap Record.encode) ∧
      p + (records.flatMap Record.encode).length ≤ size := by
  induction count generalizing p with
  | zero => exact ⟨[], rfl, rfl, by simpa using hend⟩
  | succ count ih =>
      obtain ⟨⟨hhead, hkeyend, hnext, -⟩, hpasses⟩ := hpasses
      obtain ⟨hrecord, hrecords⟩ := hrecords
      obtain ⟨hkeylen, hvallen, -⟩ := id hrecord
      have hint : int32 (mem.word p + 1) = mem.word p + 1 := int32_of_lt (by omega) (by omega)
      have hnextpos : mem.nextRecord p = p + 8 + (mem.word p + 1) + mem.word (p + 4) := by
        rw [Memory.nextRecord, hint]
      obtain ⟨records, hcount, hholds, hlength⟩ := ih (by omega) hpasses hrecords hnext
      obtain ⟨r, hr, hkey, hvalue⟩ := hrecord.exists_record
      have hpos : mem.nextRecord p = p + r.encode.length := by
        rw [hnextpos, Record.length_encode]
        push_cast
        rw [hkey, hvalue]
        ring
      refine ⟨r :: records, congrArg _ hcount, ?_, ?_⟩
      · rw [List.flatMap_cons, Memory.holds_append, ← hpos]
        exact ⟨hr, hholds⟩
      · rw [List.flatMap_cons, List.length_append, Nat.cast_add, ← add_assoc, ← hpos]
        exact hlength

end AllRecords

/-! ## Buffers from the network -/

section Network

variable {hash : Key → UInt32} {pool : MemPool} {mem : Memory} {size : ℤ}

/-- The scan when the loop begins. -/
def Scan.first : Scan := ⟨4, dictNew, [(0, 4)]⟩

/-- **`dict_unserialize` returns 0 exactly where all records pass the checks.** -/
theorem dictUnserialize_iff {s : Scan} : dictUnserialize hash pool mem size dictNew = some (0, s) ↔
    4 ≤ size ∧ ∃ count : ℕ, mem.word 0 = count ∧
      AllRecords mem (Passes mem size) count Scan.first.pos ∧
      s = (Scan.after hash pool mem)^[count] Scan.first := by
  have hstop : ∀ {s₁ : Scan}, some ((-1 : ℤ), s₁) ≠ some (0, s) := fun h => by simp at h
  simp only [dictUnserialize, zero_add]
  split_ifs with h₀ h₁ h₂
  · exact ⟨fun h => absurd h hstop, fun h => by omega⟩
  · exact ⟨fun h => absurd h hstop, fun h => by omega⟩
  · refine ⟨fun h => absurd h hstop, ?_⟩
    rintro ⟨-, count, hcount, -⟩
    omega
  · obtain ⟨count, hcount⟩ := Int.eq_ofNat_of_zero_le (not_lt.mp h₂)
    rw [hcount, Int.toNat_natCast]
    refine unserializeRecords_iff.trans ⟨fun h => ⟨not_lt.mp h₁, count, rfl, h⟩, ?_⟩
    rintro ⟨-, count', heq, h⟩
    rwa [Nat.cast_inj.mp heq]

theorem first_inside (h : 4 ≤ size) : Scan.first.Inside size := by
  intro r hr i h₀ hi
  obtain rfl := List.mem_singleton.mp hr
  dsimp only at hi ⊢
  omega

/-- A well-formed buffer: the count, and the records behind it. -/
theorem holds_encodeDict {records : List Record} (h : mem.Holds 0 (encodeDict records))
    (hend : ((encodeDict records).length : ℤ) ≤ size) (hsize : size < 2 ^ 31) :
    mem.word 0 = records.length ∧ 4 ≤ size ∧
      mem.Holds Scan.first.pos (records.flatMap Record.encode) ∧
      Scan.first.pos + (records.flatMap Record.encode).length ≤ size := by
  rw [length_encodeDict] at hend
  rw [encodeDict, Memory.holds_append, length_hton32, zero_add] at h
  have hle := length_le_flatMap records
  have hword := Memory.word_of_holds h.1
  rw [int32_of_lt (by omega) (by omega)] at hword
  refine ⟨hword, by omega, h.2, ?_⟩
  change 4 + _ ≤ size
  omega

/-- **A well-formed buffer is accepted**, and the dictionary has its records. -/
theorem dictUnserialize_encoded {records : List Record} (hash : Key → UInt32) (pool : MemPool)
    (h : mem.Holds 0 (encodeDict records)) (hend : ((encodeDict records).length : ℤ) ≤ size)
    (hsize : size < 2 ^ 31) :
    AllRecords mem (IsRecord mem) records.length Scan.first.pos ∧
      ∃ s l, dictUnserialize hash pool mem size dictNew = some (0, s) ∧
        Rep s.fill l (records.map Record.entry).reverse ∧ s.Inside size := by
  obtain ⟨hcount, hhead, hholds, hend⟩ := holds_encodeDict h hend hsize
  obtain ⟨hpasses, hrecords, l, hrep, hinside⟩ := @iterate_encoded hash pool _ _ _ Scan.first _ _
    hholds (by decide) hend hsize (first_inside hhead) rep_dictNew
  rw [List.append_nil] at hrep
  exact ⟨hrecords, _, l, dictUnserialize_iff.mpr ⟨hhead, _, hcount, hpasses, rfl⟩, hrep, hinside⟩

/-- **A buffer is accepted as a well-formed encoding exactly where the records that pass the
checks are records.** -/
theorem dictUnserialize_wellFormed_iff (hash : Key → UInt32) (pool : MemPool) (mem : Memory)
    (size : ℤ) (hsize : size < 2 ^ 31) :
    (∀ s, dictUnserialize hash pool mem size dictNew = some (0, s) →
        ∃ records l, mem.Holds 0 (encodeDict records) ∧ (encodeDict records).length ≤ size ∧
          Rep s.fill l (records.map Record.entry).reverse ∧ s.Inside size) ↔
      ∀ count : ℕ, 4 ≤ size → mem.word 0 = count → AllRecords mem (Passes mem size) count 4 →
        AllRecords mem (IsRecord mem) count 4 := by
  refine ⟨fun h count hhead hcount hpasses => ?_, fun h s hs => ?_⟩
  · obtain ⟨records, -, hholds, hend, -⟩ := h _ (dictUnserialize_iff.mpr
      ⟨hhead, count, hcount, hpasses, rfl⟩)
    have hlength := (holds_encodeDict hholds hend hsize).1
    rw [Nat.cast_inj.mp (hcount.symm.trans hlength)]
    exact (dictUnserialize_encoded hash pool hholds hend hsize).1
  · obtain ⟨hhead, count, hcount, hpasses, -⟩ := dictUnserialize_iff.mp hs
    obtain ⟨records, hlength, hholds, hend⟩ := exists_encoded (p := 4) (by decide) hpasses
      (h count hhead hcount hpasses) hsize hhead
    have hbuffer : mem.Holds 0 (encodeDict records) := by
      rw [encodeDict, Memory.holds_append, hlength, ← hcount, length_hton32, zero_add]
      exact ⟨mem.holds_word 0, hholds⟩
    have hfits : ((encodeDict records).length : ℤ) ≤ size := by
      rw [length_encodeDict]
      push_cast
      exact hend
    obtain ⟨-, s', l, hs', hrep, hinside⟩ := dictUnserialize_encoded hash pool hbuffer hfits hsize
    obtain rfl : s' = s := congrArg Prod.snd (Option.some.inj (hs'.symm.trans hs))
    exact ⟨records, l, hbuffer, hfits, hrep, hinside⟩

/-- The next pair of the pool is one behind the last. -/
def nextPool : MemPool where
  get taken := taken.sup id + 1
  fresh taken h := by
    have hle : taken.sup id + 1 ≤ taken.sup id := Finset.le_sup (f := id) h
    omega
  ne_freePair taken := Nat.succ_ne_zero _

/-- A memory of zeros around some bytes. -/
def Memory.ofList (xs : List UInt8) : Memory where
  read p := if 0 ≤ p then xs.getD p.toNat 0 else 0
  terminated p := by
    refine ⟨xs.length + p.natAbs, ?_⟩
    have hpos : 0 ≤ p + (xs.length + p.natAbs : ℕ) := by omega
    rw [if_pos hpos, List.getD_eq_default]
    omega

/-- A buffer of the record `a ↦ 7`. -/
def oneRecord : Memory := .ofList [0, 0, 0, 1, 0, 0, 0, 1, 0, 0, 0, 1, 97, 0, 7]

theorem dictUnserialize_wellFormed_oneRecord :
    ∃ s, dictUnserialize (fun _ => 0) nextPool oneRecord 15 dictNew = some (0, s) ∧
      ∃ records l, oneRecord.Holds 0 (encodeDict records) ∧ (encodeDict records).length ≤ (15 : ℤ) ∧
        Rep s.fill l (records.map Record.entry).reverse ∧ s.Inside 15 := by
  have hstrlen : oneRecord.strlen 12 = 1 :=
    (@Memory.cString_of_holds oneRecord 12 ⟨[97], by decide⟩ (by decide)).1
  have hret := (@dictUnserialize_iff (fun _ => 0) nextPool oneRecord 15 _).mpr
    ⟨by decide, 1, by decide, ⟨⟨by decide, by decide, by decide, by decide⟩, trivial⟩, rfl⟩
  refine ⟨_, hret, (dictUnserialize_wellFormed_iff (fun _ => 0) nextPool oneRecord 15
    (by norm_num)).mpr (fun count _ hcount _ => ?_) _ hret⟩
  obtain rfl : count = 1 := Nat.cast_inj.mp (hcount.symm.trans (by decide : _ = ((1 : ℕ) : ℤ)))
  exact ⟨⟨by decide, by decide, (congrArg _ hstrlen).trans (by decide)⟩, trivial⟩

/-- One record, whose key of no bytes is not terminated in the buffer. -/
def unterminated : Memory := .ofList [0, 0, 0, 1, 0, 0, 0, 0, 0, 0, 0, 0, 120, 120]

/-- **A key is read past the end of the buffer.**  The buffer has 13 bytes: the count 1, the
lengths 0 and 0, and the byte 120 where the key should end.  The checks pass, and the key is the
string that goes on behind the buffer. -/
theorem unterminated_key_accepted :
    (∃ s, dictUnserialize (fun _ => 0) nextPool unterminated 13 dictNew = some (0, s) ∧
        (12, 3) ∈ s.reads ∧ ¬ s.Inside 13) ∧
      ∀ records, unterminated.Holds 0 (encodeDict records) →
        ¬ (encodeDict records).length ≤ (13 : ℤ) := by
  have hstrlen : unterminated.strlen 12 = 2 :=
    (@Memory.cString_of_holds unterminated 12 ⟨[120, 120], by decide⟩ (by decide)).1
  have hret := (@dictUnserialize_iff (fun _ => 0) nextPool unterminated 13 _).mpr
    ⟨by decide, 1, by decide, ⟨⟨by decide, by decide, by decide, by decide⟩, trivial⟩, rfl⟩
  have hread : ((12, 3) : ℤ × ℤ) ∈
      (Scan.first.after (fun _ => 0) nextPool unterminated).reads := by
    rw [Scan.after, show Scan.first.pos + 8 = 12 by decide, hstrlen]
    exact List.mem_cons_self
  refine ⟨⟨_, hret, hread, fun hinside => ?_⟩, fun records hholds hend => ?_⟩
  · exact absurd (hinside _ hread 1 (by decide) (by decide)).2 (by decide)
  · have hcount := (holds_encodeDict hholds hend (by norm_num)).1
    have hrecords := (dictUnserialize_encoded (fun _ => 0) nextPool hholds hend (by norm_num)).1
    rw [← Nat.cast_inj.mp ((by decide : ((1 : ℕ) : ℤ) = unterminated.word 0).trans hcount)]
      at hrecords
    have hkey := hrecords.1.2.2
    rw [show Scan.first.pos + 8 = 12 by decide, hstrlen] at hkey
    exact absurd hkey (by decide)

end Network

/-! ## The round trip -/

section RoundTrip

variable {this : Dict} {l : List ℕ} {records : List Record} {start : Option ℕ}

/-- The length that is added up for the pairs. -/
theorem lengthFrom_eq (h : Chain (DataPair.next ∘ this.pair) start l)
    (hentry : List.Forall₂ this.IsEntry l (records.map Record.entry)) (len : ℤ) :
    this.lengthFrom l.length start (int32 len) =
      int32 (len + (records.flatMap Record.encode).length) := by
  induction l generalizing start records len with
  | nil =>
      obtain rfl := List.map_eq_nil_iff.mp (List.forall₂_nil_left_iff.mp hentry)
      simp [Dict.lengthFrom]
  | cons a l ih =>
      obtain ⟨rfl, hl⟩ := h
      cases records with
      | nil => cases hentry
      | cons r records =>
          obtain ⟨⟨hkey, hvalue⟩, hrest⟩ := List.forall₂_cons.mp hentry
          have hlen : ¬ r.entry.2.len < 0 := not_lt.mpr (Int.natCast_nonneg _)
          have hnext := ih hl hrest
            (len + 8 + (r.entry.1.1.length + 1) + r.entry.2.len)
          rw [Function.comp_apply] at hnext
          simp only [List.length_cons, Dict.lengthFrom, hkey, hvalue, if_neg hlen,
            int32_int32_add, hnext]
          rw [List.flatMap_cons, List.length_append, Record.length_encode]
          push_cast
          rw [Record.entry, Data.ofBytes]
          ring_nf

/-- What is written for the pairs. -/
theorem serializeFrom_eq (h : Chain (DataPair.next ∘ this.pair) start l)
    (hentry : List.Forall₂ this.IsEntry l (records.map Record.entry)) :
    this.serializeFrom l.length start = some (records.flatMap Record.encode) := by
  induction l generalizing start records with
  | nil =>
      obtain rfl := List.map_eq_nil_iff.mp (List.forall₂_nil_left_iff.mp hentry)
      rfl
  | cons a l ih =>
      obtain ⟨rfl, hl⟩ := h
      cases records with
      | nil => cases hentry
      | cons r records =>
          obtain ⟨⟨hkey, hvalue⟩, hrest⟩ := List.forall₂_cons.mp hentry
          have hnext := ih hl hrest
          rw [Function.comp_apply] at hnext
          rw [List.length_cons, Dict.serializeFrom, hkey, hvalue, hnext, List.flatMap_cons]
          rfl

/-- **What `dict_allocate_and_serialize` gives.** -/
theorem Rep.serialize (h : Rep this l (records.map Record.entry))
    (hlength : ((encodeDict records).length : ℤ) < 2 ^ 31) :
    dictAllocateAndSerialize this =
      (0, some (encodeDict records, ((encodeDict records).length : ℤ))) := by
  have hcount : records.length = l.length := by
    rw [h.entry.length_eq, List.length_map]
  have hnonneg : ¬ this.count < 0 := by
    rw [h.count_eq]
    omega
  have hlen : dictSerializedLength this = (encodeDict records).length := by
    have hfour : (4 : ℤ) = int32 4 := by decide
    rw [dictSerializedLength, if_neg hnonneg, h.count_eq, Int.toNat_natCast, hfour,
      lengthFrom_eq h.list h.entry]
    rw [length_encodeDict] at hlength ⊢
    push_cast at hlength ⊢
    exact int32_of_lt (by omega) hlength
  have hbuf : dictSerialize this = some (encodeDict records) := by
    rw [dictSerialize, if_neg hnonneg, h.count_eq, Int.toNat_natCast,
      serializeFrom_eq h.list h.entry, ← hcount]
    rfl
  rw [dictAllocateAndSerialize, hlen, if_neg (not_lt.mpr (Int.natCast_nonneg _)), hbuf]

/-- With distinct keys a lookup does not depend on the order. -/
theorem lookup_reverse {entries : Entries} (h : (entries.map Prod.fst).Nodup) (key : Key) :
    entries.reverse.lookup key = entries.lookup key := by
  by_cases hmem : key ∈ entries.map Prod.fst
  · obtain ⟨⟨key, value⟩, he, rfl⟩ := List.mem_map.mp hmem
    obtain ⟨es₁, es₂, rfl⟩ := List.append_of_mem he
    obtain ⟨h₁, h₂⟩ := keys_split h
    have hnot : ∀ es : Entries, (∀ e ∈ es, e.1 ≠ key) → key ∉ es.map Prod.fst := fun es hes hkey =>
      let ⟨e, he, heq⟩ := List.mem_map.mp hkey
      hes e he heq
    rw [List.reverse_append, List.reverse_cons, List.append_assoc, List.singleton_append,
      lookup_append (hnot _ h₁), lookup_append]
    exact hnot _ fun e he => h₂ e (List.mem_reverse.mp he)
  · rw [lookup_eq_none hmem, lookup_eq_none]
    rwa [List.map_reverse, List.mem_reverse]

/-- What a user does with a dictionary; a value that is not null is given by its bytes. -/
inductive Op
  | set (key : Key) (value : List UInt8)
  | del (key : Key)

/-- An operation; no answer is one that does not return. -/
def Op.apply (hash : Key → UInt32) (pool : MemPool) (this : Dict) : Op → Option Dict
  | .set key value => (dictSet hash pool this key (some (.ofBytes value))).map Prod.snd
  | .del key => dictDel hash this key

/-- A dictionary that holds records with distinct keys. -/
def Keeps (this : Dict) (l : List ℕ) (records : List Record) : Prop :=
  Rep this l (records.map Record.entry) ∧ ((records.map Record.entry).map Prod.fst).Nodup

/-- Entries whose values have bytes are records. -/
theorem exists_records {entries : Entries} (h : ∀ e ∈ entries, ∃ value, e.2 = .ofBytes value) :
    ∃ records : List Record, entries = records.map Record.entry := by
  induction entries with
  | nil => exact ⟨[], rfl⟩
  | cons e entries ih =>
      obtain ⟨records, rfl⟩ := ih fun e he => h e (List.mem_cons_of_mem _ he)
      obtain ⟨value, hvalue⟩ := h e List.mem_cons_self
      refine ⟨(e.1, value) :: records, ?_⟩
      rw [List.map_cons, Record.entry, ← hvalue]

theorem mem_setEntry {entries : Entries} {key : Key} {value : Data} {e : Key × Data}
    (h : e ∈ setEntry entries key value) : e.2 = value ∨ e ∈ entries := by
  unfold setEntry at h
  split_ifs at h
  · obtain ⟨e', he', rfl⟩ := List.mem_map.mp h
    split_ifs
    · exact .inl rfl
    · exact .inr he'
  · rcases List.mem_cons.mp h with rfl | he
    · exact .inl rfl
    · exact .inr he

/-- **One operation**: it returns, and the dictionary holds records with distinct keys again. -/
theorem Keeps.apply (h : Keeps this l records) (hash : Key → UInt32) (pool : MemPool) (op : Op) :
    ∃ this' l' records', op.apply hash pool this = some this' ∧ Keeps this' l' records' := by
  have hbytes : ∀ e ∈ records.map Record.entry, ∃ value, e.2 = .ofBytes value := fun e he =>
    let ⟨r, _, heq⟩ := List.mem_map.mp he
    ⟨r.2, heq ▸ rfl⟩
  cases op with
  | set key value =>
      obtain ⟨this', l', hset, hrep⟩ := h.1.set h.2 hash pool key (.ofBytes value)
      have hkeys := keys_setEntry h.2 key (.ofBytes value)
      obtain ⟨records', heq⟩ := exists_records fun e he => (mem_setEntry he).elim
        (fun heq => ⟨value, heq⟩) (hbytes e)
      rw [heq] at hrep hkeys
      refine ⟨this', l', records', ?_, hrep, hkeys⟩
      rw [Op.apply, hset]
      rfl
  | del key =>
      obtain ⟨this', l', hdel, hrep⟩ := h.1.del h.2 hash key
      have hkeys := keys_delEntry h.2 key
      obtain ⟨records', heq⟩ := @exists_records (delEntry _ key) fun e he =>
        hbytes e (List.mem_of_mem_filter he)
      rw [heq] at hrep hkeys
      exact ⟨this', l', records', hdel, hrep, hkeys⟩

/-- **Every sequence of operations returns**, and keeps the dictionary in order. -/
theorem Keeps.run (h : Keeps this l records) (hash : Key → UInt32) (pool : MemPool)
    (ops : List Op) : ∃ this' l' records', ops.foldlM (Op.apply hash pool) this = some this' ∧
      Keeps this' l' records' := by
  induction ops generalizing this l records with
  | nil => exact ⟨this, l, records, rfl, h⟩
  | cons op ops ih =>
      obtain ⟨this₁, l₁, records₁, hop, h₁⟩ := h.apply hash pool op
      rw [List.foldlM_cons, hop]
      exact ih h₁

/-- The pair is reachable through the hash chains. -/
def Dict.Hashed (this : Dict) (a : ℕ) : Prop :=
  ∃ hashval : ℕ, hashval < this.hashSize ∧
    ∃ l, Chain (DataPair.hashNext ∘ this.pair) (this.members hashval) l ∧ a ∈ l

/-- The length of a pair on the wire. -/
def DataPair.wireLength (pair : DataPair) : ℤ :=
  8 + ((pair.key.elim 0 fun key => key.1.length) + 1) + pair.value.elim 0 Data.len

/-- The length of a dictionary of these pairs on the wire. -/
def Dict.wireLength (this : Dict) (l : List ℕ) : ℤ :=
  4 + (l.map fun a => (this.pair a).wireLength).sum

theorem wireLength_eq (h : List.Forall₂ this.IsEntry l (records.map Record.entry)) :
    this.wireLength l = (encodeDict records).length := by
  rw [Dict.wireLength, length_encodeDict, Nat.cast_add]
  congr 1
  induction records generalizing l with
  | nil =>
      obtain rfl := List.forall₂_nil_right_iff.mp h
      rfl
  | cons r records ih =>
      cases l with
      | nil => cases h
      | cons a l =>
          obtain ⟨⟨hkey, hvalue⟩, hrest⟩ := List.forall₂_cons.mp h
          rw [List.map_cons, List.sum_cons, ih hrest, List.flatMap_cons, List.length_append,
            Record.length_encode, DataPair.wireLength, hkey, hvalue]
          push_cast
          rfl

theorem Rep.hashed_iff {entries : Entries} (h : Rep this l entries) (a : ℕ) :
    a ∈ l ↔ this.Hashed a := by
  refine ⟨fun ha => ⟨0, ?_, l, h.chain, ha⟩, ?_⟩
  · rw [h.hashSize_eq]
    exact Nat.one_pos
  · rintro ⟨hashval, hlt, l', hchain, ha⟩
    rw [h.hashSize_eq, Nat.lt_one_iff] at hlt
    rw [hlt] at hchain
    rwa [Chain.unique h.chain hchain]

/-- The keys of the pairs. -/
theorem Rep.keys {entries : Entries} (h : List.Forall₂ this.IsEntry l entries) :
    (l.map fun a => (this.pair a).key) = (entries.map Prod.fst).map some := by
  induction h with
  | nil => rfl
  | cons ha _ ih => rw [List.map_cons, List.map_cons, List.map_cons, ha.1, ih]

/-- **A dictionary that was set up by any operations survives the wire**, and its two lists hold
the same pairs, as many as are counted, with distinct keys.  The values have bytes: a value whose
`data` is a null pointer is not among them, and `_dict_serialize` refuses it. -/
theorem dictUnserialize_allocateAndSerialize (hash : Key → UInt32) (pool : MemPool)
    (ops : List Op) : ∃ this l, ops.foldlM (Op.apply hash pool) dictNew = some this ∧
      Chain (DataPair.next ∘ this.pair) this.membersList l ∧ this.count = l.length ∧
      (∀ a, a ∈ l ↔ this.Hashed a) ∧
      (∃ keys : List Key, (l.map fun a => (this.pair a).key) = keys.map some ∧ keys.Nodup) ∧
      (this.wireLength l < 2 ^ 31 → ∃ buf len,
        dictAllocateAndSerialize this = (0, some (buf, len)) ∧
          ∀ mem : Memory, mem.Holds 0 buf →
            ∃ s, dictUnserialize hash pool mem len dictNew = some (0, s) ∧
              s.fill.count = this.count ∧
              ∀ key, ∃ value, dictGet hash this key = some value ∧
                dictGet hash s.fill key = some value) := by
  have hnew : Keeps dictNew [] [] := ⟨rep_dictNew, List.nodup_nil⟩
  obtain ⟨this, l, records, hrun, hrep, hkeys⟩ := hnew.run hash pool ops
  refine ⟨this, l, hrun, hrep.list, hrep.count_eq, hrep.hashed_iff, ⟨_, Rep.keys hrep.entry, hkeys⟩,
    fun hlength => ?_⟩
  rw [wireLength_eq hrep.entry] at hlength
  refine ⟨_, _, hrep.serialize hlength, fun mem hholds => ?_⟩
  obtain ⟨-, s, l', hret, hrep', -⟩ := dictUnserialize_encoded hash pool hholds le_rfl hlength
  refine ⟨s, hret, ?_, fun key => ⟨_, hrep.get hash key, ?_⟩⟩
  · rw [hrep'.count_eq, hrep.count_eq, hrep'.entry.length_eq, hrep.entry.length_eq,
      List.length_reverse]
  · rw [hrep'.get hash key, lookup_reverse hkeys]

/-- The key of `oneRecord`. -/
def oneKey : Key := ⟨[97], by decide⟩

theorem dictUnserialize_allocateAndSerialize_oneRecord :
    ∃ this s, [Op.set oneKey [7]].foldlM (Op.apply (fun _ => 0) nextPool) dictNew = some this ∧
      this.count = 1 ∧
      dictAllocateAndSerialize this =
        (0, some ([0, 0, 0, 1, 0, 0, 0, 1, 0, 0, 0, 1, 97, 0, 7], 15)) ∧
      dictUnserialize (fun _ => 0) nextPool oneRecord 15 dictNew = some (0, s) ∧
      s.fill.count = 1 ∧ dictGet (fun _ => 0) s.fill oneKey = some (some (.ofBytes [7])) := by
  obtain ⟨this, l, hrun, hchain, hcount, -, -, hwire⟩ :=
    dictUnserialize_allocateAndSerialize (fun _ => 0) nextPool [.set oneKey [7]]
  obtain rfl := Option.some.inj hrun
  obtain rfl : l = [0] := hchain.unique ⟨rfl, rfl⟩
  obtain ⟨buf, len, hbuf, hall⟩ := hwire (by decide)
  have hbytes : (0, some (buf, len)) =
      ((0, some ([0, 0, 0, 1, 0, 0, 0, 1, 0, 0, 0, 1, 97, 0, 7], 15)) :
        ℤ × Option (List UInt8 × ℤ)) := hbuf.symm.trans (by decide)
  obtain ⟨rfl, rfl⟩ := Prod.mk.inj (Option.some.inj (congrArg Prod.snd hbytes))
  obtain ⟨s, hs, hsame, hget⟩ := hall oneRecord (by decide)
  obtain ⟨value, hvalue, hvalue'⟩ := hget oneKey
  exact ⟨_, s, rfl, rfl, by decide, hs, hsame, hvalue'.trans (hvalue.symm.trans rfl)⟩

end RoundTrip

end GlusterFS.Dictionary
