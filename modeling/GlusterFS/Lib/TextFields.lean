import Mathlib

/-!
# Text made of fields

Bytes, and texts that are made of fields which do not contain the separator: reading a field up to the
separator, and the fact that the text **determines its fields**.  Then three kinds of fields: decimal
numbers, hexadecimal bytes and percent-encoded strings.
-/

namespace TextFields

/-- A byte. -/
abbrev Byte := Fin 256

/-- The instance behind the literals. -/
scoped instance byte_neZero : NeZero 256 := ⟨by decide⟩

/-! ## Fields -/

section Fields

variable {α : Type*} {sep : α} {x y r r' : List α}

/-- What stands in front of the first separator. -/
def upTo [DecidableEq α] (sep : α) (text : List α) : List α := text.takeWhile (· ≠ sep)

/-- A text is empty or begins with the separator. -/
def Ends (sep : α) (r : List α) : Prop := ∀ b ∈ r.head?, b = sep

theorem upTo_append [DecidableEq α] (hx : sep ∉ x) (r : List α) :
    upTo sep (x ++ sep :: r) = x := by
  rw [upTo, List.takeWhile_append_of_pos]
  · rw [List.takeWhile_cons_of_neg (by simp), List.append_nil]
  · intro b hb
    exact decide_eq_true fun heq => hx (heq ▸ hb)

/-- **The first field** of a text is determined. -/
theorem append_inj_of_ends (hx : sep ∉ x) (hy : sep ∉ y) (hr : Ends sep r) (hr' : Ends sep r')
    (h : x ++ r = y ++ r') : x = y ∧ r = r' := by
  induction x generalizing y with
  | nil =>
      cases y with
      | nil => exact ⟨rfl, h⟩
      | cons b y =>
          rw [List.nil_append] at h
          subst h
          exact absurd (hr b rfl) fun heq => hy (heq ▸ List.mem_cons_self)
  | cons a x ih =>
      cases y with
      | nil =>
          rw [List.nil_append] at h
          subst h
          exact absurd (hr' a rfl) fun heq => hx (heq ▸ List.mem_cons_self)
      | cons b y =>
          obtain ⟨rfl, htail⟩ := List.cons.inj h
          obtain ⟨rfl, hrest⟩ := ih (fun hmem => hx (List.mem_cons_of_mem _ hmem))
            (fun hmem => hy (List.mem_cons_of_mem _ hmem)) htail
          exact ⟨rfl, hrest⟩

/-- The fields, each behind a separator. -/
def fieldText (sep : α) (fields : List (List α)) : List α := fields.flatMap (sep :: ·)

theorem ends_fieldText (sep : α) (fields : List (List α)) : Ends sep (fieldText sep fields) := by
  cases fields with
  | nil => exact fun b hb => by cases hb
  | cons f fields => exact fun b hb => (Option.some.inj hb).symm

/-- **The text determines its fields.** -/
theorem fieldText_inj {f g : List (List α)} (hf : ∀ x ∈ f, sep ∉ x) (hg : ∀ x ∈ g, sep ∉ x)
    (h : fieldText sep f = fieldText sep g) : f = g := by
  induction f generalizing g with
  | nil =>
      cases g with
      | nil => rfl
      | cons y g => cases h
  | cons x f ih =>
      cases g with
      | nil => cases h
      | cons y g =>
          have htail : x ++ fieldText sep f = y ++ fieldText sep g := (List.cons.inj h).2
          obtain ⟨rfl, hrest⟩ := append_inj_of_ends (hf x List.mem_cons_self)
            (hg y List.mem_cons_self) (ends_fieldText sep f) (ends_fieldText sep g) htail
          rw [ih (fun z hz => hf z (List.mem_cons_of_mem _ hz))
            (fun z hz => hg z (List.mem_cons_of_mem _ hz)) hrest]

end Fields

/-! ## Decimal numbers -/

/-- The byte of a decimal digit. -/
def digit (d : ℕ) : Byte := Fin.ofNat 256 (48 + d % 10)

/-- The last `k` decimal digits of a number, without zeros in front. -/
def decimalOf : ℕ → ℕ → List Byte
  | 0, _ => []
  | k + 1, n => if n < 10 then [digit n] else decimalOf k (n / 10) ++ [digit n]

/-- `%u` of a number with at most ten digits. -/
def decimal (n : ℕ) : List Byte := decimalOf 10 n

def isDigit (b : Byte) : Bool := 48 ≤ b.val ∧ b.val ≤ 57

/-- `atoi` of a number without a sign. -/
def atoi (text : List Byte) : ℕ := (text.takeWhile isDigit).foldl (fun n b => n * 10 + (b.val - 48)) 0

theorem digit_val (d : ℕ) : (digit d).val = 48 + d % 10 := by
  rw [digit, Fin.val_ofNat, Nat.mod_eq_of_lt]
  omega

theorem isDigit_digit (d : ℕ) : isDigit (digit d) = true := by
  rw [isDigit, digit_val]
  simp only [decide_eq_true_eq]
  omega

theorem isDigit_decimalOf (k n : ℕ) : ∀ b ∈ decimalOf k n, isDigit b = true := by
  induction k generalizing n with
  | zero => exact fun b hb => by cases hb
  | succ k ih =>
      intro b hb
      rw [decimalOf] at hb
      split_ifs at hb with hn
      · rw [List.mem_singleton.mp hb]
        exact isDigit_digit n
      · rcases List.mem_append.mp hb with hb | hb
        · exact ih (n / 10) b hb
        · rw [List.mem_singleton.mp hb]
          exact isDigit_digit n

theorem foldl_decimalOf {k n : ℕ} (hn : n < 10 ^ k) :
    (decimalOf k n).foldl (fun n (b : Byte) => n * 10 + (b.val - 48)) 0 = n := by
  induction k generalizing n with
  | zero => exact (Nat.lt_one_iff.mp hn).symm
  | succ k ih =>
      rw [decimalOf]
      split_ifs with hsmall
      · rw [List.foldl_cons, List.foldl_nil, digit_val]
        omega
      · rw [List.foldl_append, ih (by rw [pow_succ] at hn; omega), List.foldl_cons, List.foldl_nil,
          digit_val]
        omega

/-- **A number is read back.** -/
theorem atoi_decimal {n : ℕ} (hn : n < 10 ^ 10) : atoi (decimal n) = n := by
  have hall : (decimal n ++ []).takeWhile isDigit = decimal n ++ [].takeWhile isDigit :=
    List.takeWhile_append_of_pos (isDigit_decimalOf 10 n)
  rw [List.append_nil, List.takeWhile_nil, List.append_nil] at hall
  rw [atoi, hall]
  exact foldl_decimalOf hn

theorem decimal_inj {m n : ℕ} (hm : m < 10 ^ 10) (hn : n < 10 ^ 10) (h : decimal m = decimal n) :
    m = n := by
  rw [← atoi_decimal hm, h, atoi_decimal hn]

theorem not_mem_decimal {b : Byte} (hb : isDigit b = false) (n : ℕ) : b ∉ decimal n := by
  intro hmem
  rw [isDigit_decimalOf 10 n b hmem] at hb
  cases hb

theorem length_decimalOf_le (k n : ℕ) : (decimalOf k n).length ≤ k := by
  induction k generalizing n with
  | zero => exact le_rfl
  | succ k ih =>
      rw [decimalOf]
      split_ifs
      · exact Nat.le_add_left 1 k
      · rw [List.length_append]
        exact Nat.add_le_add_right (ih _) 1

/-! ## Hexadecimal bytes -/

/-- A hexadecimal digit; `alpha` is `55` for capitals and `87` for small letters. -/
def hexDigit (alpha n : ℕ) : Byte := Fin.ofNat 256 (if n < 10 then 48 + n else alpha + n)

/-- `%02X` of a byte for `alpha = 55`, and `%02x` for `alpha = 87`. -/
def hexByte (alpha : ℕ) (b : Byte) : List Byte :=
  [hexDigit alpha (b.val / 16), hexDigit alpha (b.val % 16)]

/-- What a hexadecimal digit stands for. -/
def hexValue (alpha : ℕ) (c : Byte) : ℕ := if c.val < 58 then c.val - 48 else c.val - alpha

theorem hexValue_upper : ∀ b : Byte, (hexByte 55 b).map (hexValue 55) = [b.val / 16, b.val % 16] := by
  decide +kernel

theorem hexValue_lower : ∀ b : Byte, (hexByte 87 b).map (hexValue 87) = [b.val / 16, b.val % 16] := by
  decide +kernel

/-- A byte has two hexadecimal digits. -/
theorem byte_ext {a b : Byte} (h : [a.val / 16, a.val % 16] = [b.val / 16, b.val % 16]) : a = b := by
  obtain ⟨hhigh, htail⟩ := List.cons.inj h
  have hlow := (List.cons.inj htail).1
  refine Fin.ext ?_
  omega

theorem hexByte_upper_inj {a b : Byte} (h : hexByte 55 a = hexByte 55 b) : a = b := by
  refine byte_ext ?_
  rw [← hexValue_upper a, h, hexValue_upper b]

theorem hexByte_lower_inj {a b : Byte} (h : hexByte 87 a = hexByte 87 b) : a = b := by
  refine byte_ext ?_
  rw [← hexValue_lower a, h, hexValue_lower b]

/-- The bytes one after the other. -/
def hexBytes (bytes : List Byte) : List Byte := bytes.flatMap (hexByte 87)

theorem length_hexBytes (bytes : List Byte) : (hexBytes bytes).length = 2 * bytes.length := by
  induction bytes with
  | nil => rfl
  | cons b bytes ih =>
      rw [hexBytes, List.flatMap_cons, List.length_append, ← hexBytes, ih, List.length_cons]
      change 2 + _ = _
      omega

theorem hexBytes_inj {s t : List Byte} (h : hexBytes s = hexBytes t) : s = t := by
  induction s generalizing t with
  | nil =>
      cases t with
      | nil => rfl
      | cons b t => cases h
  | cons a s ih =>
      cases t with
      | nil => cases h
      | cons b t =>
          rw [hexBytes, hexBytes, List.flatMap_cons, List.flatMap_cons] at h
          obtain ⟨hhead, htail⟩ := List.append_inj h rfl
          rw [hexByte_lower_inj hhead, ih htail]

/-! ## Percent-encoding -/

/-- The unreserved characters: `isalnum` and `~ - . _`. -/
def unreserved (b : Byte) : Bool :=
  (48 ≤ b.val ∧ b.val ≤ 57) ∨ (65 ≤ b.val ∧ b.val ≤ 90) ∨ (97 ≤ b.val ∧ b.val ≤ 122) ∨
    b = 126 ∨ b = 45 ∨ b = 46 ∨ b = 95

def encodeByte (b : Byte) : List Byte := if unreserved b then [b] else 37 :: hexByte 55 b

def percentEncode (text : List Byte) : List Byte := text.flatMap encodeByte

theorem unreserved_ne_percent {b : Byte} (h : unreserved b = true) : b ≠ 37 := by
  rintro rfl
  cases h

/-- **A percent-encoded string is determined.** -/
theorem percentEncode_inj {s t : List Byte} (h : percentEncode s = percentEncode t) : s = t := by
  induction s generalizing t with
  | nil =>
      cases t with
      | nil => rfl
      | cons b t =>
          rw [percentEncode, percentEncode, List.flatMap_cons, encodeByte] at h
          split_ifs at h <;> cases h
  | cons a s ih =>
      cases t with
      | nil =>
          rw [percentEncode, percentEncode, List.flatMap_cons, encodeByte] at h
          split_ifs at h <;> cases h
      | cons b t =>
          rw [percentEncode, percentEncode, List.flatMap_cons, List.flatMap_cons, encodeByte,
            encodeByte] at h
          split_ifs at h with ha hb hb
          · obtain ⟨hhead, htail⟩ := List.cons.inj h
            rw [hhead, ih htail]
          · exact absurd (List.cons.inj h).1 (unreserved_ne_percent ha)
          · exact absurd (List.cons.inj h).1.symm (unreserved_ne_percent hb)
          · obtain ⟨hhead, htail⟩ := List.append_inj (List.cons.inj h).2 rfl
            rw [hexByte_upper_inj hhead, ih htail]

theorem not_mem_percentEncode {c : Byte} (hc : ∀ b, c ∉ encodeByte b) (text : List Byte) :
    c ∉ percentEncode text := by
  intro hmem
  obtain ⟨b, -, hb⟩ := List.mem_flatMap.mp hmem
  exact hc b hb

theorem space_not_mem_encodeByte : ∀ b, (32 : Byte) ∉ encodeByte b := by decide +kernel

theorem length_encodeByte : ∀ b, (encodeByte b).length ≤ 3 := by decide +kernel

theorem length_percentEncode_le (text : List Byte) :
    (percentEncode text).length ≤ 3 * text.length := by
  induction text with
  | nil => exact le_rfl
  | cons b text ih =>
      rw [percentEncode, List.flatMap_cons, List.length_append, ← percentEncode, List.length_cons]
      have := length_encodeByte b
      omega

theorem percentEncode_append (s t : List Byte) :
    percentEncode (s ++ t) = percentEncode s ++ percentEncode t := List.flatMap_append

/-- Unreserved characters stay as they are. -/
theorem percentEncode_eq_self {text : List Byte} (h : ∀ b ∈ text, unreserved b = true) :
    percentEncode text = text := by
  induction text with
  | nil => rfl
  | cons b text ih =>
      rw [percentEncode, List.flatMap_cons, encodeByte, if_pos (h b List.mem_cons_self),
        ← percentEncode, ih fun c hc => h c (List.mem_cons_of_mem _ hc)]
      rfl

end TextFields
