import Mathlib

/-!
# Files striped over nodes

A file is cut into **stripes** of a fixed width, every node keeps one **chunk** of
each stripe, and the chunk is computed from the stripe by a code.  The chunks that
a node keeps, one after the other, are its **fragment** of the file; the last stripe
is filled up with zeros.

`File` carries its bytes as a function that is zero from the size on, so that filling
up a stripe is no operation at all, and two files are equal when their sizes and bytes
are (`File.ext`).  A code (`Code`) reads nothing but its stripe and maps the zero
stripe to zeros; a hole in the file is then a hole in every fragment.

A **write** to the file stores the chunks of the stripes it touches.  It keeps a node that
holds its fragment exact (`Code.store_write_fragment`) and, on any node at all, every
agreement below a bound (`Code.AgreesBelow.store_write`).

A fragment file of the right size that agrees with the fragment below that size is the
fragment (`Code.AgreesBelow.eq_fragment`).
-/

namespace Striped

universe u

variable {β : Type u} [Zero β]

/-! ## Files -/

/-- A file: its size and its bytes, zero from the size on. -/
structure File (β : Type u) [Zero β] where
  size : ℕ
  byte : ℕ → β
  beyond : ∀ i, size ≤ i → byte i = 0

namespace File

@[ext]
theorem ext {f g : File β} (hsize : f.size = g.size) (hbyte : ∀ i, f.byte i = g.byte i) :
    f = g := by
  obtain ⟨size, byte, _⟩ := f
  obtain ⟨size', byte', _⟩ := g
  obtain rfl : size = size' := hsize
  obtain rfl : byte = byte' := funext hbyte
  rfl

/-- The file without bytes. -/
def empty : File β := ⟨0, fun _ => 0, fun _ _ => rfl⟩

/-- The first `n` bytes of a file. -/
def truncate (f : File β) (n : ℕ) : File β where
  size := min n f.size
  byte i := if i < n then f.byte i else 0
  beyond i hi := by
    split
    · exact f.beyond i (by omega)
    · rfl

/-- The file after a write of some bytes at an offset. -/
def write (f : File β) (offset : ℕ) (data : List β) : File β where
  size := max f.size (offset + data.length)
  byte i := if offset ≤ i ∧ i < offset + data.length then data.getD (i - offset) 0 else f.byte i
  beyond i hi := by
    rw [if_neg (by omega)]
    exact f.beyond i (by omega)

/-- The file after the bytes of `g` between `lo` and `hi` are written over its own. -/
def splice (f : File β) (lo hi : ℕ) (g : File β) : File β where
  size := max f.size hi
  byte i := if lo ≤ i ∧ i < hi then g.byte i else f.byte i
  beyond i hi' := by
    rw [if_neg (by omega)]
    exact f.beyond i (by omega)

end File

/-! ## Codes and fragments -/

/-- A code: the chunk a node keeps of a stripe. -/
structure Code (β : Type u) [Zero β] where
  stripe : ℕ
  chunk : ℕ
  stripe_pos : 0 < stripe
  chunk_pos : 0 < chunk
  encode : ℕ → (ℕ → β) → ℕ → β
  /-- A chunk depends on its stripe only. -/
  encode_congr : ∀ (node : ℕ) (s t : ℕ → β) (i : ℕ), (∀ j < stripe, s j = t j) →
    encode node s i = encode node t i
  /-- A hole is encoded as a hole. -/
  encode_zero : ∀ (node i : ℕ), encode node (fun _ => 0) i = 0

namespace Code

variable (c : Code β)

/-- The number of stripes of a file of `n` bytes. -/
def stripes (n : ℕ) : ℕ := n ⌈/⌉ c.stripe

theorem stripes_le_iff {n m : ℕ} : c.stripes n ≤ m ↔ n ≤ c.stripe * m :=
  ceilDiv_le_iff_le_mul c.stripe_pos

theorem lt_stripes_iff {n m : ℕ} : m < c.stripes n ↔ c.stripe * m < n := by
  rw [← not_le, c.stripes_le_iff, not_le]

theorem le_stripe_mul_stripes (n : ℕ) : n ≤ c.stripe * c.stripes n :=
  c.stripes_le_iff.mp le_rfl

theorem stripes_mono : Monotone c.stripes := fun _ _ h =>
  c.stripes_le_iff.mpr (h.trans (c.le_stripe_mul_stripes _))

@[simp]
theorem stripes_zero : c.stripes 0 = 0 :=
  Nat.le_zero.mp (c.stripes_le_iff.mpr (Nat.zero_le _))

@[simp]
theorem stripes_mul (m : ℕ) : c.stripes (c.stripe * m) = m := by
  refine le_antisymm (c.stripes_le_iff.mpr le_rfl) ?_
  exact Nat.le_of_mul_le_mul_left (c.le_stripe_mul_stripes _) c.stripe_pos

/-- The bytes of one stripe of a file. -/
def stripeAt (f : File β) (m : ℕ) : ℕ → β := fun j => f.byte (c.stripe * m + j)

/-- The fragment of a file that a node keeps. -/
def fragment (node : ℕ) (f : File β) : File β where
  size := c.chunk * c.stripes f.size
  byte i := c.encode node (c.stripeAt f (i / c.chunk)) (i % c.chunk)
  beyond i hi := by
    have hstripe : c.stripes f.size ≤ i / c.chunk := by
      rwa [Nat.le_div_iff_mul_le c.chunk_pos, mul_comm]
    have hzero : c.stripeAt f (i / c.chunk) = fun _ => 0 := by
      funext j
      have hend := (c.stripes_le_iff.mp hstripe)
      exact f.beyond _ (by omega)
    rw [hzero, c.encode_zero]

/-- A node's file after the chunks of the stripes `first, …, last - 1` of a file are
stored in it. -/
def store (node : ℕ) (old : File β) (first last : ℕ) (f : File β) : File β :=
  old.splice (c.chunk * first) (c.chunk * last) (c.fragment node f)

/-- A node's file has the bytes of the fragment below a bound. -/
def AgreesBelow (node : ℕ) (g f : File β) (n : ℕ) : Prop :=
  ∀ i < n, g.byte i = (c.fragment node f).byte i

variable {c} {node : ℕ} {f g old : File β}

@[simp]
theorem size_fragment (node : ℕ) (f : File β) :
    (c.fragment node f).size = c.chunk * c.stripes f.size := rfl

@[simp]
theorem size_store (first last : ℕ) :
    (c.store node old first last f).size = max old.size (c.chunk * last) := rfl

theorem AgreesBelow.of_eq (h : g = c.fragment node f) (n : ℕ) : c.AgreesBelow node g f n :=
  fun i _ => congrArg (fun file : File β => file.byte i) h

/-- **Right bytes and right size.** -/
theorem AgreesBelow.eq_fragment {n : ℕ} (h : c.AgreesBelow node g f n)
    (hsize : g.size = c.chunk * c.stripes f.size) (hn : g.size ≤ n) :
    g = c.fragment node f := by
  refine File.ext hsize fun i => ?_
  by_cases hi : i < n
  · exact h i hi
  · rw [g.beyond i (by omega), (c.fragment node f).beyond i]
    rw [size_fragment]
    omega

theorem store_byte_inside {first last i : ℕ} (hlo : c.chunk * first ≤ i)
    (hhi : i < c.chunk * last) :
    (c.store node old first last f).byte i = (c.fragment node f).byte i :=
  if_pos ⟨hlo, hhi⟩

theorem store_byte_outside {first last i : ℕ} (h : i < c.chunk * first ∨ c.chunk * last ≤ i) :
    (c.store node old first last f).byte i = old.byte i :=
  if_neg (by omega)

/-- Files that have one stripe in common have its chunk in common. -/
theorem fragment_byte_congr {i : ℕ}
    (h : ∀ j < c.stripe, c.stripeAt f (i / c.chunk) j = c.stripeAt g (i / c.chunk) j) :
    (c.fragment node f).byte i = (c.fragment node g).byte i :=
  c.encode_congr node _ _ _ h

/-! ## Writes -/

section Write

variable {offset : ℕ} {data : List β}

/-- The first stripe a write touches. -/
def firstStripe (c : Code β) (offset : ℕ) : ℕ := offset / c.stripe

/-- One more than the last stripe a write touches. -/
def endStripe (c : Code β) (offset : ℕ) (data : List β) : ℕ := c.stripes (offset + data.length)

/-- A write leaves the other stripes alone. -/
theorem stripeAt_write {m j : ℕ} (hj : j < c.stripe)
    (hm : m < c.firstStripe offset ∨ c.endStripe offset data ≤ m) :
    c.stripeAt (f.write offset data) m j = c.stripeAt f m j := by
  refine if_neg ?_
  rintro ⟨hlo, hhi⟩
  rcases hm with hm | hm
  · have hnext : c.stripe * (m + 1) ≤ offset := by
      calc c.stripe * (m + 1) ≤ c.stripe * (offset / c.stripe) := Nat.mul_le_mul_left _ hm
        _ ≤ offset := Nat.mul_div_le offset c.stripe
    rw [mul_add, mul_one] at hnext
    omega
  · have hend : offset + data.length ≤ c.stripe * m := c.stripes_le_iff.mp hm
    omega

theorem fragment_write_byte {i : ℕ}
    (h : i < c.chunk * c.firstStripe offset ∨ c.chunk * c.endStripe offset data ≤ i) :
    (c.fragment node (f.write offset data)).byte i = (c.fragment node f).byte i := by
  refine fragment_byte_congr fun j hj => stripeAt_write hj ?_
  rcases h with h | h
  · exact .inl ((Nat.div_lt_iff_lt_mul c.chunk_pos).mpr (by rwa [mul_comm]))
  · exact .inr ((Nat.le_div_iff_mul_le c.chunk_pos).mpr (by rwa [mul_comm]))

theorem size_fragment_write :
    (c.fragment node (f.write offset data)).size
      = max (c.fragment node f).size (c.chunk * c.endStripe offset data) := by
  change c.chunk * c.stripes (max f.size (offset + data.length)) = _
  rw [c.stripes_mono.map_max, ← Nat.mul_max_mul_left]
  rfl

/-- **A write keeps every agreement**, also on a node that misses other bytes. -/
theorem AgreesBelow.store_write {n : ℕ} (h : c.AgreesBelow node g f n) :
    c.AgreesBelow node
      (c.store node g (c.firstStripe offset) (c.endStripe offset data) (f.write offset data))
      (f.write offset data) n := by
  intro i hi
  by_cases hin : c.chunk * c.firstStripe offset ≤ i ∧ i < c.chunk * c.endStripe offset data
  · exact store_byte_inside hin.1 hin.2
  · have hout : i < c.chunk * c.firstStripe offset ∨ c.chunk * c.endStripe offset data ≤ i := by
      omega
    rw [store_byte_outside hout, fragment_write_byte hout]
    exact h i hi

/-- **A write keeps a node exact.** -/
theorem store_write_fragment (h : g = c.fragment node f) :
    c.store node g (c.firstStripe offset) (c.endStripe offset data) (f.write offset data)
      = c.fragment node (f.write offset data) := by
  refine ((AgreesBelow.of_eq h _).store_write).eq_fragment ?_ le_rfl
  rw [size_store, h, ← size_fragment_write, size_fragment]

end Write

end Code

end Striped
