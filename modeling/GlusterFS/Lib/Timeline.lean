import Mathlib

/-!
# The history of a file, and what a reader has seen of it

A `Timeline` is the content of a file at every instant up to now: the content changes only from one
instant to the next (`advance`).  A change is named by the instant at which it has been made, and it
changes the bytes that are not the same before and after it (`Changes`); a byte that comes into
being or ceases to be is changed as well.

A `Span` is what has been read from the file at one instant.  It is **current** for a list of
changes (`Current`) if it is not older than any of them that has changed a byte of the range that
was read.  What is read now is current for all changes that have been made (`current_readv`); it
stays so when the file changes further (`Current.advance`).
-/

universe u

namespace IoVector

/-- The memory from `iov_base` on, and `iov_len`. -/
structure Iovec (β : Type u) where
  base : ℕ → β
  len : ℕ

end IoVector

namespace FileHistory

open IoVector

variable {β : Type u}

/-- The content of a file; `byte` counts below `size` only. -/
structure Content (β : Type u) where
  size : ℕ
  byte : ℕ → β

namespace Content

/-- The byte at a place, if the file is so long. -/
def get (c : Content β) (x : ℕ) : Option β := if x < c.size then some (c.byte x) else none

/-- What a read returns. -/
def read (c : Content β) (offset size : ℕ) : Iovec β :=
  ⟨fun k => c.byte (offset + k), min size (c.size - offset)⟩

variable [Inhabited β]

/-- A write; the gap between the end of the file and the place of the write is filled. -/
def write (c : Content β) (offset : ℕ) (vector : Iovec β) : Content β :=
  if vector.len = 0 then c
  else
    { size := max c.size (offset + vector.len)
      byte := fun x =>
        if offset ≤ x ∧ x < offset + vector.len then vector.base (x - offset)
        else if x < c.size then c.byte x else default }

/-- Cutting the file off, or filling it up to a size. -/
def truncate (c : Content β) (size : ℕ) : Content β :=
  { size := size, byte := fun x => if x < c.size then c.byte x else default }

end Content

/-! ## Instants -/

/-- The contents of a file up to now. -/
structure Timeline (β : Type u) where
  now : ℕ
  content : ℕ → Content β

/-- What was read at an instant. -/
structure Span (β : Type u) where
  instant : ℕ
  vector : Iovec β

namespace Timeline

/-- The file changes. -/
def advance (t : Timeline β) (c : Content β) : Timeline β :=
  ⟨t.now + 1, Function.update t.content (t.now + 1) c⟩

/-- The content now. -/
def current (t : Timeline β) : Content β := t.content t.now

/-- Reading now. -/
def readv (t : Timeline β) (offset size : ℕ) : Span β := ⟨t.now, t.current.read offset size⟩

/-- The change at an instant changes a byte. -/
def Changes (t : Timeline β) (i x : ℕ) : Prop := (t.content (i - 1)).get x ≠ (t.content i).get x

/-- What a span has from a range of the file. -/
structure Reads (t : Timeline β) (offset size : ℕ) (d : Span β) : Prop where
  le : d.instant ≤ t.now
  vector : d.vector = (t.content d.instant).read offset size

/-- A span of a range is not older than the changes of the range. -/
structure Current (t : Timeline β) (changes : List ℕ) (offset size : ℕ) (d : Span β) : Prop where
  reads : t.Reads offset size d
  after : ∀ i ∈ changes, ∀ x, offset ≤ x → x < offset + size → t.Changes i x → i ≤ d.instant

variable {t : Timeline β} {changes : List ℕ} {offset size : ℕ} {d : Span β}

theorem content_advance {i : ℕ} (h : i ≤ t.now) (c : Content β) :
    (t.advance c).content i = t.content i :=
  Function.update_of_ne (by omega) _ _

theorem changes_advance {i : ℕ} (h : i ≤ t.now) (c : Content β) (x : ℕ) :
    (t.advance c).Changes i x ↔ t.Changes i x := by
  rw [Changes, Changes, content_advance h, content_advance (by omega)]

/-- **What is read now is current.** -/
theorem current_readv (h : ∀ i ∈ changes, i ≤ t.now) :
    t.Current changes offset size (t.readv offset size) :=
  ⟨⟨le_rfl, rfl⟩, fun i hi _ _ _ _ => h i hi⟩

/-- **Further changes leave a span current.** -/
theorem Current.advance (h : t.Current changes offset size d) (hle : ∀ i ∈ changes, i ≤ t.now)
    (c : Content β) : (t.advance c).Current changes offset size d := by
  refine ⟨⟨Nat.le_succ_of_le h.reads.le, ?_⟩, fun i hi x hlo hhi hchanges => ?_⟩
  · rw [content_advance h.reads.le]
    exact h.reads.vector
  · exact h.after i hi x hlo hhi ((changes_advance (hle i hi) c x).mp hchanges)

end Timeline

/-! ## Tables -/

/-- What a table contains after an assignment was assigned or was there before. -/
theorem of_update {α : Type*} {f : ℕ → Option α} {i j : ℕ} {v : Option α} {x : α}
    (h : Function.update f i v j = some x) : v = some x ∨ f j = some x := by
  by_cases hj : j = i
  · rw [hj, Function.update_self] at h
    exact .inl h
  · rw [Function.update_of_ne hj] at h
    exact .inr h

end FileHistory
