import Mathlib

/-!
# Loops over a ring

A ring is a head and the cells that the pointers `next` lead over from the head back to it.  A
loop that starts at a cell and goes on while the next cell is not the head visits the cells behind
it: `walk` tests before it moves, so it visits them whether there are any or not (`walk_path`).
`walkDo` moves before it tests: it agrees with `walk` when there is a cell to move to
(`walkDo_path`), and at the last cell it visits the head and then the whole ring once more
(`walkDo_last`).

A ring has no end to recurse on, so the loops take fuel, and the rules say how much is enough.
-/

universe u v

namespace CellRing

variable {α : Type u} {σ : Type v}

/-- The pointers lead from `item` over the cells `l` to `head`, which is not among them. -/
def Path (next : α → α) (head : α) : α → List α → Prop
  | item, [] => next item = head
  | item, a :: l => next item = a ∧ a ≠ head ∧ Path next head a l

/-- The cells of the ring of `head`. -/
structure IsRing (next : α → α) (head : α) (l : List α) : Prop where
  path : Path next head head l
  nodup : (head :: l).Nodup

/-- The first cell, and the way from it over the others. -/
theorem IsRing.first {next : α → α} {head a : α} {l : List α} (h : IsRing next head (a :: l)) :
    next head = a ∧ Path next head a l :=
  ⟨h.path.1, h.path.2.2⟩

section Loops

variable [DecidableEq α] (next : α → α) (head : α) (body : σ → α → σ)

/-- `while (item->next != head) { item = item->next; body }`. -/
def walk : ℕ → α → σ → Option σ
  | 0, _, _ => none
  | fuel + 1, item, s =>
      if next item ≠ head then walk fuel (next item) (body s (next item)) else some s

/-- `do { item = item->next; body } while (item->next != head)`. -/
def walkDo : ℕ → α → σ → Option σ
  | 0, _, _ => none
  | fuel + 1, item, s =>
      let item := next item
      let s := body s item
      if next item ≠ head then walkDo fuel item s else some s

end Loops

variable [DecidableEq α] {next : α → α} {head : α} {body : σ → α → σ}

/-- **The loop visits the cells behind its start.** -/
theorem walk_path {l : List α} {item : α} (h : Path next head item l) {fuel : ℕ}
    (hfuel : l.length < fuel) (s : σ) : walk next head body fuel item s = some (l.foldl body s) := by
  induction l generalizing item fuel s with
  | nil =>
      obtain ⟨fuel, rfl⟩ := Nat.exists_eq_succ_of_ne_zero hfuel.ne_bot
      exact if_neg (not_not.mpr h)
  | cons a l ih =>
      obtain ⟨rfl, hne, hrest⟩ := h
      obtain ⟨fuel, rfl⟩ := Nat.exists_eq_succ_of_ne_zero (Nat.ne_zero_of_lt hfuel)
      rw [walk, if_pos hne, ih hrest (Nat.lt_of_succ_lt_succ hfuel)]
      rfl

/-- The first round is unconditional; what follows tests before it moves. -/
theorem walkDo_succ (fuel : ℕ) (item : α) (s : σ) :
    walkDo next head body (fuel + 1) item s =
      walk next head body (fuel + 1) (next item) (body s (next item)) := by
  induction fuel generalizing item s with
  | zero =>
      rw [walkDo, walk]
      rfl
  | succ fuel ih => rw [walkDo, walk, ih]

/-- **With a cell to move to, moving first makes no difference.** -/
theorem walkDo_path {a : α} {l : List α} {item : α} (h : Path next head item (a :: l)) {fuel : ℕ}
    (hfuel : l.length < fuel) (s : σ) :
    walkDo next head body fuel item s = some ((a :: l).foldl body s) := by
  obtain ⟨rfl, -, hrest⟩ := h
  obtain ⟨fuel, rfl⟩ := Nat.exists_eq_succ_of_ne_zero (Nat.ne_zero_of_lt hfuel)
  rw [walkDo_succ, walk_path hrest hfuel]
  rfl

/-- **At the last cell the loop passes the head and goes round the whole ring.** -/
theorem walkDo_last {l : List α} {item : α} (hlast : next item = head) (h : Path next head head l)
    {fuel : ℕ} (hfuel : l.length < fuel) (s : σ) :
    walkDo next head body fuel item s = some ((head :: l).foldl body s) := by
  obtain ⟨fuel, rfl⟩ := Nat.exists_eq_succ_of_ne_zero (Nat.ne_zero_of_lt hfuel)
  rw [walkDo_succ, hlast, walk_path h hfuel]
  rfl

end CellRing
