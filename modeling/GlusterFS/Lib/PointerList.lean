import Mathlib

/-!
# Lists of linked cells

A list in memory is a cell and the pointers behind it.  `Segment next start l stop` says that
the pointers `next` lead from `start` over the cells `l` to `stop`, and a **chain** is a segment
that ends.  A chain is determined by its start (`Chain.unique`), so it visits no cell twice
(`Chain.nodup`).

The two changes that programs make are a new first cell (`Chain.push`) and a cell that is taken
out (`Chain.remove`).  `Back` are the pointers of a doubly linked list in the other direction,
with the same two rules.

`search` is the loop that walks a chain until a cell is found, and gives the cell before it as
well.  A walk over a ring does not end, so it takes fuel; on a chain of no more cells than fuel
it finds the first cell of the list (`search_chain`).
-/

universe u

namespace PointerList

variable {α : Type u}

/-! ## Chains -/

/-- The pointers lead from `start` over the cells to `stop`. -/
def Segment (next : α → Option α) : Option α → List α → Option α → Prop
  | start, [], stop => start = stop
  | start, a :: l, stop => start = some a ∧ Segment next (next a) l stop

/-- The pointers lead over the cells to the end. -/
abbrev Chain (next : α → Option α) (start : Option α) (l : List α) : Prop :=
  Segment next start l none

section Chains

variable {next next' : α → Option α} {start stop : Option α} {l l' : List α} {a p : α}

theorem Segment.append_iff :
    Segment next start (l ++ l') stop ↔ ∃ mid, Segment next start l mid ∧ Segment next mid l' stop := by
  induction l generalizing start with
  | nil =>
      refine ⟨fun h => ⟨start, rfl, h⟩, ?_⟩
      rintro ⟨mid, rfl, h⟩
      exact h
  | cons a l ih =>
      simp only [List.cons_append, Segment, ih]
      refine ⟨?_, ?_⟩
      · rintro ⟨hstart, mid, hl, hl'⟩
        exact ⟨mid, ⟨hstart, hl⟩, hl'⟩
      · rintro ⟨mid, ⟨hstart, hl⟩, hl'⟩
        exact ⟨hstart, mid, hl, hl'⟩

theorem Segment.congr (h : Segment next start l stop) (hnext : ∀ a ∈ l, next' a = next a) :
    Segment next' start l stop := by
  induction l generalizing start with
  | nil => exact h
  | cons a l ih =>
      refine ⟨h.1, ?_⟩
      rw [hnext a List.mem_cons_self]
      exact ih h.2 fun b hb => hnext b (List.mem_cons_of_mem _ hb)

theorem Segment.start_eq (h : Chain next start l) : start = l.head? := by
  cases l with
  | nil => exact h
  | cons a l => exact h.1

/-- **A chain is determined by its start.** -/
theorem Chain.unique (h : Chain next start l) (h' : Chain next start l') : l = l' := by
  induction l generalizing start l' with
  | nil =>
      cases l' with
      | nil => rfl
      | cons b l' => cases h.symm.trans h'.1
  | cons a l ih =>
      cases l' with
      | nil => cases h.1.symm.trans h'
      | cons b l' =>
          obtain rfl := Option.some.inj (h.1.symm.trans h'.1)
          rw [ih h.2 h'.2]

/-- **A chain visits no cell twice.** -/
theorem Chain.nodup (h : Chain next start l) : l.Nodup := by
  induction l generalizing start with
  | nil => exact List.nodup_nil
  | cons a l ih =>
      refine List.nodup_cons.mpr ⟨fun ha => ?_, ih h.2⟩
      -- the chain behind the second visit is the one behind the first
      obtain ⟨l₁, l₂, rfl⟩ := List.append_of_mem ha
      obtain ⟨mid, -, hrest⟩ := Segment.append_iff.mp h.2
      have hlength := congrArg List.length (Chain.unique h.2 hrest.2)
      rw [List.length_append, List.length_cons] at hlength
      omega

variable [DecidableEq α]

/-- **A new first cell.** -/
theorem Chain.push (h : Chain next start l) (ha : a ∉ l) :
    Chain (Function.update next a start) (some a) (a :: l) := by
  refine ⟨rfl, ?_⟩
  rw [Function.update_self]
  refine Segment.congr h fun b hb => Function.update_of_ne ?_ _ _
  rintro rfl
  exact ha hb

/-- A cell behind `p` is passed over. -/
theorem Chain.bypass (h : Chain next start (l ++ p :: a :: l')) :
    Chain (Function.update next p (next a)) start (l ++ p :: l') := by
  have hnodup := Chain.nodup h
  obtain ⟨mid, hl, hmid, hp, hl'⟩ := Segment.append_iff.mp h
  rw [List.nodup_append, List.nodup_cons, List.mem_cons, not_or] at hnodup
  obtain ⟨-, ⟨⟨-, hpl'⟩, -⟩, hcross⟩ := hnodup
  refine Segment.append_iff.mpr ⟨mid, hl.congr fun b hb => Function.update_of_ne ?_ _ _, hmid, ?_⟩
  · exact hcross b hb p List.mem_cons_self
  · rw [Function.update_self]
    refine hl'.congr fun b hb => Function.update_of_ne ?_ _ _
    rintro rfl
    exact hpl' hb

/-- The pointers after a cell behind `before` is taken out. -/
def skip (next : α → Option α) (before : Option α) (a : α) : α → Option α :=
  match before with
  | none => next
  | some p => Function.update next p (next a)

/-- The start after a cell behind `before` is taken out. -/
def skipStart (start : Option α) (next : α → Option α) (before : Option α) (a : α) : Option α :=
  match before with
  | none => next a
  | some _ => start

/-- **A cell is taken out.** -/
theorem Chain.remove (h : Chain next start (l ++ a :: l')) :
    Chain (skip next l.getLast? a) (skipStart start next l.getLast? a) (l ++ l') := by
  rcases List.eq_nil_or_concat' l with rfl | ⟨l, p, rfl⟩
  · exact h.2
  · rw [List.append_assoc] at h
    rw [List.getLast?_concat, List.append_assoc]
    exact Chain.bypass h

end Chains

/-! ## Pointers back -/

/-- Each cell points back to the one before it. -/
def Back (prev : α → Option α) : Option α → List α → Prop
  | _, [] => True
  | before, a :: l => prev a = before ∧ Back prev (some a) l

section Back

variable {prev prev' : α → Option α} {before : Option α} {l l' : List α} {a b : α}

theorem Back.congr (h : Back prev before l) (hprev : ∀ a ∈ l, prev' a = prev a) :
    Back prev' before l := by
  induction l generalizing before with
  | nil => trivial
  | cons a l ih =>
      exact ⟨(hprev a List.mem_cons_self).trans h.1,
        ih h.2 fun b hb => hprev b (List.mem_cons_of_mem _ hb)⟩

theorem Back.append_iff :
    Back prev before (l ++ l') ↔ Back prev before l ∧ Back prev (l.getLast?.or before) l' := by
  induction l generalizing before with
  | nil => simp [Back]
  | cons a l ih =>
      rw [List.cons_append, Back, Back, ih, and_assoc]
      have hlast : (a :: l).getLast?.or before = l.getLast?.or (some a) := by
        cases l with
        | nil => rfl
        | cons b l =>
            rw [List.getLast?_cons_cons, List.getLast?_eq_some_getLast (List.cons_ne_nil b l)]
            rfl
      rw [hlast]

variable [DecidableEq α]

/-- The pointers back after a new first cell: the old one points to it. -/
def pushBack (prev : α → Option α) (first : Option α) (a : α) : α → Option α :=
  match first with
  | none => Function.update prev a none
  | some b => Function.update (Function.update prev a none) b (some a)

/-- **A new first cell.** -/
theorem Back.push (h : Back prev none l) (ha : a ∉ l) (hnodup : l.Nodup) :
    Back (pushBack prev l.head? a) none (a :: l) := by
  cases l with
  | nil => exact ⟨Function.update_self .., trivial⟩
  | cons b l =>
      have hab : a ≠ b := fun hab => ha (hab ▸ List.mem_cons_self)
      refine ⟨?_, Function.update_self .., Back.congr h.2 fun c hc => ?_⟩
      · rw [List.head?_cons, pushBack, Function.update_of_ne hab, Function.update_self]
      · rw [List.head?_cons, pushBack, Function.update_of_ne, Function.update_of_ne]
        · rintro rfl
          exact ha (List.mem_cons_of_mem _ hc)
        · rintro rfl
          exact (List.nodup_cons.mp hnodup).1 hc

/-- **A cell is taken out**: the one behind it points to the one before it. -/
theorem Back.remove (h : Back prev none (l ++ a :: l')) (hnodup : (l ++ a :: l').Nodup) :
    Back (skip prev l'.head? a) none (l ++ l') := by
  obtain ⟨hl, ha, hl'⟩ := Back.append_iff.mp h
  cases l' with
  | nil => exact Back.append_iff.mpr ⟨hl, trivial⟩
  | cons b l' =>
      rw [List.nodup_append, List.nodup_cons, List.nodup_cons] at hnodup
      obtain ⟨-, ⟨-, hbl', -⟩, hcross⟩ := hnodup
      refine Back.append_iff.mpr ⟨hl.congr fun c hc => Function.update_of_ne ?_ _ _, ?_, ?_⟩
      · exact hcross c hc b (List.mem_cons_of_mem _ List.mem_cons_self)
      · rw [List.head?_cons, skip, Function.update_self, ha]
      · refine hl'.2.congr fun c hc => Function.update_of_ne ?_ _ _
        rintro rfl
        exact hbl' hc

end Back

/-! ## Searching -/

/-- `for (pair = start; pair; prev = pair, pair = pair->next)` until a cell is found: the cell
before it and the cell.  Without fuel there is no answer. -/
def search (next : α → Option α) (found : α → Bool) :
    ℕ → Option α → Option α → Option (Option (Option α × α))
  | 0, _, _ => none
  | _ + 1, _, none => some none
  | fuel + 1, before, some a =>
      if found a then some (some (before, a)) else search next found fuel (some a) (next a)

section Search

variable {next : α → Option α} {found : α → Bool} {start : Option α} {l : List α}

/-- **The search on a chain.** -/
theorem search_chain {fuel : ℕ} {before : Option α} (h : Chain next start l)
    (hfuel : l.length < fuel) :
    ((∀ a ∈ l, found a = false) ∧ search next found fuel before start = some none) ∨
      ∃ l₁ a l₂, l = l₁ ++ a :: l₂ ∧ (∀ b ∈ l₁, found b = false) ∧ found a = true ∧
        search next found fuel before start = some (some (l₁.getLast?.or before, a)) := by
  induction l generalizing start fuel before with
  | nil =>
      obtain rfl : start = none := h
      obtain ⟨fuel, rfl⟩ : ∃ n, fuel = n + 1 := ⟨fuel - 1, by simp at hfuel; omega⟩
      exact .inl ⟨fun a ha => absurd ha List.not_mem_nil, rfl⟩
  | cons c l ih =>
      obtain ⟨rfl, hl⟩ := h
      obtain ⟨fuel, rfl⟩ : ∃ n, fuel = n + 1 := ⟨fuel - 1, by omega⟩
      rw [List.length_cons, Nat.add_lt_add_iff_right] at hfuel
      cases hc : found c with
      | true =>
          refine .inr ⟨[], c, l, rfl, fun b hb => absurd hb List.not_mem_nil, hc, ?_⟩
          rw [search, if_pos hc]
          rfl
      | false =>
          rw [search, if_neg (Bool.not_eq_true _ ▸ hc)]
          rcases @ih _ _ (some c) hl hfuel with ⟨hnone, hsearch⟩ |
            ⟨l₁, a, l₂, rfl, hbefore, ha, hsearch⟩
          · refine .inl ⟨fun a ha => ?_, hsearch⟩
            rcases List.mem_cons.mp ha with rfl | ha
            · exact hc
            · exact hnone a ha
          · refine .inr ⟨c :: l₁, a, l₂, rfl, fun b hb => ?_, ha, ?_⟩
            · rcases List.mem_cons.mp hb with rfl | hb
              · exact hc
              · exact hbefore b hb
            · rw [hsearch]
              cases l₁ with
              | nil => rfl
              | cons b l₁ =>
                  rw [List.getLast?_cons_cons,
                    List.getLast?_eq_some_getLast (List.cons_ne_nil b l₁)]
                  rfl

end Search

end PointerList
