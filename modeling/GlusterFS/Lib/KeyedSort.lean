import Mathlib

/-!
# Sorting by a comparison that is only good for its key

`qsort` sorts by merging: the halves are sorted, and the smaller head goes first.  The result is a
permutation whatever the comparison says (`msort_perm`).  When the comparison decides by a key
wherever the keys differ, the result is sorted by the key, even if the comparison is not transitive
among entries of one key (`msort_sorted`): merging never compares more than two heads.

A list that is sorted by a key is made of the entries of each key, one key after the other
(`eq_flatMap_filter`).

`exchangeSort` is the sort of two nested loops: every place is compared with all the later ones,
and the two entries are exchanged when the comparison says so.  One pass brings an entry of the
smallest key to its place when the comparison decides by the key among the entries
(`exchangePass_le`).
-/

namespace KeyedSort

variable {α : Type*}

/-- Merge sort, down to some depth. -/
def msortFuel (le : α → α → Bool) : ℕ → List α → List α
  | 0, xs => xs
  | fuel + 1, xs =>
      if xs.length ≤ 1 then xs
      else (msortFuel le fuel (xs.take (xs.length / 2))).merge
        (msortFuel le fuel (xs.drop (xs.length / 2))) le

/-- Merge sort. -/
def msort (le : α → α → Bool) (xs : List α) : List α := msortFuel le xs.length xs

theorem msortFuel_perm (le : α → α → Bool) (fuel : ℕ) (xs : List α) :
    (msortFuel le fuel xs).Perm xs := by
  induction fuel generalizing xs with
  | zero => exact List.Perm.refl xs
  | succ fuel ih =>
      unfold msortFuel
      split_ifs
      · exact List.Perm.refl xs
      · have hhalves := ((ih (xs.take (xs.length / 2))).append (ih (xs.drop (xs.length / 2))))
        rw [List.take_append_drop] at hhalves
        exact (List.merge_perm_append _).trans hhalves

/-- **The result is a permutation.** -/
theorem msort_perm (le : α → α → Bool) (xs : List α) : (msort le xs).Perm xs :=
  msortFuel_perm le _ xs

variable {le : α → α → Bool} {key : α → ℕ}

/-- The comparison decides by the key. -/
def Decides (le : α → α → Bool) (key : α → ℕ) : Prop :=
  ∀ a b, (le a b = true → key a ≤ key b) ∧ (le a b = false → key b ≤ key a)

theorem merge_sorted (h : Decides le key) (xs ys : List α)
    (hx : xs.Pairwise fun a b => key a ≤ key b) (hy : ys.Pairwise fun a b => key a ≤ key b) :
    (xs.merge ys le).Pairwise fun a b => key a ≤ key b := by
  induction xs generalizing ys with
  | nil =>
      rw [List.nil_merge]
      exact hy
  | cons x xs ihx =>
      induction ys with
      | nil =>
          rw [List.merge_right]
          exact hx
      | cons y ys ihy =>
          obtain ⟨hxs, hxs'⟩ := List.pairwise_cons.mp hx
          obtain ⟨hys, hys'⟩ := List.pairwise_cons.mp hy
          rw [List.cons_merge_cons]
          split_ifs with hle
          · refine List.pairwise_cons.mpr ⟨fun a ha => ?_, ihx _ hxs' hy⟩
            have hxy := (h x y).1 hle
            rcases List.mem_append.mp ((List.merge_perm_append _).mem_iff.mp ha) with ha | ha
            · exact hxs a ha
            · rcases List.mem_cons.mp ha with rfl | ha
              · exact hxy
              · exact hxy.trans (hys a ha)
          · refine List.pairwise_cons.mpr ⟨fun a ha => ?_, ihy hys'⟩
            have hyx := (h x y).2 (Bool.eq_false_iff.mpr hle)
            rcases List.mem_append.mp ((List.merge_perm_append _).mem_iff.mp ha) with ha | ha
            · rcases List.mem_cons.mp ha with rfl | ha
              · exact hyx
              · exact hyx.trans (hxs a ha)
            · exact hys a ha

theorem msortFuel_sorted (h : Decides le key) (fuel : ℕ) (xs : List α) (hfuel : xs.length ≤ fuel) :
    (msortFuel le fuel xs).Pairwise fun a b => key a ≤ key b := by
  induction fuel generalizing xs with
  | zero =>
      rw [List.eq_nil_of_length_eq_zero (Nat.le_zero.mp hfuel)]
      exact List.Pairwise.nil
  | succ fuel ih =>
      unfold msortFuel
      split_ifs with hshort
      · match xs with
        | [] => exact List.Pairwise.nil
        | [x] => exact List.pairwise_singleton _ x
        | _ :: _ :: _ => simp at hshort
      · refine merge_sorted h _ _ (ih _ ?_) (ih _ ?_)
        · rw [List.length_take]
          omega
        · rw [List.length_drop]
          omega

/-- **The result is sorted by the key.** -/
theorem msort_sorted (h : Decides le key) (xs : List α) :
    (msort le xs).Pairwise fun a b => key a ≤ key b := msortFuel_sorted h _ xs le_rfl

/-- The entries of the smallest key come first. -/
theorem eq_append_filter {xs : List α} {k : ℕ} (h : xs.Pairwise fun a b => key a ≤ key b)
    (hk : ∀ a ∈ xs, k ≤ key a) :
    xs = xs.filter (fun a => key a = k) ++ xs.filter fun a => key a ≠ k := by
  induction xs with
  | nil => rfl
  | cons x xs ih =>
      obtain ⟨hx, hxs⟩ := List.pairwise_cons.mp h
      have hrest := ih hxs fun a ha => hk a (List.mem_cons_of_mem x ha)
      by_cases hxk : key x = k
      · simp only [List.filter_cons, hxk, decide_true, if_true, ne_eq, not_true_eq_false,
          decide_false, Bool.false_eq_true, if_false, List.cons_append]
        exact congrArg (x :: ·) hrest
      · have hlt : k < key x := lt_of_le_of_ne (hk x List.mem_cons_self) (Ne.symm hxk)
        have hnone : xs.filter (fun a => key a = k) = [] := by
          refine List.filter_eq_nil_iff.mpr fun a ha => ?_
          have hle := hx a ha
          simp only [decide_eq_true_eq]
          omega
        rw [hnone, List.nil_append] at hrest
        simp only [List.filter_cons, hxk, decide_false, Bool.false_eq_true, if_false, ne_eq,
          not_false_eq_true, decide_true, if_true, hnone, List.nil_append]
        exact congrArg (x :: ·) hrest

/-- **A sorted list is made of the entries of each key.** -/
theorem eq_flatMap_filter {ks : List ℕ} (hks : ks.Pairwise (· < ·)) :
    ∀ {xs : List α}, (xs.Pairwise fun a b => key a ≤ key b) → (∀ a ∈ xs, key a ∈ ks) →
      xs = ks.flatMap fun k => xs.filter fun a => key a = k := by
  induction ks with
  | nil =>
      intro xs _ hmem
      cases xs with
      | nil => rfl
      | cons x xs => exact absurd (hmem x List.mem_cons_self) List.not_mem_nil
  | cons k ks ih =>
      intro xs h hmem
      obtain ⟨hk, hks'⟩ := List.pairwise_cons.mp hks
      have hleast : ∀ a ∈ xs, k ≤ key a := fun a ha => by
        rcases List.mem_cons.mp (hmem a ha) with heq | hin
        · exact heq.ge
        · exact (hk _ hin).le
      have hrest := @ih hks' (xs.filter fun a => key a ≠ k) (h.sublist List.filter_sublist)
        fun a ha => by
          obtain ⟨hin, hne⟩ := List.mem_filter.mp ha
          exact (List.mem_cons.mp (hmem a hin)).resolve_left (by simpa using hne)
      have hsame :
          (ks.flatMap fun k' => (xs.filter fun a => key a ≠ k).filter fun a => key a = k') =
            ks.flatMap fun k' => xs.filter fun a => key a = k' := by
        refine List.flatMap_congr fun k' hk' => ?_
        rw [List.filter_filter]
        refine List.filter_congr fun a _ => ?_
        have hne : k' ≠ k := (hk k' hk').ne'
        by_cases hak : key a = k'
        · simp [hak, hne]
        · simp [hak]
      rw [hsame] at hrest
      rw [List.flatMap_cons, ← hrest]
      exact eq_append_filter h hleast

/-! ## Exchanging -/

/-- The inner loop: `x` stands in the place that is compared with the later ones `xs`.  The entry
that ends up in the place, and what is left behind it. -/
def exchangePass (swap : α → α → Bool) : α → List α → α × List α
  | x, [] => (x, [])
  | x, y :: ys =>
      if swap x y then ((exchangePass swap y ys).1, x :: (exchangePass swap y ys).2)
      else ((exchangePass swap x ys).1, y :: (exchangePass swap x ys).2)

/-- The outer loop, for some places. -/
def exchangeSortFuel (swap : α → α → Bool) : ℕ → List α → List α
  | 0, xs => xs
  | _ + 1, [] => []
  | fuel + 1, x :: xs =>
      (exchangePass swap x xs).1 :: exchangeSortFuel swap fuel (exchangePass swap x xs).2

/-- The sort of two nested loops. -/
def exchangeSort (swap : α → α → Bool) (xs : List α) : List α :=
  exchangeSortFuel swap xs.length xs

variable {swap : α → α → Bool}

theorem exchangePass_perm (x : α) (xs : List α) :
    ((exchangePass swap x xs).1 :: (exchangePass swap x xs).2).Perm (x :: xs) := by
  induction xs generalizing x with
  | nil => exact List.Perm.refl _
  | cons y ys ih =>
      rw [exchangePass]
      split
      · exact (List.Perm.swap ..).trans ((ih y).cons x)
      · exact (List.Perm.swap ..).trans (((ih x).cons y).trans (List.Perm.swap ..))

/-- The entry that ends up in the place has the smallest key. -/
theorem exchangePass_le {x : α} {xs : List α}
    (h : ∀ a ∈ x :: xs, ∀ b ∈ x :: xs, swap a b = true ↔ key b < key a) :
    ∀ a ∈ x :: xs, key (exchangePass swap x xs).1 ≤ key a := by
  induction xs generalizing x with
  | nil =>
      intro a ha
      rw [List.mem_singleton.mp ha]
      exact le_rfl
  | cons y ys ih =>
      have hx := List.mem_cons_self (a := x) (l := y :: ys)
      have hy : y ∈ x :: y :: ys := List.mem_cons_of_mem x List.mem_cons_self
      have hswap := h x hx y hy
      rw [exchangePass]
      split
      · next hyes =>
        have hrest := ih fun a ha b hb => h a (List.mem_cons_of_mem x ha) b
          (List.mem_cons_of_mem x hb)
        intro a ha
        rcases List.mem_cons.mp ha with rfl | ha
        · exact (hrest y List.mem_cons_self).trans (hswap.mp hyes).le
        · exact hrest a ha
      · next hno =>
        have hsub : ∀ a ∈ x :: ys, a ∈ x :: y :: ys := by
          intro a ha
          rcases List.mem_cons.mp ha with rfl | ha
          · exact hx
          · exact List.mem_cons_of_mem x (List.mem_cons_of_mem y ha)
        have hrest := ih fun a ha b hb => h a (hsub a ha) b (hsub b hb)
        have hle : key x ≤ key y := Nat.le_of_not_lt (mt hswap.mpr hno)
        intro a ha
        rcases List.mem_cons.mp ha with rfl | ha
        · exact hrest a List.mem_cons_self
        · rcases List.mem_cons.mp ha with rfl | ha
          · exact (hrest x List.mem_cons_self).trans hle
          · exact hrest a (List.mem_cons_of_mem x ha)

theorem exchangeSortFuel_perm (fuel : ℕ) (xs : List α) :
    (exchangeSortFuel swap fuel xs).Perm xs := by
  induction fuel generalizing xs with
  | zero => exact List.Perm.refl _
  | succ fuel ih =>
      cases xs with
      | nil => exact List.Perm.refl _
      | cons x xs => exact ((ih _).cons _).trans (exchangePass_perm x xs)

theorem exchangeSort_perm (xs : List α) : (exchangeSort swap xs).Perm xs :=
  exchangeSortFuel_perm _ xs

end KeyedSort
