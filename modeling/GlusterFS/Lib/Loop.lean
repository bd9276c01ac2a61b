import Mathlib

/-!
# Invariants of checked loops

A loop whose body can fail is a fold in `Option`.  `foldlM_range'_invariant` is
its total-correctness rule: a body that succeeds from every state of the
invariant makes the whole loop succeed.  `foldlM_invariant` is the rule of partial
correctness, over any list.

`wrappingFor` is the loop `for (j = 0; j < bound; j++)` whose counter has only
`w` bits while its bound is wider.  It takes fuel, because it need not stop:
`wrappingFor_invariant` determines its result for every amount of fuel when the
bound fits the counter, and `wrappingFor_diverges` says that it never stops when
the bound does not.
-/

namespace Loop

variable {σ : Type*}

/-- What every turn that succeeds keeps holds after a loop that succeeds. -/
theorem foldlM_invariant {α : Type*} {body : σ → α → Option σ} (inv : σ → Prop) {l : List α}
    {s s' : σ} (initial : inv s)
    (step : ∀ a ∈ l, ∀ s s', inv s → body s a = some s' → inv s')
    (run : l.foldlM body s = some s') : inv s' := by
  induction l generalizing s with
  | nil =>
      cases run
      exact initial
  | cons a l ih =>
      rw [List.foldlM_cons] at run
      obtain ⟨mid, first, rest⟩ := Option.bind_eq_some_iff.mp run
      exact ih (step a List.mem_cons_self s mid initial first)
        (fun b hb => step b (List.mem_cons_of_mem a hb)) rest

/-- **Total correctness of a checked counting loop.** -/
theorem foldlM_range'_invariant (body : σ → ℕ → Option σ) (inv : ℕ → σ → Prop)
    (start n : ℕ) {s : σ} (initial : inv start s)
    (step : ∀ i s, start ≤ i → i < start + n → inv i s →
      ∃ s', body s i = some s' ∧ inv (i + 1) s') :
    ∃ s', (List.range' start n).foldlM body s = some s' ∧ inv (start + n) s' := by
  induction n generalizing start s with
  | zero => exact ⟨s, rfl, initial⟩
  | succ n ih =>
      obtain ⟨mid, first, hmid⟩ := step start s le_rfl (by omega) initial
      obtain ⟨s', rest, hs'⟩ := ih (start + 1) hmid
        fun i s hlow hhigh => step i s (by omega) (by omega)
      refine ⟨s', ?_, by rwa [show start + (n + 1) = start + 1 + n by omega]⟩
      rw [List.range'_succ, List.foldlM_cons, first]
      exact rest

theorem foldlM_range_invariant (body : σ → ℕ → Option σ) (inv : ℕ → σ → Prop)
    (n : ℕ) {s : σ} (initial : inv 0 s)
    (step : ∀ i s, i < n → inv i s → ∃ s', body s i = some s' ∧ inv (i + 1) s') :
    ∃ s', (List.range n).foldlM body s = some s' ∧ inv n s' := by
  obtain ⟨s', run, hs'⟩ := foldlM_range'_invariant body inv 0 n initial
    fun i s _ hi => step i s (by omega)
  rw [Nat.zero_add] at hs'
  exact ⟨s', by rw [List.range_eq_range', run], hs'⟩

/-! ## Counters narrower than their bound -/

/-- `for (; j < bound; j++)` with a counter of `w` bits.  `none` is a failed body
or an exhausted fuel. -/
def wrappingFor (w bound : ℕ) (body : σ → Option σ) : ℕ → ℕ → σ → Option σ
  | 0, _, _ => none
  | fuel + 1, j, s =>
      if j < bound then
        (body s).bind (wrappingFor w bound body fuel ((j + 1) % 2 ^ w))
      else
        some s

/-- The loop from the counter `j` on, when the bound fits the counter. -/
theorem wrappingFor_from (w bound : ℕ) (body : σ → Option σ) (inv : ℕ → σ → Prop)
    (fits : bound < 2 ^ w)
    (step : ∀ i s, i < bound → inv i s → ∃ s', body s = some s' ∧ inv (i + 1) s')
    (left j : ℕ) (hleft : j + left = bound) {s : σ} (initial : inv j s) :
    ∃ s', inv bound s' ∧ ∀ fuel, wrappingFor w bound body fuel j s =
      if left < fuel then some s' else none := by
  induction left generalizing j s with
  | zero =>
      obtain rfl : j = bound := hleft
      refine ⟨s, initial, fun fuel => ?_⟩
      cases fuel with
      | zero => rfl
      | succ fuel => rw [wrappingFor, if_neg (lt_irrefl _), if_pos (Nat.succ_pos _)]
  | succ left ih =>
      obtain ⟨mid, first, hmid⟩ := step j s (by omega) initial
      obtain ⟨s', hs', rest⟩ := ih (j + 1) (by omega) hmid
      refine ⟨s', hs', fun fuel => ?_⟩
      cases fuel with
      | zero => rfl
      | succ fuel =>
          rw [wrappingFor, if_pos (by omega), first, Option.bind_some,
            Nat.mod_eq_of_lt (by omega), rest fuel]
          simp only [Nat.add_lt_add_iff_right]

/-- **When the bound fits the counter the loop makes exactly `bound` turns.** -/
theorem wrappingFor_invariant (w bound : ℕ) (body : σ → Option σ) (inv : ℕ → σ → Prop)
    (fits : bound < 2 ^ w) {s : σ} (initial : inv 0 s)
    (step : ∀ i s, i < bound → inv i s → ∃ s', body s = some s' ∧ inv (i + 1) s') :
    ∃ s', inv bound s' ∧ ∀ fuel, wrappingFor w bound body fuel 0 s =
      if bound < fuel then some s' else none :=
  wrappingFor_from w bound body inv fits step bound 0 (Nat.zero_add _) initial

/-- **A bound that does not fit the counter is never reached.** -/
theorem wrappingFor_diverges (w bound : ℕ) (body : σ → Option σ) (wide : 2 ^ w ≤ bound)
    (fuel j : ℕ) (hj : j < 2 ^ w) (s : σ) :
    wrappingFor w bound body fuel j s = none := by
  induction fuel generalizing j s with
  | zero => rfl
  | succ fuel ih =>
      rw [wrappingFor, if_pos (by omega)]
      cases body s with
      | none => rfl
      | some s' => exact ih _ (Nat.mod_lt _ (Nat.two_pow_pos w)) s'

end Loop
