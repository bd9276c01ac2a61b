import Mathlib

/-!
# State machines, runs and invariants

A `Machine` has starting states and a step function on labelled actions; an
action that is not enabled is `none`.  `ReachableWhen ok` are the states that a
run reaches all of whose steps meet the condition `ok` on the state before the
step and its action, and `Reachable` drops the condition.  An invariant needs
only be kept by the steps that meet the condition (`ReachableWhen.invariant`).

`exec` and `execWhen` run a list of actions, so that a concrete run can be evaluated.

`observe` keeps a history beside the state: a step may be refused because of what has happened,
and what it does is written down.

The last section counts threads: `tally S p f` is the number of threads of `S`
whose phase `f i` satisfies `p`, and `tally_update` follows one thread that moves
from one phase to another.
-/

universe u v

/-- Starting states and steps. -/
structure Machine (σ : Type u) (α : Type v) where
  start : σ → Prop
  step : σ → α → Option σ

namespace Machine

variable {σ : Type u} {α : Type v} (M : Machine σ α)

/-- The states of the runs whose steps all meet `ok`. -/
inductive ReachableWhen (ok : σ → α → Prop) : σ → Prop
  | start {s : σ} : M.start s → ReachableWhen ok s
  | next {s s' : σ} {a : α} : ReachableWhen ok s → ok s a → M.step s a = some s' →
      ReachableWhen ok s'

/-- The states of all runs. -/
abbrev Reachable : σ → Prop := M.ReachableWhen fun _ _ => True

variable {M}

/-- **The invariant rule.** -/
theorem ReachableWhen.invariant {ok : σ → α → Prop} (inv : σ → Prop)
    (initial : ∀ s, M.start s → inv s)
    (step : ∀ s a s', inv s → ok s a → M.step s a = some s' → inv s') {s : σ}
    (h : M.ReachableWhen ok s) : inv s := by
  induction h with
  | start hs => exact initial _ hs
  | next _ hok hstep ih => exact step _ _ _ ih hok hstep

theorem Reachable.invariant (inv : σ → Prop) (initial : ∀ s, M.start s → inv s)
    (step : ∀ s a s', inv s → M.step s a = some s' → inv s') {s : σ}
    (h : M.Reachable s) : inv s :=
  ReachableWhen.invariant inv initial (fun s a s' hs _ => step s a s' hs) h

/-- A run that meets a condition is a run. -/
theorem ReachableWhen.reachable {ok : σ → α → Prop} {s : σ} (h : M.ReachableWhen ok s) :
    M.Reachable s := by
  induction h with
  | start hs => exact .start hs
  | next _ _ hstep ih => exact .next ih trivial hstep

variable (M)

/-- Run a list of actions. -/
def exec (s : σ) (actions : List α) : Option σ := actions.foldlM M.step s

variable {M}

theorem ReachableWhen.exec {ok : σ → α → Prop} {s s' : σ} (h : M.ReachableWhen ok s)
    (actions : List α) (hok : ∀ a ∈ actions, ∀ t, ok t a) (run : M.exec s actions = some s') :
    M.ReachableWhen ok s' := by
  induction actions generalizing s with
  | nil =>
      cases run
      exact h
  | cons a actions ih =>
      rw [Machine.exec, List.foldlM_cons] at run
      cases hstep : M.step s a with
      | none =>
          rw [hstep] at run
          cases run
      | some mid =>
          rw [hstep] at run
          exact ih (h.next (hok a List.mem_cons_self s) hstep)
            (fun a' ha' => hok a' (List.mem_cons_of_mem _ ha')) run

theorem Reachable.exec {s s' : σ} (h : M.Reachable s) (actions : List α)
    (run : M.exec s actions = some s') : M.Reachable s' :=
  ReachableWhen.exec h actions (fun _ _ _ => trivial) run

variable (M)

/-- Run a list of actions, as long as every step meets a condition. -/
def execWhen (ok : σ → α → Prop) [∀ s a, Decidable (ok s a)] (s : σ) (actions : List α) :
    Option σ :=
  actions.foldlM (fun s a => if ok s a then M.step s a else none) s

variable {M}

theorem ReachableWhen.execWhen {ok : σ → α → Prop} [∀ s a, Decidable (ok s a)] {s s' : σ}
    (h : M.ReachableWhen ok s) (actions : List α) (run : M.execWhen ok s actions = some s') :
    M.ReachableWhen ok s' := by
  induction actions generalizing s with
  | nil =>
      cases run
      exact h
  | cons a actions ih =>
      rw [Machine.execWhen, List.foldlM_cons] at run
      by_cases hok : ok s a
      · rw [if_pos hok] at run
        cases hstep : M.step s a with
        | none =>
            rw [hstep] at run
            cases run
        | some mid =>
            rw [hstep] at run
            exact ih (h.next hok hstep) run
      · rw [if_neg hok] at run
        cases run

/-! ## Histories -/

section Observe

variable {η : Type*}

variable (M) in
/-- The machine with a history. -/
def observe (start : η) (allow : σ → η → α → Bool) (record : σ → η → α → σ → η) :
    Machine (σ × η) α where
  start p := M.start p.1 ∧ p.2 = start
  step p a :=
    if allow p.1 p.2 a then (M.step p.1 a).map fun s => (s, record p.1 p.2 a s) else none

variable {start : η} {allow : σ → η → α → Bool} {record : σ → η → α → σ → η}

theorem observe_step {p p' : σ × η} {a : α}
    (h : (M.observe start allow record).step p a = some p') :
    allow p.1 p.2 a = true ∧ M.step p.1 a = some p'.1 ∧ p'.2 = record p.1 p.2 a p'.1 := by
  obtain ⟨hallow, hmap⟩ := Option.ite_none_right_eq_some.mp h
  obtain ⟨s, hstep, rfl⟩ := Option.map_eq_some_iff.mp hmap
  exact ⟨hallow, hstep, rfl⟩

end Observe

end Machine

/-! ## Counting threads -/

section Tally

variable {ι β : Type*} {S : Finset ι}

/-- One thread moves from the phase `f i` to the phase `x`: a sum of weights over the
threads changes by its own weight only. -/
theorem sum_weight_update [DecidableEq ι] (w : β → ℕ) (f : ι → β) {i : ι} (hi : i ∈ S) (x : β) :
    (∑ j ∈ S, w (Function.update f i x j)) + w (f i) = (∑ j ∈ S, w (f j)) + w x := by
  have rest : ∑ j ∈ S.erase i, w (Function.update f i x j) = ∑ j ∈ S.erase i, w (f j) := by
    refine Finset.sum_congr rfl fun j hj => ?_
    rw [Function.update_of_ne (Finset.ne_of_mem_erase hj)]
  rw [← Finset.add_sum_erase S _ hi, ← Finset.add_sum_erase S (fun j => w (f j)) hi, rest,
    Function.update_self]
  omega

/-- The number of threads of `S` in a phase that satisfies `p`. -/
def tally (S : Finset ι) (p : β → Prop) [DecidablePred p] (f : ι → β) : ℕ :=
  (S.filter fun i => p (f i)).card

variable {p : β → Prop} [DecidablePred p]

theorem tally_update [DecidableEq ι] (f : ι → β) {i : ι} (hi : i ∈ S) (x : β) :
    tally S p (Function.update f i x) + (if p (f i) then 1 else 0)
      = tally S p f + (if p x then 1 else 0) := by
  simp only [tally, Finset.card_filter]
  exact sum_weight_update (fun y => if p y then 1 else 0) f hi x

theorem tally_pos_of_mem {f : ι → β} {i : ι} (hi : i ∈ S) (h : p (f i)) :
    0 < tally S p f :=
  Finset.card_pos.mpr ⟨i, Finset.mem_filter.mpr ⟨hi, h⟩⟩

theorem tally_eq_zero {f : ι → β} (h : ∀ i ∈ S, ¬ p (f i)) : tally S p f = 0 := by
  rw [tally, Finset.card_eq_zero, Finset.filter_eq_empty_iff]
  exact fun i hi => h i hi

end Tally
