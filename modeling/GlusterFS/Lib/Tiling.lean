import Mathlib

/-!
# Consecutive ranges in modular arithmetic

Ranges are handed out one after the other in the numbers below `M`, each with a width,
in arithmetic modulo `M`: every range starts where the one before it has ended, and the
last one is stretched to `M - 1` (`ranges`).  When the widths are too large the sums wrap
around and ranges run into each other.

**The ranges tile `[0, M)` exactly when no width but the last is zero and together they
stay below `M`** (`tiles_ranges_iff`).

A list of ranges is checked by looking at two neighbours at a time, again modulo `M`: each has to
start where the one before it ends, and the last has to end at a given place (`Linked`).  For ranges
in the order of their starts that end the space this is a tiling, **unless a range that is the whole
space is followed by others** (`tiles_iff_linked`).  A range that ends below its start can be one of
them only if it ends right below it and stands before a range with the same start, and then it is as
if it were not there (`linked_iff_fitted`).
-/

namespace Tiling

variable {M start : ℕ} {ws : List ℕ}

/-- The ranges that start at `start` and have the widths `ws`, and one more that ends the
space. -/
def ranges (M : ℕ) : ℕ → List ℕ → List (ℕ × ℕ)
  | start, [] => [(start, M - 1)]
  | start, w :: ws => (start, (start + w + (M - 1)) % M) :: ranges M ((start + w) % M) ws

/-- Two ranges share no number. -/
def Apart (r s : ℕ × ℕ) : Prop := r.2 < s.1 ∨ s.2 < r.1

/-- Ranges that do not wrap around, that are disjoint, and that cover `[start, M)`. -/
structure Tiles (M start : ℕ) (rs : List (ℕ × ℕ)) : Prop where
  proper : ∀ r ∈ rs, r.1 ≤ r.2 ∧ r.2 < M
  apart : rs.Pairwise Apart
  cover : ∀ x, start ≤ x → x < M → ∃ r ∈ rs, r.1 ≤ x ∧ x ≤ r.2

theorem Tiles.nil (h : M ≤ start) : Tiles M start [] :=
  ⟨nofun, .nil, fun x hx hxM => by omega⟩

/-- A range in front of a tiling of what is behind it. -/
theorem Tiles.cons {r : ℕ × ℕ} {rs : List (ℕ × ℕ)} (h : Tiles M (r.2 + 1) rs)
    (hr : r.1 ≤ r.2 ∧ r.2 < M) (hstart : r.1 ≤ start) (habove : ∀ s ∈ rs, r.2 + 1 ≤ s.1) :
    Tiles M start (r :: rs) where
  proper := List.forall_mem_cons.mpr ⟨hr, h.proper⟩
  apart := List.pairwise_cons.mpr ⟨fun s hs => .inl (habove s hs), h.apart⟩
  cover x hx hxM := by
    by_cases hin : x ≤ r.2
    · exact ⟨r, List.mem_cons_self, hstart.trans hx, hin⟩
    · obtain ⟨s, hs, hin'⟩ := h.cover x (by omega) hxM
      exact ⟨s, List.mem_cons_of_mem r hs, hin'⟩

/-- The next range starts where the width says, and it comes first. -/
theorem ranges_eq_cons (M start : ℕ) (ws : List ℕ) :
    ∃ stop rest, ranges M start ws = (start, stop) :: rest := by
  cases ws with
  | nil => exact ⟨M - 1, [], rfl⟩
  | cons w ws => exact ⟨_, _, rfl⟩

/-- Without a wrap the end of a range is one below the start of the next. -/
theorem stop_of_fit {w : ℕ} (hw : 0 < w) (hfit : start + w ≤ M) :
    (start + w + (M - 1)) % M = start + w - 1 := by
  have hsum : start + w + (M - 1) = start + w - 1 + M := by omega
  rw [hsum, Nat.add_mod_right, Nat.mod_eq_of_lt (by omega)]

theorem le_of_mem_ranges (hpos : ∀ w ∈ ws, 0 < w) (hfit : start + ws.sum < M) :
    ∀ r ∈ ranges M start ws, start ≤ r.1 := by
  induction ws generalizing start with
  | nil =>
      intro r hr
      rw [List.mem_singleton.mp hr]
  | cons w ws ih =>
      rw [List.sum_cons] at hfit
      have hnext : (start + w) % M = start + w := Nat.mod_eq_of_lt (by omega)
      intro r hr
      rw [ranges, hnext] at hr
      rcases List.mem_cons.mp hr with rfl | hr
      · exact le_refl _
      · have := ih (fun x hx => hpos x (List.mem_cons_of_mem _ hx)) (by omega) r hr
        omega

/-- Widths that fit give a tiling. -/
theorem tiles_ranges (hpos : ∀ w ∈ ws, 0 < w) (hfit : start + ws.sum < M) :
    Tiles M start (ranges M start ws) := by
  induction ws generalizing start with
  | nil =>
      have hfit : start < M := by simpa using hfit
      have hend : M ≤ M - 1 + 1 := by omega
      exact (Tiles.nil hend).cons ⟨Nat.le_sub_one_of_lt hfit, by omega⟩ le_rfl nofun
  | cons w ws ih =>
      rw [List.sum_cons] at hfit
      have hw : 0 < w := hpos w List.mem_cons_self
      have hpos' : ∀ x ∈ ws, 0 < x := fun x hx => hpos x (List.mem_cons_of_mem _ hx)
      have hfit' : start + w + ws.sum < M := by omega
      have hnext : (start + w) % M = start + w := Nat.mod_eq_of_lt (by omega)
      have hstop : (start + w + (M - 1)) % M = start + w - 1 := stop_of_fit hw (by omega)
      have hback : start + w = start + w - 1 + 1 := by omega
      have hrest := ih hpos' hfit'
      have habove := le_of_mem_ranges hpos' hfit'
      rw [ranges, hnext, hstop]
      refine Tiles.cons (hback ▸ hrest) ⟨?_, ?_⟩ le_rfl fun r hr => hback ▸ habove r hr <;>
        dsimp only <;> omega

/-- A range that does not wrap around and is disjoint from the next one, which starts above
it, has a width that fits. -/
theorem width_fits {w stop : ℕ} (hstart : start < M) (hw : w < M)
    (hle : start ≤ (start + w + (M - 1)) % M) (hnext : (start + w) % M ≤ stop)
    (habove : start ≤ (start + w) % M)
    (hapart : Apart (start, (start + w + (M - 1)) % M) ((start + w) % M, stop)) :
    0 < w ∧ start + w < M := by
  simp only [Apart] at hapart
  -- a width of zero takes everything, or ends below its start
  have hpos : 0 < w := by
    rcases Nat.eq_zero_or_pos w with rfl | hpos
    · rw [Nat.add_zero] at hle hapart hnext
      rw [Nat.mod_eq_of_lt hstart] at hapart hnext
      omega
    · exact hpos
  refine ⟨hpos, ?_⟩
  by_contra hover
  rcases Nat.eq_or_lt_of_not_lt hover with hfull | hover
  · -- the range ends the space and the next one starts again at zero
    rw [← hfull, Nat.mod_self] at habove hapart
    rw [Nat.add_mod_left, Nat.mod_eq_of_lt (by omega)] at hapart
    omega
  · have hwrap : start + w + (M - 1) = start + w - 1 - M + M + M := by omega
    rw [hwrap, Nat.add_mod_right, Nat.add_mod_right, Nat.mod_eq_of_lt (by omega)] at hle
    omega

/-- Ranges that are disjoint, and that start above what has been handed out before, have
widths that fit. -/
theorem fit_of_apart (hlt : ∀ w ∈ ws, w < M) (hstart : start < M)
    (hproper : ∀ r ∈ ranges M start ws, r.1 ≤ r.2) (hapart : (ranges M start ws).Pairwise Apart)
    (habove : ∀ r ∈ ranges M start ws, start ≤ r.1) :
    (∀ w ∈ ws, 0 < w) ∧ start + ws.sum < M := by
  induction ws generalizing start with
  | nil => exact ⟨nofun, by simpa using hstart⟩
  | cons w ws ih =>
      rw [ranges] at hproper hapart habove
      obtain ⟨hfirst, hrest⟩ := List.pairwise_cons.mp hapart
      obtain ⟨stop, rest, hranges⟩ := ranges_eq_cons M ((start + w) % M) ws
      have hnext : ((start + w) % M, stop) ∈ ranges M ((start + w) % M) ws := by
        rw [hranges]
        exact List.mem_cons_self
      obtain ⟨hpos, hsum⟩ := width_fits hstart (hlt w List.mem_cons_self)
        (hproper _ List.mem_cons_self) (hproper _ (List.mem_cons_of_mem _ hnext))
        (habove _ (List.mem_cons_of_mem _ hnext)) (hfirst _ hnext)
      rw [Nat.mod_eq_of_lt hsum] at hrest hfirst hproper habove
      rw [stop_of_fit hpos hsum.le] at hfirst
      -- what is disjoint from this range and starts above it starts above its end
      have habove' : ∀ r ∈ ranges M (start + w) ws, start + w ≤ r.1 := by
        intro r hr
        have hlow := habove r (List.mem_cons_of_mem _ hr)
        have hr' := hproper r (List.mem_cons_of_mem _ hr)
        have hdisjoint := hfirst r hr
        simp only [Apart] at hdisjoint
        omega
      obtain ⟨hrestPos, hrestFit⟩ := ih (fun x hx => hlt x (List.mem_cons_of_mem _ hx)) hsum
        (fun r hr => hproper r (List.mem_cons_of_mem _ hr)) hrest habove'
      refine ⟨fun x hx => ?_, ?_⟩
      · rcases List.mem_cons.mp hx with rfl | hx
        · exact hpos
        · exact hrestPos x hx
      · rw [List.sum_cons]
        omega

/-- **Ranges tile the space exactly when the widths fit.** -/
theorem tiles_ranges_iff (hM : 0 < M) (hlt : ∀ w ∈ ws, w < M) :
    Tiles M 0 (ranges M 0 ws) ↔ (∀ w ∈ ws, 0 < w) ∧ ws.sum < M := by
  constructor
  · intro h
    have := fit_of_apart hlt hM (fun r hr => (h.proper r hr).1) h.apart fun r _ => Nat.zero_le _
    rwa [Nat.zero_add] at this
  · rintro ⟨hpos, hfit⟩
    exact tiles_ranges hpos (by rwa [Nat.zero_add])

/-! ## Looking at neighbours -/

/-- Every range starts where the one before it ends, the first behind `prev`, and the last one ends at
`last`. -/
def Linked (M last : ℕ) : ℕ → List (ℕ × ℕ) → Prop
  | prev, [] => prev = last
  | prev, r :: rs => (prev + 1) % M = r.1 ∧ Linked M last r.2 rs

/-- A range that is the whole space is the only one. -/
def Lone (M : ℕ) (rs : List (ℕ × ℕ)) : Prop := ∀ r ∈ rs, r.1 = 0 → r.2 = M - 1 → rs = [r]

variable {rs rs' : List (ℕ × ℕ)} {prev : ℕ}

theorem Apart.symm {r s : ℕ × ℕ} (h : Apart r s) : Apart s r := Or.symm h

theorem Tiles.perm (h : Tiles M start rs) (hperm : rs.Perm rs') : Tiles M start rs' where
  proper r hr := h.proper r (hperm.mem_iff.mpr hr)
  apart := (hperm.pairwise_iff Apart.symm).mp h.apart
  cover x hx hxM := by
    obtain ⟨r, hr, hin⟩ := h.cover x hx hxM
    exact ⟨r, hperm.mem_iff.mp hr, hin⟩

/-- The first number is covered by the first range. -/
theorem Tiles.head_le {r : ℕ × ℕ} (h : Tiles M start (r :: rs)) (hsorted : ∀ s ∈ rs, r.1 ≤ s.1)
    (hstart : start < M) : r.1 ≤ start := by
  obtain ⟨s, hs, hin⟩ := h.cover start le_rfl hstart
  rcases List.mem_cons.mp hs with rfl | hs
  · exact hin.1
  · exact (hsorted s hs).trans hin.1

/-- A tiling goes on behind its first range, unless this ends the space. -/
theorem Tiles.tail {r : ℕ × ℕ} (h : Tiles M start (r :: rs)) (hr : r.1 = start)
    (hsorted : ∀ s ∈ rs, r.1 ≤ s.1) :
    Tiles M (r.2 + 1) rs ∧ (∀ s ∈ rs, r.2 + 1 ≤ s.1) ∧ (r.2 + 1 < M ∨ rs = []) := by
  obtain ⟨hfirst, hrest⟩ := List.pairwise_cons.mp h.apart
  have habove : ∀ s ∈ rs, r.2 + 1 ≤ s.1 := by
    intro s hs
    have hle := hsorted s hs
    have hproper := (h.proper s (List.mem_cons_of_mem r hs)).1
    rcases hfirst s hs with hlt | hlt <;> omega
  refine ⟨⟨fun s hs => h.proper s (List.mem_cons_of_mem r hs), hrest, fun x hx hxM => ?_⟩, habove, ?_⟩
  · have hle := (h.proper r List.mem_cons_self).1
    obtain ⟨s, hs, hin⟩ := h.cover x (by omega) hxM
    rcases List.mem_cons.mp hs with rfl | hs
    · omega
    · exact ⟨s, hs, hin⟩
  · refine or_iff_not_imp_right.mpr fun hne => ?_
    obtain ⟨s, hs⟩ := List.exists_mem_of_ne_nil rs hne
    have hs' := h.proper s (List.mem_cons_of_mem r hs)
    exact (habove s hs).trans_lt (hs'.1.trans_lt hs'.2)

/-- **A tiling in order is linked.** -/
theorem linked_of_tiles (h : Tiles M start rs) (hsorted : rs.Pairwise fun r s => r.1 ≤ s.1)
    (habove : ∀ r ∈ rs, start ≤ r.1) (hprev : prev < M) (hstart : prev + 1 = start)
    (hsome : prev + 1 < M ∨ rs = []) : Linked M (M - 1) prev rs := by
  induction rs generalizing start prev with
  | nil =>
      change prev = M - 1
      by_contra hne
      obtain ⟨r, hr, -⟩ := h.cover (prev + 1) hstart.ge (by omega)
      cases hr
  | cons r rs ih =>
      obtain ⟨hle, hsorted'⟩ := List.pairwise_cons.mp hsorted
      have hlt : prev + 1 < M := hsome.resolve_right (List.cons_ne_nil r rs)
      have hfirst : r.1 = start :=
        le_antisymm (h.head_le hle (hstart ▸ hlt)) (habove r List.mem_cons_self)
      obtain ⟨htail, habove', hmore⟩ := h.tail hfirst hle
      refine ⟨?_, ih htail hsorted' habove' (h.proper r List.mem_cons_self).2 rfl hmore⟩
      rw [Nat.mod_eq_of_lt hlt, hstart, hfirst]

/-- Linked ranges in order tile what is behind `prev`. -/
theorem tiles_of_linked (hproper : ∀ r ∈ rs, r.1 ≤ r.2 ∧ r.2 < M)
    (hsorted : rs.Pairwise fun r s => r.1 ≤ s.1) (hprev : prev + 1 < M) (h : Linked M (M - 1) prev rs) :
    Tiles M (prev + 1) rs ∧ ∀ r ∈ rs, prev + 1 ≤ r.1 := by
  induction rs generalizing prev with
  | nil =>
      have hend : prev = M - 1 := h
      omega
  | cons r rs ih =>
      obtain ⟨hle, hsorted'⟩ := List.pairwise_cons.mp hsorted
      obtain ⟨hlink, hrest⟩ := h
      rw [Nat.mod_eq_of_lt hprev] at hlink
      have hr := hproper r List.mem_cons_self
      by_cases hend : r.2 + 1 < M
      · obtain ⟨htiles, habove⟩ := ih (fun s hs => hproper s (List.mem_cons_of_mem r hs)) hsorted'
          hend hrest
        exact ⟨htiles.cons hr hlink.ge habove,
          List.forall_mem_cons.mpr ⟨hlink.le, fun s hs => hlink.le.trans (hle s hs)⟩⟩
      · -- the range ends the space, and one behind it would start at zero
        have hnone : rs = [] := by
          cases rs with
          | nil => rfl
          | cons s rest =>
              have hzero := hrest.1
              rw [show r.2 + 1 = M by omega, Nat.mod_self] at hzero
              have := hle s List.mem_cons_self
              omega
        subst hnone
        exact ⟨(Tiles.nil (not_lt.mp hend)).cons hr hlink.ge nofun,
          List.forall_mem_singleton.mpr hlink.le⟩

theorem Tiles.lone (h : Tiles M start rs) : Lone M rs := by
  intro r hr hstart hstop
  obtain ⟨before, after, heq⟩ := List.append_of_mem hr
  have hnone : ∀ s ∈ rs, ¬ Apart s r := by
    rintro s hs (hlt | hlt)
    · omega
    · have hend := (h.proper s hs).2
      have hproper := (h.proper s hs).1
      omega
  have hpair := h.apart
  rw [heq, List.pairwise_append, List.pairwise_cons] at hpair
  have hbefore : before = [] := List.eq_nil_iff_forall_not_mem.mpr fun s hs =>
    hnone s (heq ▸ List.mem_append_left _ hs) (hpair.2.2 s hs r List.mem_cons_self)
  have hafter : after = [] := List.eq_nil_iff_forall_not_mem.mpr fun s hs =>
    hnone s (heq ▸ List.mem_append_right _ (List.mem_cons_of_mem _ hs)) (hpair.2.1.1 s hs).symm
  rw [heq, hbefore, hafter]
  rfl

/-- **Ranges in order tile the space exactly when they are linked**, and the whole space is no range
among others. -/
theorem tiles_iff_linked (hM : 1 < M) (hproper : ∀ r ∈ rs, r.1 ≤ r.2 ∧ r.2 < M)
    (hsorted : rs.Pairwise fun r s => r.1 ≤ s.1) :
    Tiles M 0 rs ↔ (rs ≠ [] ∧ Linked M (M - 1) (M - 1) rs) ∧ Lone M rs := by
  cases rs with
  | nil =>
      refine iff_of_false (fun h => ?_) fun h => h.1.1 rfl
      obtain ⟨r, hr, -⟩ := h.cover 0 le_rfl (by omega)
      cases hr
  | cons r rs =>
      obtain ⟨hle, hsorted'⟩ := List.pairwise_cons.mp hsorted
      have hr := hproper r List.mem_cons_self
      have hwrap : (M - 1 + 1) % M = 0 := by rw [Nat.sub_add_cancel hM.le, Nat.mod_self]
      constructor
      · intro h
        have hfirst : r.1 = 0 := Nat.le_zero.mp (h.head_le hle (by omega))
        obtain ⟨htail, habove, hmore⟩ := h.tail hfirst hle
        exact ⟨⟨List.cons_ne_nil r rs, hwrap.trans hfirst.symm,
          linked_of_tiles htail hsorted' habove hr.2 rfl hmore⟩, h.lone⟩
      · rintro ⟨⟨-, hfirst, hrest⟩, hlone⟩
        rw [hwrap] at hfirst
        by_cases hend : r.2 + 1 < M
        · obtain ⟨htiles, habove⟩ := tiles_of_linked
            (fun s hs => hproper s (List.mem_cons_of_mem r hs)) hsorted' hend hrest
          exact htiles.cons hr hfirst.ge habove
        · have hone := hlone r List.mem_cons_self hfirst.symm (by omega)
          rw [hone]
          exact (Tiles.nil (not_lt.mp hend)).cons hr hfirst.ge nofun

/-- Ranges that end below their starts end right below, and stand before a range with the same
start. -/
def Fitted : List (ℕ × ℕ) → Prop
  | [] => True
  | [r] => r.1 < r.2
  | r :: s :: rs => (r.2 < r.1 → r.2 + 1 = r.1 ∧ s.1 = r.1) ∧ Fitted (s :: rs)

theorem fitted_of_proper (h : ∀ r ∈ rs, r.1 < r.2) : Fitted rs := by
  induction rs using Fitted.induct with
  | case1 => trivial
  | case2 r => exact h r (List.mem_singleton_self r)
  | case3 r s rs ih =>
      exact ⟨fun hlt => absurd hlt (h r List.mem_cons_self).le.not_gt,
        ih fun x hx => h x (List.mem_cons_of_mem r hx)⟩

/-- The ranges that do not end below their starts. -/
abbrev forward (rs : List (ℕ × ℕ)) : List (ℕ × ℕ) := rs.filter fun r => decide (r.1 < r.2)

theorem forward_cons_of_lt {r : ℕ × ℕ} (h : r.1 < r.2) : forward (r :: rs) = r :: forward rs :=
  List.filter_cons_of_pos (by rwa [decide_eq_true_iff])

theorem forward_cons_of_not_lt {r : ℕ × ℕ} (h : ¬ r.1 < r.2) : forward (r :: rs) = forward rs :=
  List.filter_cons_of_neg (by rwa [decide_eq_true_iff])

theorem Fitted.forward_ne_nil (h : Fitted rs) (hne : rs ≠ []) : forward rs ≠ [] := by
  induction rs using Fitted.induct with
  | case1 => exact absurd rfl hne
  | case2 r =>
      rw [forward_cons_of_lt h]
      exact List.cons_ne_nil r _
  | case3 r s rs ih =>
      by_cases hforward : r.1 < r.2
      · rw [forward_cons_of_lt hforward]
        exact List.cons_ne_nil r _
      · rw [forward_cons_of_not_lt hforward]
        exact ih h.2 (List.cons_ne_nil s rs)

theorem Fitted.linked_forward {last : ℕ} (h : Fitted rs) (hbound : ∀ r ∈ rs, r.1 ≠ r.2 ∧ r.1 < M) :
    Linked M last prev rs ↔ Linked M last prev (forward rs) := by
  induction rs using Fitted.induct generalizing prev with
  | case1 => exact Iff.rfl
  | case2 r => rw [forward_cons_of_lt h, forward, List.filter_nil]
  | case3 r s rs ih =>
      have hr := hbound r List.mem_cons_self
      have hrest : ∀ x ∈ s :: rs, x.1 ≠ x.2 ∧ x.1 < M := fun x hx =>
        hbound x (List.mem_cons_of_mem r hx)
      by_cases hforward : r.1 < r.2
      · rw [forward_cons_of_lt hforward]
        exact and_congr_right fun _ => ih h.2 hrest
      · -- one step back and the same start again
        obtain ⟨hstop, hstart⟩ := h.1 (by omega)
        rw [forward_cons_of_not_lt hforward]
        refine Iff.trans ?_ (ih h.2 hrest)
        rw [Linked, Linked, Linked, hstop, Nat.mod_eq_of_lt hr.2, hstart]
        exact ⟨fun hlinked => ⟨hlinked.1, hlinked.2.2⟩, fun hlinked => ⟨hlinked.1, rfl, hlinked.2⟩⟩

theorem Linked.fitted (hbound : ∀ r ∈ rs, r.1 ≠ r.2 ∧ r.1 < M)
    (hsorted : rs.Pairwise fun r s => r.1 ≤ s.1) (h : Linked M (M - 1) prev rs) : Fitted rs := by
  induction rs using Fitted.induct generalizing prev with
  | case1 => trivial
  | case2 r =>
      have hr := hbound r List.mem_cons_self
      have hend : r.2 = M - 1 := h.2
      change r.1 < r.2
      omega
  | case3 r s rs ih =>
      obtain ⟨hle, hsorted'⟩ := List.pairwise_cons.mp hsorted
      refine ⟨fun hlt => ?_, ih (fun x hx => hbound x (List.mem_cons_of_mem r hx)) hsorted' h.2⟩
      have hr := hbound r List.mem_cons_self
      have hs := hle s List.mem_cons_self
      have hnext : (r.2 + 1) % M = s.1 := h.2.1
      rw [Nat.mod_eq_of_lt (by omega)] at hnext
      omega

/-- **Ranges in order that may end below their starts.** -/
theorem linked_iff_fitted (hbound : ∀ r ∈ rs, r.1 ≠ r.2 ∧ r.1 < M)
    (hsorted : rs.Pairwise fun r s => r.1 ≤ s.1) :
    rs ≠ [] ∧ Linked M (M - 1) prev rs ↔
      Fitted rs ∧ forward rs ≠ [] ∧ Linked M (M - 1) prev (forward rs) := by
  constructor
  · rintro ⟨hne, hlinked⟩
    have hfitted := hlinked.fitted hbound hsorted
    exact ⟨hfitted, hfitted.forward_ne_nil hne, (hfitted.linked_forward hbound).mp hlinked⟩
  · rintro ⟨hfitted, hne, hlinked⟩
    refine ⟨fun hnil => hne ?_, (hfitted.linked_forward hbound).mpr hlinked⟩
    rw [hnil]
    rfl

end Tiling
