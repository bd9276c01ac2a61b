import GlusterFS.Dht.Anomalies

/-!
# Keeping the ranges of a directory

When the layout of a directory is computed anew, `dht_selfheal_layout_maximize_overlap` exchanges
ranges between the subvolumes so that more hash values stay where they were.  It goes through the
entries and exchanges each with the later entry that gains most.  The gains come from a table of
the overlaps of all new ranges with all old ones, whose rows are exchanged along.

The overlaps and their sums are 32-bit values, and that is not enough: two ranges that together
have the **whole** hash space have `2 ^ 32` values in common with themselves, which is zero.  So
the one exchange that would keep everything is not made (`halves_not_exchanged`).  Ranges of a
single value count as no ranges, too.  Apart from these, every turn takes the best exchange there
is, counted in natural numbers.  `maximizeOverlap_greatest_iff` says exactly when: at each turn the
exchange that the 32-bit sums choose has to be best by the exact sums too, and for ranges that are
proper and disjoint this is that no exchange would keep all `2 ^ 32` values.
-/

namespace GlusterFS.Dht

open KeyedSort

/-! ## The model -/

/-- `uint32_t`. -/
def uint32 (n : ℕ) : ℕ := n % 2 ^ 32

/-- `dht_overlap_calc` for two entries that exist. -/
def dhtOverlapCalc (old new : LayoutEntry) : ℕ :=
  if old.err > 0 ∨ new.err > 0 then 0
  else if old.start = old.stop then 0
  else if new.start = new.stop then 0
  else if old.start > new.stop ∨ old.stop < new.start then 0
  else uint32 (2 ^ 32 + min old.stop new.stop - max old.start new.start + 1)

section Model

variable {n : ℕ}

/-- `dht_layout_sort_volname`; `name` gives the names of the subvolumes. -/
def dhtLayoutSortVolname (name : ℕ → List UInt8) (layout : Fin n → LayoutEntry) :
    Fin n → LayoutEntry := fun i =>
  (exchangeSort (fun a b => decide (name b.xlator < name a.xlator)) (List.ofFn layout)).get
    (i.cast (by rw [(exchangeSort_perm _).length_eq, List.length_ofFn]))

/-- The entry with the range of another one. -/
def LayoutEntry.withRange (e r : LayoutEntry) : LayoutEntry :=
  { e with start := r.start, stop := r.stop }

/-- `dht_layout_range_swap`. -/
def dhtLayoutRangeSwap (layout : Fin n → LayoutEntry) (i j : Fin n) : Fin n → LayoutEntry :=
  fun k => (layout k).withRange (layout (Equiv.swap i j k))

/-- The new layout and `table`, whose rows belong to the new ranges. -/
structure OverlapState (n : ℕ) where
  new : Fin n → LayoutEntry
  table : Fin n → Fin n → ℕ

/-- What the exchange of `i` and `j` gains, as far as it is not a loss. -/
def gain (table : Fin n → Fin n → ℕ) (i j : Fin n) : ℕ :=
  uint32 (table i j + table j i) - uint32 (table i i + table j j)

/-- The inner loop: `max_overlap` and `max_overlap_idx`. -/
def maxOverlap (s : OverlapState n) (i : Fin n) : ℕ × Fin n :=
  ((List.finRange n).filter fun j => decide (i < j ∧ ¬ (s.new j).err > 0)).foldl
    (fun best j => if gain s.table i j > best.1 then (gain s.table i j, j) else best) (0, i)

/-- One turn of the outer loop. -/
def overlapStep (s : OverlapState n) (i : Fin n) : OverlapState n :=
  if (s.new i).err > 0 then s
  else if (maxOverlap s i).2 ≠ i then
    { new := dhtLayoutRangeSwap s.new i (maxOverlap s i).2
      table := fun x => s.table (Equiv.swap i (maxOverlap s i).2 x) }
  else s

/-- The first `k` turns. -/
def overlapSteps (old new : Fin n → LayoutEntry) (k : ℕ) : OverlapState n :=
  ((List.finRange n).take k).foldl overlapStep ⟨new, fun i j => dhtOverlapCalc (old j) (new i)⟩

/-- `dht_selfheal_layout_maximize_overlap`. -/
def dhtSelfhealLayoutMaximizeOverlap (name : ℕ → List UInt8) (new old : Fin n → LayoutEntry) :
    Fin n → LayoutEntry :=
  (overlapSteps (dhtLayoutSortVolname name old) new n).new

end Model

/-! ## Overlaps of sets -/

/-- The hash values of an entry; `0-0` stands for none. -/
def LayoutEntry.hashes (e : LayoutEntry) : Finset ℕ :=
  if e.Zeroed then ∅ else Finset.Icc e.start e.stop

section Exact

variable {n : ℕ} {old new l l' : Fin n → LayoutEntry}

/-- The number of hash values that stay where they were. -/
def exactOverlap (old new : Fin n → LayoutEntry) : ℕ :=
  ∑ k, ((old k).hashes ∩ (new k).hashes).card

/-- The number of hash values that the new range of `x` and the old one of `y` have in common. -/
def inCommon (old l : Fin n → LayoutEntry) (x y : Fin n) : ℕ :=
  ((old y).hashes ∩ (l x).hashes).card

/-- What `i` and `j` keep of their old ranges as they are. -/
def kept (old l : Fin n → LayoutEntry) (i j : Fin n) : ℕ := inCommon old l i i + inCommon old l j j

/-- What they keep when they are exchanged. -/
def moved (old l : Fin n → LayoutEntry) (i j : Fin n) : ℕ := inCommon old l i j + inCommon old l j i

/-- The ranges of `new` in another order; entries with an error keep theirs. -/
def Permuted (new l : Fin n → LayoutEntry) : Prop :=
  ∃ σ : Equiv.Perm (Fin n), (∀ k, 0 < (new k).err → σ k = k) ∧
    ∀ k, l k = (new k).withRange (new (σ k))

/-- Entry `i` may be exchanged with `j`; it may stay. -/
def Choice (l : Fin n → LayoutEntry) (i j : Fin n) : Prop :=
  j = i ∨ i < j ∧ (l i).err ≤ 0 ∧ (l j).err ≤ 0

/-- `j` is the first of the best choices by the 32-bit sums. -/
structure Chosen (old l : Fin n → LayoutEntry) (i j : Fin n) : Prop where
  choice : Choice l i j
  best : ∀ k, Choice l i k → gain (fun x y => dhtOverlapCalc (old y) (l x)) i k
    ≤ gain (fun x y => dhtOverlapCalc (old y) (l x)) i j
  first : ∀ k, Choice l i k → k < j → gain (fun x y => dhtOverlapCalc (old y) (l x)) i k
    < gain (fun x y => dhtOverlapCalc (old y) (l x)) i j

/-- **The 32-bit sums judge right**: what they choose is best by the exact sums. -/
def Judged (old l : Fin n → LayoutEntry) (i : Fin n) : Prop :=
  ∀ j, Chosen old l i j → ∀ k, Choice l i k →
    moved old l i k + kept old l i j ≤ moved old l i j + kept old l i k

@[simp] theorem hashes_withRange (e r : LayoutEntry) : (e.withRange r).hashes = r.hashes := rfl

theorem Permuted.refl : Permuted new new := ⟨Equiv.refl _, fun _ _ => rfl, fun _ => rfl⟩

theorem Permuted.err (h : Permuted new l) (k : Fin n) : (l k).err = (new k).err := by
  obtain ⟨σ, -, hl⟩ := h
  rw [hl]
  rfl

theorem Permuted.swap (h : Permuted new l) {i j : Fin n} (hi : (l i).err ≤ 0)
    (hj : (l j).err ≤ 0) : Permuted new (dhtLayoutRangeSwap l i j) := by
  rw [h.err] at hi hj
  obtain ⟨σ, hfix, hl⟩ := h
  refine ⟨(Equiv.swap i j).trans σ, fun k hk => ?_, fun k => ?_⟩
  · have hki : k ≠ i := fun heq => absurd hk (not_lt.mpr (heq ▸ hi))
    have hkj : k ≠ j := fun heq => absurd hk (not_lt.mpr (heq ▸ hj))
    rw [Equiv.trans_apply, Equiv.swap_apply_of_ne_of_ne hki hkj, hfix k hk]
  · rw [dhtLayoutRangeSwap, hl, hl]
    rfl

/-- **The sum after an exchange of two rows.** -/
theorem sum_swap (f : Fin n → Fin n → ℕ) (i j : Fin n) :
    ∑ k, f (Equiv.swap i j k) k + (f i i + f j j) = ∑ k, f k k + (f i j + f j i) := by
  by_cases hij : i = j
  · subst hij
    rw [Equiv.swap_self]
    rfl
  have hj : j ∈ Finset.univ.erase i := Finset.mem_erase.mpr ⟨Ne.symm hij, Finset.mem_univ j⟩
  have hrest : ∑ k ∈ (Finset.univ.erase i).erase j, f (Equiv.swap i j k) k
      = ∑ k ∈ (Finset.univ.erase i).erase j, f k k := by
    refine Finset.sum_congr rfl fun k hk => ?_
    obtain ⟨hkj, hk⟩ := Finset.mem_erase.mp hk
    rw [Equiv.swap_apply_of_ne_of_ne (Finset.ne_of_mem_erase hk) hkj]
  rw [← Finset.add_sum_erase _ _ (Finset.mem_univ i), ← Finset.add_sum_erase _ _ hj,
    ← Finset.add_sum_erase _ (fun k => f k k) (Finset.mem_univ i),
    ← Finset.add_sum_erase _ (fun k => f k k) hj, hrest, Equiv.swap_apply_left,
    Equiv.swap_apply_right]
  omega

theorem exactOverlap_swap (old l : Fin n → LayoutEntry) (i j : Fin n) :
    exactOverlap old (dhtLayoutRangeSwap l i j) + kept old l i j
      = exactOverlap old l + moved old l i j :=
  sum_swap (inCommon old l) i j

/-- Exchanges are compared by the pair sums. -/
theorem exactOverlap_swap_le_iff (old l : Fin n → LayoutEntry) (i j k : Fin n) :
    exactOverlap old (dhtLayoutRangeSwap l i k) ≤ exactOverlap old (dhtLayoutRangeSwap l i j) ↔
      moved old l i k + kept old l i j ≤ moved old l i j + kept old l i k := by
  have hj := exactOverlap_swap old l i j
  have hk := exactOverlap_swap old l i k
  omega

theorem dhtLayoutRangeSwap_self (l : Fin n → LayoutEntry) (i : Fin n) :
    dhtLayoutRangeSwap l i i = l := by
  funext k
  rw [dhtLayoutRangeSwap, Equiv.swap_self]
  rfl

/-! ## One turn -/

/-- What the loop keeps. -/
structure Tabled (old new : Fin n → LayoutEntry) (s : OverlapState n) : Prop where
  permuted : Permuted new s.new
  table : s.table = fun x y => dhtOverlapCalc (old y) (s.new x)

theorem dhtOverlapCalc_withRange {a b r : LayoutEntry} (hb : b.err ≤ 0) (hr : r.err ≤ 0) :
    dhtOverlapCalc a (b.withRange r) = dhtOverlapCalc a r := by
  have hiff : (a.err > 0 ∨ (b.withRange r).err > 0) ↔ (a.err > 0 ∨ r.err > 0) := by
    change (a.err > 0 ∨ b.err > 0) ↔ _
    omega
  simp only [dhtOverlapCalc, hiff]
  rfl

theorem Tabled.swap {s : OverlapState n} (h : Tabled old new s) {i j : Fin n}
    (hi : (s.new i).err ≤ 0) (hj : (s.new j).err ≤ 0) :
    Tabled old new ⟨dhtLayoutRangeSwap s.new i j, fun x => s.table (Equiv.swap i j x)⟩ := by
  refine ⟨h.permuted.swap hi hj, ?_⟩
  funext x y
  change s.table (Equiv.swap i j x) y
    = dhtOverlapCalc (old y) ((s.new x).withRange (s.new (Equiv.swap i j x)))
  rw [h.table]
  by_cases hx : x = i ∨ x = j
  · have herr : (s.new x).err ≤ 0 := by rcases hx with rfl | rfl <;> assumption
    have herr' : (s.new (Equiv.swap i j x)).err ≤ 0 := by
      rcases hx with rfl | rfl
      · rwa [Equiv.swap_apply_left]
      · rwa [Equiv.swap_apply_right]
    rw [dhtOverlapCalc_withRange herr herr']
  · rw [not_or] at hx
    rw [Equiv.swap_apply_of_ne_of_ne hx.1 hx.2]
    rfl

/-- The first of the best in an increasing list. -/
theorem foldl_best (g : Fin n → ℕ) (js : List (Fin n)) (b : Fin n)
    (hsorted : (b :: js).Pairwise (· < ·)) :
    ∃ r, js.foldl (fun best j => if g j > best.1 then (g j, j) else best) (g b, b) = (g r, r) ∧
      r ∈ b :: js ∧ ∀ k ∈ b :: js, g k ≤ g r ∧ (k < r → g k < g r) := by
  induction js generalizing b with
  | nil =>
      refine ⟨b, rfl, List.mem_singleton_self b, fun k hk => ?_⟩
      rw [List.mem_singleton.mp hk]
      exact ⟨le_rfl, fun h => absurd h (lt_irrefl b)⟩
  | cons j js ih =>
      obtain ⟨hb, hjs⟩ := List.pairwise_cons.mp hsorted
      have hbj : b < j := hb j List.mem_cons_self
      rw [List.foldl_cons]
      dsimp only
      split_ifs with hbetter
      · obtain ⟨r, hfold, hmem, hbest⟩ := ih j hjs
        have hlt : g b < g r := lt_of_lt_of_le hbetter (hbest j List.mem_cons_self).1
        exact ⟨r, hfold, List.mem_cons_of_mem b hmem,
          List.forall_mem_cons.mpr ⟨⟨hlt.le, fun _ => hlt⟩, hbest⟩⟩
      · obtain ⟨r, hfold, hmem, hbest⟩ :=
          ih b (hsorted.sublist ((List.sublist_cons_self j js).cons_cons b))
        obtain ⟨hfirst, hrest⟩ := List.forall_mem_cons.mp hbest
        have hle : g j ≤ g b := not_lt.mp hbetter
        refine ⟨r, hfold, ?_, List.forall_mem_cons.mpr ⟨hfirst, List.forall_mem_cons.mpr
          ⟨⟨hle.trans hfirst.1, fun hjr => hle.trans_lt (hfirst.2 (hbj.trans hjr))⟩, hrest⟩⟩⟩
        rcases List.mem_cons.mp hmem with rfl | hr
        · exact List.mem_cons_self
        · exact List.mem_cons_of_mem _ (List.mem_cons_of_mem _ hr)

theorem mem_candidates {s : OverlapState n} {i j : Fin n} :
    j ∈ ((List.finRange n).filter fun j => decide (i < j ∧ ¬ (s.new j).err > 0)) ↔
      i < j ∧ (s.new j).err ≤ 0 := by
  rw [List.mem_filter, decide_eq_true_eq, not_lt]
  exact and_iff_right (List.mem_finRange j)

theorem gain_self (table : Fin n → Fin n → ℕ) (i : Fin n) : gain table i i = 0 := Nat.sub_self _

/-- **The inner loop chooses.** -/
theorem Tabled.chosen_maxOverlap {s : OverlapState n} (h : Tabled old new s) {i : Fin n}
    (hi : (s.new i).err ≤ 0) : Chosen old s.new i (maxOverlap s i).2 := by
  have hsorted : (i :: ((List.finRange n).filter
      fun j => decide (i < j ∧ ¬ (s.new j).err > 0))).Pairwise (· < ·) :=
    List.pairwise_cons.mpr ⟨fun j hj => (mem_candidates.mp hj).1,
      (List.pairwise_lt_finRange n).filter _⟩
  have hmem : ∀ k, Choice s.new i k ↔
      k ∈ i :: ((List.finRange n).filter fun j => decide (i < j ∧ ¬ (s.new j).err > 0)) := by
    intro k
    rw [List.mem_cons, mem_candidates]
    exact or_congr_right (and_congr_right fun _ => and_iff_right hi)
  obtain ⟨r, hfold, hr, hbest⟩ := foldl_best (gain s.table i) _ i hsorted
  rw [gain_self] at hfold
  have hchosen : (maxOverlap s i).2 = r := congrArg Prod.snd hfold
  rw [h.table] at hbest
  rw [hchosen]
  exact ⟨(hmem r).mpr hr, fun k hk => (hbest k ((hmem k).mp hk)).1,
    fun k hk => (hbest k ((hmem k).mp hk)).2⟩

/-- **One turn makes the chosen exchange.** -/
theorem Tabled.step {s : OverlapState n} (h : Tabled old new s) (i : Fin n) :
    Tabled old new (overlapStep s i) ∧ ∃ j, Chosen old s.new i j ∧
      (overlapStep s i).new = dhtLayoutRangeSwap s.new i j := by
  by_cases herr : (s.new i).err > 0
  · rw [overlapStep, if_pos herr]
    have honly : ∀ k, Choice s.new i k → k = i := by
      rintro k (rfl | ⟨-, hsafe, -⟩)
      · rfl
      · exact absurd herr (not_lt.mpr hsafe)
    refine ⟨h, i, ⟨.inl rfl, fun k hk => ?_, fun k hk hlt => absurd (honly k hk) hlt.ne⟩,
      (dhtLayoutRangeSwap_self _ i).symm⟩
    rw [honly k hk]
  have hi : (s.new i).err ≤ 0 := not_lt.mp herr
  have hchosen := h.chosen_maxOverlap hi
  rw [overlapStep, if_neg herr]
  rcases hchosen.choice with hstay | ⟨hlt, -, hj⟩
  · rw [if_neg (not_not.mpr hstay)]
    refine ⟨h, _, hchosen, ?_⟩
    rw [hstay, dhtLayoutRangeSwap_self]
  · rw [if_pos hlt.ne']
    exact ⟨h.swap hi hj, _, hchosen, rfl⟩

theorem Chosen.unique {l : Fin n → LayoutEntry} {i j k : Fin n} (hj : Chosen old l i j)
    (hk : Chosen old l i k) : j = k := by
  rcases lt_trichotomy j k with hlt | heq | hlt
  · exact absurd (hk.first j hj.choice hlt) (not_lt.mpr (hj.best k hk.choice))
  · exact heq
  · exact absurd (hj.first k hk.choice hlt) (not_lt.mpr (hk.best j hj.choice))

/-- **A turn gives the greatest overlap exactly when the sums judge right.** -/
theorem Tabled.step_greatest_iff {s : OverlapState n} (h : Tabled old new s) (i : Fin n) :
    IsGreatest {t | ∃ j, Choice s.new i j ∧ t = exactOverlap old (dhtLayoutRangeSwap s.new i j)}
        (exactOverlap old (overlapStep s i).new) ↔ Judged old s.new i := by
  obtain ⟨-, j, hj, hnew⟩ := h.step i
  rw [hnew]
  constructor
  · intro hgreatest j' hj' k hk
    rw [← hj.unique hj']
    exact (exactOverlap_swap_le_iff _ _ _ _ _).mp (hgreatest.2 ⟨k, hk, rfl⟩)
  · intro hjudged
    refine ⟨⟨j, hj.choice, rfl⟩, ?_⟩
    rintro t ⟨k, hk, rfl⟩
    exact (exactOverlap_swap_le_iff _ _ _ _ _).mpr (hjudged j hj k hk)

/-! ## Proper ranges that are disjoint -/

/-- A range of more than one value, or none. -/
def LayoutEntry.Ranged (e : LayoutEntry) : Prop :=
  e.start ≤ e.stop ∧ e.stop < 2 ^ 32 ∧ (e.start = e.stop → e.start = 0)

/-- The ranges are proper and have no value in common. -/
structure Apart (l : Fin n → LayoutEntry) : Prop where
  ranged : ∀ k, (l k).Ranged
  disjoint : ∀ i j, i ≠ j → Disjoint (l i).hashes (l j).hashes

theorem Permuted.apart (h : Permuted new l) (hnew : Apart new) : Apart l := by
  obtain ⟨σ, -, hl⟩ := h
  refine ⟨fun k => ?_, fun i j hij => ?_⟩
  · rw [hl]
    exact hnew.ranged (σ k)
  · rw [hl, hl]
    exact hnew.disjoint _ _ fun heq => hij (σ.injective heq)

theorem card_hashes_inter {a b : LayoutEntry} (ha : ¬ a.Zeroed) (hb : ¬ b.Zeroed) :
    (a.hashes ∩ b.hashes).card = min a.stop b.stop + 1 - max a.start b.start := by
  have hinter : Finset.Icc a.start a.stop ∩ Finset.Icc b.start b.stop
      = Finset.Icc (max a.start b.start) (min a.stop b.stop) := by
    ext x
    simp only [Finset.mem_inter, Finset.mem_Icc]
    omega
  rw [LayoutEntry.hashes, LayoutEntry.hashes, if_neg ha, if_neg hb, hinter, Nat.card_Icc]

/-- **The table has the overlaps**, up to `2 ^ 32`. -/
theorem dhtOverlapCalc_eq {a b : LayoutEntry} (ha : a.Ranged) (hb : b.Ranged)
    (herr : 0 < a.err → a.Zeroed) (herr' : b.err ≤ 0) :
    dhtOverlapCalc a b = uint32 (a.hashes ∩ b.hashes).card := by
  obtain ⟨hale, halt, haz⟩ := ha
  obtain ⟨hble, hblt, hbz⟩ := hb
  have hzeroed : ∀ {e : LayoutEntry}, e.start = e.stop → (e.start = e.stop → e.start = 0) →
      e.Zeroed := fun heq hz => ⟨hz heq, heq ▸ hz heq⟩
  rw [dhtOverlapCalc]
  by_cases hza : a.Zeroed
  · have hsame : a.start = a.stop := hza.1.trans hza.2.symm
    rw [LayoutEntry.hashes, if_pos hza, Finset.empty_inter, if_pos hsame, ite_self]
    rfl
  have haerr : ¬ (a.err > 0 ∨ b.err > 0) := by
    rintro (h | h)
    · exact hza (herr h)
    · omega
  rw [if_neg haerr, if_neg fun h => hza (hzeroed h haz)]
  by_cases hzb : b.Zeroed
  · have hsame : b.start = b.stop := hzb.1.trans hzb.2.symm
    rw [if_pos hsame, LayoutEntry.hashes, LayoutEntry.hashes, if_pos hzb, Finset.inter_empty]
    rfl
  rw [if_neg fun h => hzb (hzeroed h hbz), card_hashes_inter hza hzb]
  split_ifs with hapart
  · rw [show min a.stop b.stop + 1 - max a.start b.start = 0 by omega]
    rfl
  · have hadd : 2 ^ 32 + min a.stop b.stop - max a.start b.start + 1
        = min a.stop b.stop + 1 - max a.start b.start + 2 ^ 32 := by omega
    rw [uint32, uint32, hadd, Nat.add_mod_right]

theorem hashes_subset {e : LayoutEntry} (h : e.Ranged) : e.hashes ⊆ Finset.range (2 ^ 32) := by
  intro x hx
  rw [LayoutEntry.hashes] at hx
  split_ifs at hx
  · exact absurd hx (Finset.notMem_empty x)
  · exact Finset.mem_range.mpr ((Finset.mem_Icc.mp hx).2.trans_lt h.2.1)

/-- **No hash value is counted twice**, whichever ranges are compared. -/
theorem sum_inCommon_le (hold : Apart old) (hl : Apart l) (cells : Finset (Fin n × Fin n)) :
    ∑ c ∈ cells, inCommon old l c.1 c.2 ≤ 2 ^ 32 := by
  have hapart : ∀ c ∈ cells, ∀ d ∈ cells, c ≠ d → Disjoint ((old c.2).hashes ∩ (l c.1).hashes)
      ((old d.2).hashes ∩ (l d.1).hashes) := by
    intro c _ d _ hne
    by_cases hx : c.1 = d.1
    · have hy : c.2 ≠ d.2 := fun hy => hne (Prod.ext hx hy)
      exact (hold.disjoint _ _ hy).mono Finset.inter_subset_left Finset.inter_subset_left
    · exact (hl.disjoint _ _ hx).mono Finset.inter_subset_right Finset.inter_subset_right
  calc ∑ c ∈ cells, inCommon old l c.1 c.2
      = (cells.biUnion fun c => (old c.2).hashes ∩ (l c.1).hashes).card :=
        (Finset.card_biUnion hapart).symm
    _ ≤ (Finset.range (2 ^ 32)).card := by
        refine Finset.card_le_card (Finset.biUnion_subset.mpr fun c _ => ?_)
        exact Finset.inter_subset_left.trans (hashes_subset (hold.ranged _))
    _ = 2 ^ 32 := Finset.card_range _

theorem kept_le_exactOverlap {i j : Fin n} (hij : i ≠ j) : kept old l i j ≤ exactOverlap old l := by
  rw [kept, ← Finset.sum_pair (f := fun k => inCommon old l k k) hij]
  exact Finset.sum_le_sum_of_subset (Finset.subset_univ _)

/-- What another exchange keeps and what the exchange of `i` and `j` moves. -/
theorem exactOverlap_add_moved_le (hold : Apart old) (hl : Apart l) {i j k : Fin n} (hij : i ≠ j)
    (hk : k ≠ j) : exactOverlap old (dhtLayoutRangeSwap l i k) + moved old l i j ≤ 2 ^ 32 := by
  have hdiag : exactOverlap old (dhtLayoutRangeSwap l i k)
      = ∑ c ∈ Finset.univ.image (fun x => (Equiv.swap i k x, x)), inCommon old l c.1 c.2 := by
    rw [Finset.sum_image fun x _ y _ heq => congrArg Prod.snd heq]
    rfl
  have hpair : moved old l i j
      = ∑ c ∈ ({(i, j), (j, i)} : Finset (Fin n × Fin n)), inCommon old l c.1 c.2 := by
    rw [Finset.sum_pair fun heq => hij (congrArg Prod.fst heq)]
    rfl
  have hij' : Equiv.swap i k i ≠ j := by
    rwa [Equiv.swap_apply_left]
  have hji : Equiv.swap i k j ≠ i := by
    rw [Equiv.swap_apply_of_ne_of_ne hij.symm hk.symm]
    exact hij.symm
  have hdisjoint : Disjoint (Finset.univ.image fun x => (Equiv.swap i k x, x))
      ({(i, j), (j, i)} : Finset (Fin n × Fin n)) := by
    rw [Finset.disjoint_left]
    intro c hc hmem
    obtain ⟨x, -, rfl⟩ := Finset.mem_image.mp hc
    rw [Finset.mem_insert, Finset.mem_singleton] at hmem
    rcases hmem with heq | heq
    · rw [Prod.mk.injEq] at heq
      exact hji (heq.2 ▸ heq.1)
    · rw [Prod.mk.injEq] at heq
      exact hij' (heq.2 ▸ heq.1)
  rw [hdiag, hpair, ← Finset.sum_union hdisjoint]
  exact sum_inCommon_le hold hl _

/-- The conditions on the two layouts; an old entry with an error has no range. -/
structure Fits (old new : Fin n → LayoutEntry) : Prop where
  oldApart : Apart old
  oldError : ∀ k, 0 < (old k).err → (old k).Zeroed
  newApart : Apart new

section Judged

variable (hold : Apart old) (herror : ∀ k, 0 < (old k).err → (old k).Zeroed) (hl : Apart l)
include hold herror hl

/-- **The 32-bit gain** is the exact one, unless the exchange would keep everything: then it is
none. -/
theorem gain_eq {i j : Fin n} (hj : Choice l i j) :
    gain (fun x y => dhtOverlapCalc (old y) (l x)) i j
      = if moved old l i j < 2 ^ 32 then moved old l i j - kept old l i j else 0 := by
  rcases hj with rfl | ⟨hlt, hi, hj⟩
  · rw [gain_self, moved, kept, Nat.sub_self, ite_self]
  have hentry : ∀ x y, (l x).err ≤ 0 → dhtOverlapCalc (old y) (l x) = uint32 (inCommon old l x y) :=
    fun x y hx => dhtOverlapCalc_eq (hold.ranged y) (hl.ranged x) (herror y) hx
  have hgain : gain (fun x y => dhtOverlapCalc (old y) (l x)) i j
      = uint32 (moved old l i j) - uint32 (kept old l i j) := by
    simp only [gain, hentry i j hi, hentry j i hj, hentry i i hi, hentry j j hj]
    simp only [uint32, moved, kept, ← Nat.add_mod]
  have hsum := exactOverlap_add_moved_le hold hl hlt.ne hlt.ne
  rw [dhtLayoutRangeSwap_self] at hsum
  have hkept : kept old l i j ≤ exactOverlap old l := kept_le_exactOverlap hlt.ne
  rw [hgain, uint32, uint32]
  split_ifs with hmoved
  · rw [Nat.mod_eq_of_lt hmoved]
    rcases Nat.lt_or_ge (kept old l i j) (2 ^ 32) with hlt' | hge
    · rw [Nat.mod_eq_of_lt hlt']
    · omega
  · rw [show moved old l i j = 2 ^ 32 by omega, Nat.mod_self, Nat.zero_sub]

/-- **The sums judge right exactly when no exchange would keep all values.** -/
theorem judged_iff {i c : Fin n} (hc : Chosen old l i c) :
    Judged old l i ↔ ∀ j, i < j → Choice l i j → moved old l i j < 2 ^ 32 := by
  constructor
  · intro hjudged j hlt hj
    by_contra hfull
    have hzero : gain (fun x y => dhtOverlapCalc (old y) (l x)) i j = 0 := by
      rw [gain_eq hold herror hl hj, if_neg hfull]
    have hcj : c ≠ j := by
      rintro rfl
      have hpos := hc.first i (.inl rfl) hlt
      rw [hzero] at hpos
      exact absurd hpos (Nat.not_lt_zero _)
    -- nothing is left for the exchange that is made
    have hother := exactOverlap_add_moved_le hold hl hlt.ne hcj
    have hbest := (exactOverlap_swap_le_iff old l i c j).mpr (hjudged c hc j hj)
    have hswap := exactOverlap_swap old l i j
    have hkept : kept old l i j ≤ exactOverlap old l := kept_le_exactOverlap hlt.ne
    omega
  · intro hless j hj k hk
    have hgain : ∀ x, Choice l i x → gain (fun x y => dhtOverlapCalc (old y) (l x)) i x
        = moved old l i x - kept old l i x := by
      rintro x (rfl | hx)
      · rw [gain_self, moved, kept, Nat.sub_self]
      · rw [gain_eq hold herror hl (.inr hx), if_pos (hless x hx.1 (.inr hx))]
    have hbest := hj.best k hk
    rw [hgain k hk, hgain j hj.choice] at hbest
    rcases hj.choice with rfl | hlt
    · have hself : moved old l j j = kept old l j j := rfl
      omega
    · have hfirst := hj.first i (.inl rfl) hlt.1
      rw [hgain j hj.choice] at hfirst
      omega

end Judged

/-! ## The whole loop -/

theorem overlapSteps_succ (old new : Fin n → LayoutEntry) (i : Fin n) :
    overlapSteps old new (i + 1) = overlapStep (overlapSteps old new i) i := by
  have hlt : i.val < (List.finRange n).length := by rw [List.length_finRange]; exact i.isLt
  rw [overlapSteps, List.take_succ_eq_append_getElem hlt, List.foldl_append, List.getElem_finRange]
  rfl

theorem overlapSteps_tabled (old new : Fin n → LayoutEntry) {k : ℕ} (hk : k ≤ n) :
    Tabled old new (overlapSteps old new k) := by
  induction k with
  | zero => exact ⟨.refl, rfl⟩
  | succ k ih =>
      have hstep := overlapSteps_succ old new ⟨k, hk⟩
      rw [hstep]
      exact ((ih (Nat.le_of_succ_le hk)).step ⟨k, hk⟩).1

/-- Leaving an entry is one of the choices, so nothing is lost. -/
theorem exactOverlap_le_steps
    (hjudged : ∀ i : Fin n, Judged old (overlapSteps old new i).new i) {k : ℕ} (hk : k ≤ n) :
    exactOverlap old new ≤ exactOverlap old (overlapSteps old new k).new := by
  induction k with
  | zero => exact le_rfl
  | succ k ih =>
      refine (ih (Nat.le_of_succ_le hk)).trans ?_
      have hstep := overlapSteps_succ old new ⟨k, hk⟩
      have htabled := overlapSteps_tabled old new (Nat.le_of_succ_le hk)
      rw [hstep]
      refine ((htabled.step_greatest_iff ⟨k, hk⟩).mpr (hjudged ⟨k, hk⟩)).2
        ⟨⟨k, hk⟩, .inl rfl, ?_⟩
      rw [dhtLayoutRangeSwap_self]

/-! ## The order of the subvolumes -/

theorem ofFn_sortVolname (name : ℕ → List UInt8) (l : Fin n → LayoutEntry) :
    (List.ofFn (dhtLayoutSortVolname name l)).Perm (List.ofFn l) := by
  have heq : List.ofFn (dhtLayoutSortVolname name l) = exchangeSort
      (fun a b => decide (name b.xlator < name a.xlator)) (List.ofFn l) := by
    refine List.ext_getElem ?_ fun i h₁ h₂ => ?_
    · rw [List.length_ofFn, (exchangeSort_perm _).length_eq, List.length_ofFn]
    · rw [List.getElem_ofFn]
      rfl
  rw [heq]
  exact exchangeSort_perm _

theorem apart_iff : Apart l ↔ (∀ e ∈ List.ofFn l, e.Ranged) ∧
    (List.ofFn l).Pairwise fun a b => Disjoint a.hashes b.hashes := by
  rw [List.pairwise_ofFn, List.forall_mem_ofFn_iff]
  constructor
  · exact fun h => ⟨h.ranged, fun i j hij => h.disjoint i j hij.ne⟩
  · refine fun h => ⟨h.1, fun i j hij => ?_⟩
    rcases lt_or_gt_of_ne hij with hlt | hgt
    · exact h.2 hlt
    · exact (h.2 hgt).symm

theorem Apart.sorted (h : Apart l) (name : ℕ → List UInt8) :
    Apart (dhtLayoutSortVolname name l) := by
  have hperm := ofFn_sortVolname name l
  rw [apart_iff] at h ⊢
  exact ⟨fun e he => h.1 e (hperm.mem_iff.mp he), hperm.symm.pairwise h.2 fun hab => hab.symm⟩

/-- **Every turn takes the best exchange, exactly when the 32-bit sums judge right.**  The ranges are
only permuted, among the entries without an error.  After the turn of `i` the exact overlap is the
greatest that the exchange of `i` with a later entry can give exactly when the choice by the 32-bit
sums is best by the exact sums; when this is so at all turns, the overlap never gets smaller.  For
proper ranges that are disjoint, it is so exactly when no exchange would keep all hash values. -/
theorem maximizeOverlap_greatest_iff (name : ℕ → List UInt8) (old new : Fin n → LayoutEntry) :
    Permuted new (dhtSelfhealLayoutMaximizeOverlap name new old) ∧
      (∀ i : Fin n, IsGreatest
          {t | ∃ j, Choice (overlapSteps (dhtLayoutSortVolname name old) new i).new i j ∧
            t = exactOverlap (dhtLayoutSortVolname name old) (dhtLayoutRangeSwap
              (overlapSteps (dhtLayoutSortVolname name old) new i).new i j)}
          (exactOverlap (dhtLayoutSortVolname name old)
            (overlapSteps (dhtLayoutSortVolname name old) new (i + 1)).new) ↔
        Judged (dhtLayoutSortVolname name old)
          (overlapSteps (dhtLayoutSortVolname name old) new i).new i) ∧
      ((∀ i : Fin n, Judged (dhtLayoutSortVolname name old)
          (overlapSteps (dhtLayoutSortVolname name old) new i).new i) →
        exactOverlap (dhtLayoutSortVolname name old) new
          ≤ exactOverlap (dhtLayoutSortVolname name old)
            (dhtSelfhealLayoutMaximizeOverlap name new old)) ∧
      (Fits old new → ∀ i : Fin n, Judged (dhtLayoutSortVolname name old)
          (overlapSteps (dhtLayoutSortVolname name old) new i).new i ↔
        ∀ j, i < j → Choice (overlapSteps (dhtLayoutSortVolname name old) new i).new i j →
          moved (dhtLayoutSortVolname name old)
            (overlapSteps (dhtLayoutSortVolname name old) new i).new i j < 2 ^ 32) := by
  have htabled : ∀ i : Fin n, Tabled (dhtLayoutSortVolname name old) new
      (overlapSteps (dhtLayoutSortVolname name old) new i) :=
    fun i => overlapSteps_tabled _ new i.isLt.le
  refine ⟨(overlapSteps_tabled _ new le_rfl).permuted, fun i => ?_,
    fun hjudged => exactOverlap_le_steps hjudged le_rfl, fun hfits i => ?_⟩
  · rw [overlapSteps_succ]
    exact (htabled i).step_greatest_iff i
  · obtain ⟨-, c, hc, -⟩ := (htabled i).step i
    have herror : ∀ k, 0 < (dhtLayoutSortVolname name old k).err →
        (dhtLayoutSortVolname name old k).Zeroed := by
      intro k
      obtain ⟨k', hk'⟩ := List.mem_ofFn.mp
        ((ofFn_sortVolname name old).mem_iff.mp (List.mem_ofFn.mpr ⟨k, rfl⟩))
      rw [← hk']
      exact hfits.oldError k'
    exact judged_iff (hfits.oldApart.sorted name) herror
      ((htabled i).permuted.apart hfits.newApart) hc

end Exact

/-- The names of the subvolumes. -/
def numbered (xlator : ℕ) : List UInt8 := [UInt8.ofNat xlator]

/-- The old ranges of two subvolumes, not in the order of their names. -/
def oldRanges : Fin 2 → LayoutEntry := ![⟨0, 10, 19, 1⟩, ⟨0, 0, 9, 0⟩]

/-- New ranges of the two, in the order of the names. -/
def newRanges : Fin 2 → LayoutEntry := ![⟨0, 8, 19, 0⟩, ⟨0, 0, 7, 1⟩]

/-- The second subvolume keeps ten values and the first one eight, which is the greatest overlap. -/
theorem maximizeOverlap_greatest_iff_ranges :
    Permuted newRanges (dhtSelfhealLayoutMaximizeOverlap numbered newRanges oldRanges) ∧
      dhtSelfhealLayoutMaximizeOverlap numbered newRanges oldRanges
        = ![⟨0, 0, 7, 0⟩, ⟨0, 8, 19, 1⟩] ∧
      Judged (dhtLayoutSortVolname numbered oldRanges) newRanges 0 := by
  obtain ⟨hperm, -, -, hproper⟩ := maximizeOverlap_greatest_iff numbered oldRanges newRanges
  refine ⟨hperm, by decide, (hproper ⟨?_, by decide, ?_⟩ 0).mpr ?_⟩
  · exact ⟨by unfold LayoutEntry.Ranged; decide, by decide⟩
  · exact ⟨by unfold LayoutEntry.Ranged; decide, by decide⟩
  · intro j hlt _
    obtain rfl : j = 1 := by omega
    decide

/-- The halves of the hash space. -/
def halves : Fin 2 → LayoutEntry := ![⟨0, 0, 2 ^ 31 - 1, 0⟩, ⟨0, 2 ^ 31, 2 ^ 32 - 1, 1⟩]

/-- The other way round. -/
def exchangedHalves : Fin 2 → LayoutEntry := ![⟨0, 2 ^ 31, 2 ^ 32 - 1, 0⟩, ⟨0, 0, 2 ^ 31 - 1, 1⟩]

/-- **Everything could stay and nothing does.**  The exchange of the halves would keep all
`2 ^ 32` hash values, which is zero in 32 bits. -/
theorem halves_not_exchanged :
    dhtSelfhealLayoutMaximizeOverlap numbered exchangedHalves halves = exchangedHalves ∧
      dhtLayoutSortVolname numbered halves = halves ∧
      exactOverlap halves exchangedHalves = 0 ∧
      exactOverlap halves (dhtLayoutRangeSwap exchangedHalves 0 1) = 2 ^ 32 := by
  have hsum : ∀ l : Fin 2 → LayoutEntry, (∀ k, ¬ (l k).Zeroed) →
      exactOverlap halves l = min (2 ^ 31 - 1) (l 0).stop + 1 - max 0 (l 0).start +
        (min (2 ^ 32 - 1) (l 1).stop + 1 - max (2 ^ 31) (l 1).start) := by
    intro l hl
    have hhalves : ∀ k, ¬ (halves k).Zeroed := by
      rintro k ⟨hstart, hstop⟩
      fin_cases k
      · exact absurd hstop (by simp [halves])
      · exact absurd hstop (by simp [halves])
    rw [exactOverlap, Fin.sum_univ_two, card_hashes_inter (hhalves 0) (hl 0),
      card_hashes_inter (hhalves 1) (hl 1)]
    rfl
  refine ⟨by decide, by decide, ?_, ?_⟩
  · rw [hsum _ fun k => by fin_cases k <;> simp [exchangedHalves, LayoutEntry.Zeroed]]
    simp [exchangedHalves]
  · rw [hsum _ fun k => by
      fin_cases k <;> simp [exchangedHalves, dhtLayoutRangeSwap, LayoutEntry.withRange,
        LayoutEntry.Zeroed]]
    simp [exchangedHalves, dhtLayoutRangeSwap, LayoutEntry.withRange]

end GlusterFS.Dht
