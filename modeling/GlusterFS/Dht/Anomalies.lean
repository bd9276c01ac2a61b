import GlusterFS.Dht.Layout
import GlusterFS.Lib.KeyedSort

/-!
# Checking a layout

`dht_layout_sort` puts the entries of a layout in order and `dht_layout_anomalies` then looks at
neighbours: a range has to start one behind the end of the range before it, and the last has to end
one before the start of the first, all in 32-bit arithmetic.

The sort is to put the entries `0-0` first and the others behind them by their starts, and no holes
and no overlaps are to be reported exactly when the ranges tile the hash space.  For entries without
an error **`sort_anomalies_exact_iff` says exactly when this is so**.  An entry that ends at zero and
does not start there lets no `0-0` pass by, so that one must come while another entry has the place
(`Fronts`).  And neighbours do not tell everything (`Sound`).  The end of a range that is the whole
space wraps around to zero, where the next one starts, and two subvolumes that both have everything
are reported as sound; ranges that start behind their ends may be linked or not, and take no part.
-/

namespace GlusterFS.Dht

open KeyedSort Tiling

/-! ## The model -/

def estale : ℤ := 116
def enotconn : ℤ := 107

/-- The entry of a subvolume that takes no part. -/
def LayoutEntry.Zeroed (e : LayoutEntry) : Prop := e.start = 0 ∧ e.stop = 0

instance (e : LayoutEntry) : Decidable e.Zeroed := inferInstanceAs (Decidable (_ ∧ _))

/-- `dht_layout_entry_cmp` for the entries `i` and `j`. -/
def dhtLayoutEntryCmp (i j : LayoutEntry) : ℤ :=
  if j.Zeroed then (i.stop : ℤ) - j.stop else (i.start : ℤ) - j.start

/-- `dht_layout_sort`. -/
def dhtLayoutSort (list : List LayoutEntry) : List LayoutEntry :=
  exchangeSort (fun i j => decide (0 < dhtLayoutEntryCmp i j)) list

/-- What `dht_layout_anomalies` has counted, and the end of the last range. -/
structure Anomalies where
  prevStop : ℕ
  isVirgin : Bool
  holes : ℕ
  overlaps : ℕ
  missing : ℕ
  down : ℕ
  misc : ℕ
  noSpace : ℕ
  deriving DecidableEq, Repr

/-- The body of the loop. -/
def scanEntry (s : Anomalies) (e : LayoutEntry) : Anomalies :=
  if e.err = -1 ∨ e.err = enoent ∨ e.err = estale then { s with missing := s.missing + 1 }
  else if e.err = enotconn then { s with down := s.down + 1 }
  else if e.err = enospc then { s with noSpace := s.noSpace + 1 }
  else if e.err = 0 then
    if e.start = e.stop then s
    else
      { s with
        isVirgin := false
        holes := if (s.prevStop + 1) % 2 ^ 32 < e.start then s.holes + 1 else s.holes
        overlaps := if (s.prevStop + 1) % 2 ^ 32 > e.start then s.overlaps + 1 else s.overlaps
        prevStop := e.stop }
  else { s with misc := s.misc + 1 }

/-- `layout->list[0].start - 1`. -/
def lastStop (list : List LayoutEntry) : ℕ :=
  ((list.head?.map LayoutEntry.start).getD 0 + (2 ^ 32 - 1)) % 2 ^ 32

/-- `dht_layout_anomalies`. -/
def dhtLayoutAnomalies (list : List LayoutEntry) : Anomalies :=
  let s := list.foldl scanEntry ⟨lastStop list, true, 0, 0, 0, 0, 0, 0⟩
  if lastStop list ≠ s.prevStop ∨ s.isVirgin then { s with holes := s.holes + 1 } else s

/-! ## What is claimed of a layout -/

/-- The entries that take part. -/
def participants (list : List LayoutEntry) : List LayoutEntry :=
  list.filter fun e => decide (e.start < e.stop)

/-- The range of an entry. -/
def LayoutEntry.range (e : LayoutEntry) : ℕ × ℕ := (e.start, e.stop)

/-- `a` may stand before `b`: an entry `0-0` before everything, others by their starts. -/
def Before (a b : LayoutEntry) : Prop := a.Zeroed ∨ ¬ b.Zeroed ∧ a.start ≤ b.start

/-- The ranges are ranges of hash values and do not start behind their ends. -/
def Proper (list : List LayoutEntry) : Prop := ∀ e ∈ list, e.start ≤ e.stop ∧ e.stop < 2 ^ 32

/-- Starts and ends are 32-bit values. -/
def InRange (list : List LayoutEntry) : Prop := ∀ e ∈ list, e.start < 2 ^ 32 ∧ e.stop < 2 ^ 32

variable {list : List LayoutEntry}

/-! ## Sorting -/

/-- The sort exchanges two entries. -/
abbrev entrySwap (i j : LayoutEntry) : Bool := decide (0 < dhtLayoutEntryCmp i j)

/-- Whether one pass gives the place, where `x` stands, to an entry `0-0`: one has it, or one comes
while the entry in the place does not end at zero. -/
def yields : LayoutEntry → List LayoutEntry → Bool
  | x, [] => x.Zeroed
  | x, y :: ys =>
      if x.Zeroed then true
      else if y.Zeroed then x.stop ≠ 0 || yields x ys
      else yields (if y.start < x.start then y else x) ys

/-- Every pass over entries with a `0-0` among them yields it. -/
def frontsFuel : ℕ → List LayoutEntry → Bool
  | 0, _ | _ + 1, [] => true
  | fuel + 1, x :: xs =>
      (!((x :: xs).any fun e => e.Zeroed) || yields x xs) &&
        frontsFuel fuel (exchangePass entrySwap x xs).2

@[inherit_doc frontsFuel]
def Fronts (list : List LayoutEntry) : Prop := frontsFuel list.length list = true

theorem entrySwap_zeroed {a b : LayoutEntry} (hb : b.Zeroed) :
    entrySwap a b = true ↔ a.stop ≠ 0 := by
  rw [decide_eq_true_iff, dhtLayoutEntryCmp, if_pos hb, hb.2]
  omega

theorem entrySwap_not_zeroed {a b : LayoutEntry} (hb : ¬ b.Zeroed) :
    entrySwap a b = true ↔ b.start < a.start := by
  rw [decide_eq_true_iff, dhtLayoutEntryCmp, if_neg hb]
  omega

theorem yields_of_zeroed {x : LayoutEntry} (hx : x.Zeroed) (ys : List LayoutEntry) :
    yields x ys = true := by
  cases ys with
  | nil => exact decide_eq_true hx
  | cons y ys => rw [yields, if_pos hx]

theorem zeroed_exchangePass_iff (x : LayoutEntry) (xs : List LayoutEntry) :
    (exchangePass entrySwap x xs).1.Zeroed ↔
      yields x xs = true := by
  induction xs generalizing x with
  | nil => exact decide_eq_true_iff.symm
  | cons y ys ih =>
      by_cases hx : x.Zeroed
      · -- an entry `0-0` keeps the place
        have hkeep : ¬ entrySwap x y = true := by
          by_cases hy : y.Zeroed
          · rw [entrySwap_zeroed hy]
            exact not_not.mpr hx.2
          · rw [entrySwap_not_zeroed hy, hx.1]
            exact Nat.not_lt_zero _
        rw [exchangePass, if_neg hkeep, yields_of_zeroed hx, ih, yields_of_zeroed hx]
      by_cases hy : y.Zeroed
      · rw [yields, if_neg hx, if_pos hy, Bool.or_eq_true, decide_eq_true_iff, exchangePass]
        by_cases hstop : x.stop ≠ 0
        · rw [if_pos ((entrySwap_zeroed hy).mpr hstop), ih, yields_of_zeroed hy]
          exact iff_of_true rfl (.inl hstop)
        · rw [if_neg (mt (entrySwap_zeroed hy).mp hstop), ih]
          exact (or_iff_right hstop).symm
      · rw [yields, if_neg hx, if_neg hy, exchangePass]
        by_cases hless : y.start < x.start
        · rw [if_pos ((entrySwap_not_zeroed hy).mpr hless), if_pos hless]
          exact ih y
        · rw [if_neg (mt (entrySwap_not_zeroed hy).mp hless), if_neg hless]
          exact ih x

theorem entryPass_perm (x : LayoutEntry) (xs : List LayoutEntry) :
    ((exchangePass entrySwap x xs).1 :: (exchangePass entrySwap x xs).2).Perm (x :: xs) :=
  exchangePass_perm x xs

/-- What one pass puts before all others. -/
theorem before_exchangePass_iff (x : LayoutEntry) (xs : List LayoutEntry) :
    (∀ a ∈ (exchangePass entrySwap x xs).2,
        Before (exchangePass entrySwap x xs).1 a) ↔
      ((∃ e ∈ x :: xs, e.Zeroed) →
        (exchangePass entrySwap x xs).1.Zeroed) := by
  have hperm := entryPass_perm x xs
  constructor
  · rintro hbefore ⟨e, he, hzero⟩
    rcases List.mem_cons.mp (hperm.mem_iff.mpr he) with rfl | hrest
    · exact hzero
    · exact (hbefore e hrest).resolve_right fun h => h.1 hzero
  · intro h a ha
    by_cases hzero : ∃ e ∈ x :: xs, e.Zeroed
    · exact .inl (h hzero)
    · have hnone : ∀ e ∈ x :: xs, ¬ e.Zeroed := fun e he hz => hzero ⟨e, he, hz⟩
      have hmem : a ∈ x :: xs := hperm.mem_iff.mp (List.mem_cons_of_mem _ ha)
      have hle : ∀ b ∈ x :: xs, (exchangePass entrySwap x xs).1.start ≤ b.start :=
        exchangePass_le fun c _ d hd => entrySwap_not_zeroed (hnone d hd)
      exact .inr ⟨hnone a hmem, hle a hmem⟩

/-- **The sort puts the entries in order exactly when every pass yields.** -/
theorem before_dhtLayoutSort_iff (list : List LayoutEntry) :
    (dhtLayoutSort list).Pairwise Before ↔ Fronts list := by
  have hfuel : ∀ (fuel : ℕ) (xs : List LayoutEntry), xs.length ≤ fuel →
      ((exchangeSortFuel entrySwap fuel xs).Pairwise Before ↔
        frontsFuel fuel xs = true) := by
    intro fuel
    induction fuel with
    | zero =>
        intro xs hle
        rw [List.eq_nil_of_length_eq_zero (Nat.le_zero.mp hle)]
        exact iff_of_true List.Pairwise.nil rfl
    | succ fuel ih =>
        intro xs hle
        cases xs with
        | nil => exact iff_of_true List.Pairwise.nil rfl
        | cons x xs =>
            have hlength := (entryPass_perm x xs).length_eq
            rw [List.length_cons, List.length_cons] at hlength
            rw [List.length_cons] at hle
            rw [exchangeSortFuel, List.pairwise_cons, frontsFuel, Bool.and_eq_true,
              ih _ (by omega)]
            refine and_congr_left fun _ => ?_
            have hsame : ∀ a, a ∈ exchangeSortFuel entrySwap
                fuel (exchangePass entrySwap x xs).2 ↔
                  a ∈ (exchangePass entrySwap x xs).2 :=
              fun a => (exchangeSortFuel_perm _ _).mem_iff
            simp only [hsame]
            rw [before_exchangePass_iff, zeroed_exchangePass_iff, Bool.or_eq_true,
              Bool.not_eq_true', ← Bool.not_eq_true, List.any_eq_true, imp_iff_not_or]
            simp only [decide_eq_true_eq]
  exact hfuel _ list le_rfl

/-- Entries that do not start behind their ends let every `0-0` pass. -/
theorem yields_of_proper {x : LayoutEntry} {xs : List LayoutEntry} (h : Proper (x :: xs))
    (hzero : ∃ e ∈ x :: xs, e.Zeroed) : yields x xs = true := by
  induction xs generalizing x with
  | nil =>
      obtain ⟨e, he, hz⟩ := hzero
      rw [List.mem_singleton.mp he] at hz
      exact decide_eq_true hz
  | cons y ys ih =>
      obtain ⟨hx, hrest⟩ := List.forall_mem_cons.mp h
      obtain ⟨hy, hys⟩ := List.forall_mem_cons.mp hrest
      by_cases hxz : x.Zeroed
      · exact yields_of_zeroed hxz _
      rw [yields, if_neg hxz]
      split_ifs with hyz hless
      · have hstop : x.stop ≠ 0 := fun hend => hxz ⟨by omega, hend⟩
        rw [decide_eq_true hstop, Bool.true_or]
      all_goals
        -- the `0-0` is still to come
        obtain ⟨e, he, hz⟩ := hzero
        have he' : e ∈ ys := by
          rcases List.mem_cons.mp he with rfl | he
          · exact absurd hz hxz
          · exact (List.mem_cons.mp he).resolve_left fun heq => hyz (heq ▸ hz)
      · exact ih (List.forall_mem_cons.mpr ⟨hy, hys⟩) ⟨e, List.mem_cons_of_mem _ he', hz⟩
      · exact ih (List.forall_mem_cons.mpr ⟨hx, hys⟩) ⟨e, List.mem_cons_of_mem _ he', hz⟩

theorem fronts_of_proper (h : Proper list) : Fronts list := by
  have hfuel : ∀ (fuel : ℕ) (xs : List LayoutEntry), Proper xs → frontsFuel fuel xs = true := by
    intro fuel
    induction fuel with
    | zero => exact fun _ _ => rfl
    | succ fuel ih =>
        intro xs hxs
        cases xs with
        | nil => rfl
        | cons x xs =>
            have hperm := entryPass_perm x xs
            rw [frontsFuel, ih _ fun e he => hxs e (hperm.mem_iff.mp (List.mem_cons_of_mem _ he)),
              Bool.and_true, Bool.or_eq_true, Bool.not_eq_true', ← Bool.not_eq_true,
              List.any_eq_true, ← imp_iff_not_or]
            simp only [decide_eq_true_eq]
            exact yields_of_proper hxs
  exact hfuel _ list h

theorem sorted_dhtLayoutSort (h : Proper list) :
    (dhtLayoutSort list).Perm list ∧ (dhtLayoutSort list).Pairwise Before :=
  ⟨exchangeSort_perm list, (before_dhtLayoutSort_iff list).mpr (fronts_of_proper h)⟩

/-! ## The scan -/

/-- An entry without an error and without a range is passed over. -/
theorem scanEntry_empty (s : Anomalies) {e : LayoutEntry} (herr : e.err = 0)
    (h : e.start = e.stop) : scanEntry s e = s := by
  simp [scanEntry, herr, h, enoent, estale, enotconn, enospc]

theorem scanEntry_range (s : Anomalies) {e : LayoutEntry} (herr : e.err = 0)
    (h : e.start ≠ e.stop) :
    (scanEntry s e).prevStop = e.stop ∧ (scanEntry s e).isVirgin = false ∧
      ((scanEntry s e).holes = 0 ∧ (scanEntry s e).overlaps = 0 ↔
        (s.holes = 0 ∧ s.overlaps = 0) ∧ (s.prevStop + 1) % 2 ^ 32 = e.start) := by
  have hcheck : scanEntry s e = { s with
      isVirgin := false
      holes := if (s.prevStop + 1) % 2 ^ 32 < e.start then s.holes + 1 else s.holes
      overlaps := if (s.prevStop + 1) % 2 ^ 32 > e.start then s.overlaps + 1 else s.overlaps
      prevStop := e.stop } := by
    simp [scanEntry, herr, h, enoent, estale, enotconn, enospc]
  rw [hcheck]
  refine ⟨rfl, rfl, ?_⟩
  change (if (s.prevStop + 1) % 2 ^ 32 < e.start then s.holes + 1 else s.holes) = 0 ∧
    (if (s.prevStop + 1) % 2 ^ 32 > e.start then s.overlaps + 1 else s.overlaps) = 0 ↔ _
  generalize (s.prevStop + 1) % 2 ^ 32 = next
  rcases lt_trichotomy next e.start with hlt | heq | hgt
  · rw [if_pos hlt]
    exact iff_of_false (fun hzero => Nat.succ_ne_zero _ hzero.1) fun hzero => hlt.ne hzero.2
  · rw [if_neg heq.not_lt, if_neg heq.not_gt]
    exact ⟨fun hzero => ⟨hzero, heq⟩, fun hzero => hzero.1⟩
  · rw [if_pos hgt]
    exact iff_of_false (fun hzero => Nat.succ_ne_zero _ hzero.2) fun hzero => hgt.ne' hzero.2

/-- The ranges that are looked at. -/
def scannedRanges (list : List LayoutEntry) : List (ℕ × ℕ) :=
  (list.filter fun e => decide (e.start ≠ e.stop)).map LayoutEntry.range

/-- **A scan finds nothing exactly when the ranges are linked.** -/
theorem scan_clean_iff (herr : ∀ e ∈ list, e.err = 0) (last : ℕ) (s : Anomalies) :
    ((list.foldl scanEntry s).holes = 0 ∧ (list.foldl scanEntry s).overlaps = 0 ∧
        (list.foldl scanEntry s).prevStop = last ↔
      (s.holes = 0 ∧ s.overlaps = 0) ∧ Linked (2 ^ 32) last s.prevStop (scannedRanges list)) ∧
      ((list.foldl scanEntry s).isVirgin = true ↔
        s.isVirgin = true ∧ scannedRanges list = []) := by
  induction list generalizing s with
  | nil =>
      refine ⟨⟨fun h => ⟨⟨h.1, h.2.1⟩, h.2.2⟩, fun h => ⟨h.1.1, h.1.2, h.2⟩⟩,
        ⟨fun h => ⟨h, rfl⟩, fun h => h.1⟩⟩
  | cons e rest ih =>
      obtain ⟨hclean, hvirgin⟩ := ih (fun x hx => herr x (List.mem_cons_of_mem e hx)) (scanEntry s e)
      rw [List.foldl_cons, hclean, hvirgin]
      by_cases hempty : e.start = e.stop
      · have hparts : scannedRanges (e :: rest) = scannedRanges rest := by
          rw [scannedRanges, List.filter_cons_of_neg (by simpa using hempty)]
          rfl
        rw [scanEntry_empty s (herr e List.mem_cons_self) hempty, hparts]
        exact ⟨Iff.rfl, Iff.rfl⟩
      · have hparts : scannedRanges (e :: rest) = e.range :: scannedRanges rest := by
          rw [scannedRanges, List.filter_cons_of_pos (by simpa using hempty)]
          rfl
        obtain ⟨hstop, hnot, hcounts⟩ := scanEntry_range s (herr e List.mem_cons_self) hempty
        rw [hstop, hnot, hcounts, hparts]
        exact ⟨⟨fun h => ⟨h.1.1, h.1.2, h.2⟩, fun h => ⟨⟨h.1, h.2.1⟩, h.2.2⟩⟩,
          iff_of_false (fun h => Bool.false_ne_true h.1) fun h => List.cons_ne_nil _ _ h.2⟩

theorem mem_participants {e : LayoutEntry} :
    e ∈ participants list ↔ e ∈ list ∧ e.start < e.stop := by
  rw [participants, List.mem_filter, decide_eq_true_iff]

/-! ## The report -/

/-- No holes and no overlaps are reported. -/
def Clean (list : List LayoutEntry) : Prop :=
  (dhtLayoutAnomalies list).holes = 0 ∧ (dhtLayoutAnomalies list).overlaps = 0

/-- The scan before the last check. -/
def scanned (list : List LayoutEntry) : Anomalies :=
  list.foldl scanEntry ⟨lastStop list, true, 0, 0, 0, 0, 0, 0⟩

theorem clean_iff :
    Clean list ↔ (scanned list).holes = 0 ∧ (scanned list).overlaps = 0 ∧
      (scanned list).prevStop = lastStop list ∧ (scanned list).isVirgin = false := by
  rw [Clean, dhtLayoutAnomalies]
  change (if lastStop list ≠ (scanned list).prevStop ∨ (scanned list).isVirgin = true then
    { scanned list with holes := (scanned list).holes + 1 } else scanned list).holes = 0 ∧
    (if lastStop list ≠ (scanned list).prevStop ∨ (scanned list).isVirgin = true then
    { scanned list with holes := (scanned list).holes + 1 } else scanned list).overlaps = 0 ↔ _
  split
  · next hlast =>
    refine iff_of_false (fun h => Nat.succ_ne_zero _ h.1) ?_
    rintro ⟨-, -, hstop, hvirgin⟩
    rcases hlast with hne | hyes
    · exact hne hstop.symm
    · rw [hvirgin] at hyes
      cases hyes
  · next hlast =>
    obtain ⟨hstop, hvirgin⟩ := not_or.mp hlast
    exact ⟨fun h => ⟨h.1, h.2, (not_not.mp hstop).symm, Bool.eq_false_of_not_eq_true hvirgin⟩,
      fun h => ⟨h.1, h.2.1⟩⟩

/-- A layout is reported clean exactly when its ranges are linked, all the way round. -/
theorem clean_iff_linked (herr : ∀ e ∈ list, e.err = 0) :
    Clean list ↔ scannedRanges list ≠ [] ∧
      Linked (2 ^ 32) (lastStop list) (lastStop list) (scannedRanges list) := by
  obtain ⟨hclean, hvirgin⟩ :=
    scan_clean_iff herr (lastStop list) ⟨lastStop list, true, 0, 0, 0, 0, 0, 0⟩
  have hvirgin' : (scanned list).isVirgin = true ↔ scannedRanges list = [] :=
    hvirgin.trans ⟨fun h => h.2, fun h => ⟨rfl, h⟩⟩
  have hclean' : (scanned list).holes = 0 ∧ (scanned list).overlaps = 0 ∧
      (scanned list).prevStop = lastStop list ↔
      Linked (2 ^ 32) (lastStop list) (lastStop list) (scannedRanges list) :=
    hclean.trans ⟨fun h => h.2, fun h => ⟨⟨rfl, rfl⟩, h⟩⟩
  rw [clean_iff, ← Bool.not_eq_true, hvirgin', ← hclean']
  exact ⟨fun h => ⟨h.2.2.2, h.1, h.2.1, h.2.2.1⟩, fun h => ⟨h.2.1, h.2.2.1, h.2.2.2, h.1⟩⟩

/-- The start of the first entry. -/
def firstStart (list : List LayoutEntry) : ℕ := (list.head?.map LayoutEntry.start).getD 0

/-- The ranges that take part follow each other from zero to the end. -/
def FromZero (list : List LayoutEntry) : Prop :=
  (participants list).map LayoutEntry.range ≠ [] ∧
    Linked (2 ^ 32) (2 ^ 32 - 1) (2 ^ 32 - 1) ((participants list).map LayoutEntry.range)

/-- **Neighbours tell the truth about a layout in order.**  If it starts at zero and the ranges that
take part follow each other, then those that start behind their ends fit in between exactly when the
whole space is no range among others.  If it starts behind zero, its ranges are not linked all the
way round. -/
def Sound (list : List LayoutEntry) : Prop :=
  if firstStart list = 0 then
    FromZero list →
      (Fitted (scannedRanges list) ↔ Lone (2 ^ 32) ((participants list).map LayoutEntry.range))
  else ¬ (scannedRanges list ≠ [] ∧
    Linked (2 ^ 32) (lastStop list) (lastStop list) (scannedRanges list))

theorem forward_scannedRanges :
    forward (scannedRanges list) = (participants list).map LayoutEntry.range := by
  rw [forward, scannedRanges, List.filter_map, List.filter_filter, participants]
  refine congrArg _ (List.filter_congr fun e _ => ?_)
  rw [Bool.eq_iff_iff, Bool.and_eq_true, Function.comp_apply, decide_eq_true_iff,
    decide_eq_true_iff, decide_eq_true_iff]
  exact ⟨fun h => h.1, fun h => ⟨h, h.ne⟩⟩

section Ordered

variable (hbefore : list.Pairwise Before)
include hbefore

theorem starts_scannedRanges : (scannedRanges list).Pairwise fun r s => r.1 ≤ s.1 := by
  refine List.pairwise_map.mpr
    ((hbefore.sublist List.filter_sublist).imp_of_mem fun {a b} ha _ hab => ?_)
  have hne : a.start ≠ a.stop := of_decide_eq_true (List.mem_filter.mp ha).2
  exact (hab.resolve_left fun hz => hne (hz.1.trans hz.2.symm)).2

theorem not_tiles_of_firstStart (hfirst : firstStart list ≠ 0) :
    ¬ Tiles (2 ^ 32) 0 ((participants list).map LayoutEntry.range) := by
  intro htiles
  obtain ⟨r, hr, hin, -⟩ := htiles.cover 0 le_rfl (by norm_num)
  obtain ⟨x, hx, rfl⟩ := List.mem_map.mp hr
  have hzero : x.start = 0 := Nat.le_zero.mp hin
  cases list with
  | nil => exact hfirst rfl
  | cons e rest =>
      rcases List.mem_cons.mp (mem_participants.mp hx).1 with rfl | hrest
      · exact hfirst hzero
      · rcases (List.pairwise_cons.mp hbefore).1 x hrest with hz | ⟨-, hle⟩
        · exact hfirst hz.1
        · exact hfirst (Nat.le_zero.mp (hzero ▸ hle))

variable (hrange : InRange list)
include hrange

theorem tiles_iff_fromZero : Tiles (2 ^ 32) 0 ((participants list).map LayoutEntry.range) ↔
    FromZero list ∧ Lone (2 ^ 32) ((participants list).map LayoutEntry.range) := by
  refine tiles_iff_linked (by norm_num) (fun r hr => ?_) ?_
  · obtain ⟨e, he, rfl⟩ := List.mem_map.mp hr
    obtain ⟨hmem, hlt⟩ := mem_participants.mp he
    exact ⟨hlt.le, (hrange e hmem).2⟩
  · rw [← forward_scannedRanges]
    exact (starts_scannedRanges hbefore).sublist List.filter_sublist

theorem clean_iff_fromZero (herr : ∀ e ∈ list, e.err = 0) (hfirst : firstStart list = 0) :
    Clean list ↔ Fitted (scannedRanges list) ∧ FromZero list := by
  have hlast : lastStop list = 2 ^ 32 - 1 := by
    change (firstStart list + (2 ^ 32 - 1)) % 2 ^ 32 = _
    rw [hfirst]
    rfl
  rw [clean_iff_linked herr, hlast, FromZero, ← forward_scannedRanges]
  refine linked_iff_fitted (fun r hr => ?_) (starts_scannedRanges hbefore)
  obtain ⟨e, he, rfl⟩ := List.mem_map.mp hr
  obtain ⟨hmem, hne⟩ := List.mem_filter.mp he
  exact ⟨of_decide_eq_true hne, (hrange e hmem).1⟩

/-- **The report is right exactly when neighbours tell the truth.** -/
theorem clean_iff_tiles_iff (herr : ∀ e ∈ list, e.err = 0) :
    (Clean list ↔ Tiles (2 ^ 32) 0 ((participants list).map LayoutEntry.range)) ↔ Sound list := by
  rw [Sound]
  split_ifs with hfirst
  · rw [clean_iff_fromZero hbefore hrange herr hfirst, tiles_iff_fromZero hbefore hrange,
      and_comm, and_congr_right_iff]
  · rw [← clean_iff_linked herr, iff_false_right (not_tiles_of_firstStart hbefore hfirst)]

end Ordered

/-- A tiling of proper ranges is reported clean. -/
theorem clean_of_tiles (hbefore : list.Pairwise Before) (hproper : Proper list)
    (herr : ∀ e ∈ list, e.err = 0)
    (htiles : Tiles (2 ^ 32) 0 ((participants list).map LayoutEntry.range)) : Clean list := by
  have hrange : InRange list := fun e he =>
    ⟨(hproper e he).1.trans_lt (hproper e he).2, (hproper e he).2⟩
  have hfirst : firstStart list = 0 :=
    not_not.mp fun hne => not_tiles_of_firstStart hbefore hne htiles
  refine (clean_iff_fromZero hbefore hrange herr hfirst).mpr
    ⟨fitted_of_proper fun r hr => ?_, ((tiles_iff_fromZero hbefore hrange).mp htiles).1⟩
  obtain ⟨e, he, rfl⟩ := List.mem_map.mp hr
  obtain ⟨hmem, hne⟩ := List.mem_filter.mp he
  exact lt_of_le_of_ne (hproper e hmem).1 (of_decide_eq_true hne)

/-- **The check of a layout.**  For every layout without errors the sort is a permutation.  It puts
the entries `0-0` first and the others by their starts, and no anomaly is then reported exactly when
the ranges that take part tile the hash space, **exactly when** every pass of the sort yields and
neighbours tell the truth about what it brings. -/
theorem sort_anomalies_exact_iff (herr : ∀ e ∈ list, e.err = 0) (hrange : InRange list) :
    (dhtLayoutSort list).Perm list ∧
      ((dhtLayoutSort list).Pairwise Before ∧ (Clean (dhtLayoutSort list) ↔
          Tiles (2 ^ 32) 0 ((participants list).map LayoutEntry.range)) ↔
        Fronts list ∧ Sound (dhtLayoutSort list)) := by
  have hperm : (dhtLayoutSort list).Perm list := exchangeSort_perm list
  have hparts : ((participants (dhtLayoutSort list)).map LayoutEntry.range).Perm
      ((participants list).map LayoutEntry.range) := (hperm.filter _).map _
  have htiles : Tiles (2 ^ 32) 0 ((participants (dhtLayoutSort list)).map LayoutEntry.range) ↔
      Tiles (2 ^ 32) 0 ((participants list).map LayoutEntry.range) :=
    ⟨fun h => h.perm hparts, fun h => h.perm hparts.symm⟩
  refine ⟨hperm, ?_⟩
  rw [← before_dhtLayoutSort_iff, ← htiles]
  refine and_congr_right fun hbefore => clean_iff_tiles_iff hbefore (fun e he => ?_) fun e he => ?_
  · exact hrange e (hperm.mem_iff.mp he)
  · exact herr e (hperm.mem_iff.mp he)

/-- Two halves and a subvolume that takes no part. -/
def twoHalves : List LayoutEntry :=
  [⟨0, 2 ^ 31, 2 ^ 32 - 1, 1⟩, ⟨0, 0, 2 ^ 31 - 1, 2⟩, ⟨0, 0, 0, 3⟩]

theorem sort_anomalies_exact_iff_twoHalves :
    Clean (dhtLayoutSort twoHalves) ∧
      Tiles (2 ^ 32) 0 ((participants twoHalves).map LayoutEntry.range) := by
  have hclean : Clean (dhtLayoutSort twoHalves) := by
    unfold Clean
    decide
  have hsound : Sound (dhtLayoutSort twoHalves) := by
    rw [Sound, if_pos (by decide)]
    refine fun _ => iff_of_true (fitted_of_proper (by decide)) ?_
    unfold Lone
    decide
  exact ⟨hclean, ((sort_anomalies_exact_iff (by decide) (by unfold InRange; decide)).2.mpr
    ⟨by unfold Fronts; decide, hsound⟩).2.mp hclean⟩

/-- Two subvolumes that both have the whole space. -/
def twoWholes : List LayoutEntry := [⟨0, 0, 2 ^ 32 - 1, 1⟩, ⟨0, 0, 2 ^ 32 - 1, 2⟩]

/-- **An overlap of everything is not reported.** -/
theorem twoWholes_clean :
    Proper twoWholes ∧ Clean (dhtLayoutSort twoWholes) ∧
      ¬ Tiles (2 ^ 32) 0 ((participants twoWholes).map LayoutEntry.range) := by
  refine ⟨by unfold Proper; decide, by unfold Clean; decide, fun h => ?_⟩
  have hapart := h.apart
  rw [show (participants twoWholes).map LayoutEntry.range
    = [(0, 2 ^ 32 - 1), (0, 2 ^ 32 - 1)] by decide, List.pairwise_cons] at hapart
  rcases hapart.1 _ (List.mem_singleton_self _) with hlt | hlt <;> omega

end GlusterFS.Dht
