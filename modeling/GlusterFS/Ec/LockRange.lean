import GlusterFS.Ec.Range

/-!
# The ranges of locks on the bricks

A lock on a disperse volume is taken on every brick.  `ec_manager_inodelk` and `ec_manager_lk`
round its range to whole stripes and scale it to the fragment files: the bytes between the start
of the stripe and `l_start` are added to `l_len` before `l_len` is rounded up.

A length of zero stands for a range without an end.  It stays zero only if the range starts at a
stripe.  Otherwise the added bytes make a **finite** range of it, a single chunk (`Lost`), and a
lock that the bricks should see as one up to the end of the file is gone behind that chunk.
`overlaps_adjusted_iff` says exactly which pairs of overlapping ranges still overlap on the bricks.

When a lock could be had on some of the bricks only, it is given back there through the same
functions, with the range of the bricks scaled back.  This always leads to the same range
(`adjusted_rescaled`).
-/

namespace GlusterFS.Ec

/-! ## The model -/

/-- `l_start` and `l_len`; a range of length zero has no end. -/
@[ext]
structure LockRange where
  start : ℕ
  len : ℕ
  deriving DecidableEq

namespace LockRange

/-- The range covers a byte. -/
def Covers (r : LockRange) (x : ℕ) : Prop := r.start ≤ x ∧ (r.len = 0 ∨ x < r.start + r.len)

/-- Some byte is in both ranges. -/
def Overlaps (r s : LockRange) : Prop := ∃ x, r.Covers x ∧ s.Covers x

/-- The values of an `off_t` that are not negative. -/
def Valid (r : LockRange) : Prop := r.start < 2 ^ 63 ∧ r.len < 2 ^ 63

end LockRange

/-- The adjustment of `fop->flock` in `EC_STATE_INIT`. -/
def adjusted (g : Geometry) (r : LockRange) : LockRange :=
  let (start, head) := ecAdjustOffset g r.start
  ⟨start, ecAdjustSize g ((r.len + head) % 2 ^ 64)⟩

/-- `ec_manager_inodelk` in `EC_STATE_INIT`. -/
def ecManagerInodelkInit : Geometry → LockRange → LockRange := adjusted

/-- `ec_manager_lk` in `EC_STATE_INIT`. -/
def ecManagerLkInit : Geometry → LockRange → LockRange := adjusted

/-- The range of the unlock that gives a lock back. -/
def rescaled (g : Geometry) (r : LockRange) : LockRange :=
  ⟨r.start * g.fragments % 2 ^ 64, r.len * g.fragments % 2 ^ 64⟩

/-- A range without an end that starts inside a stripe. -/
def Lost (g : Geometry) (r : LockRange) : Prop := r.len = 0 ∧ ¬ g.stripeSize ∣ r.start

variable {g : Geometry} {r s : LockRange}

/-! ## Overlaps -/

theorem LockRange.overlaps_iff :
    r.Overlaps s ↔
      (r.len = 0 ∨ s.start < r.start + r.len) ∧ (s.len = 0 ∨ r.start < s.start + s.len) := by
  constructor
  · rintro ⟨x, ⟨hr, hr'⟩, hs, hs'⟩
    omega
  · intro h
    refine ⟨max r.start s.start, ⟨le_max_left _ _, ?_⟩, le_max_right _ _, ?_⟩ <;> omega

/-! ## Whole stripes -/

/-- The stripes of a range, as far as its bytes and the head go. -/
def stripesOf (g : Geometry) (r : LockRange) : ℕ :=
  (r.len + r.start % g.stripeSize + (g.stripeSize - 1)) / g.stripeSize

theorem adjusted_eq (hr : r.Valid) :
    adjusted g r = ⟨512 * (r.start / g.stripeSize), 512 * stripesOf g r⟩ := by
  have hstripe := g.stripeSize_le
  have hhead := Nat.mod_lt r.start g.stripeSize_pos
  obtain ⟨-, hlen⟩ := hr
  simp only [adjusted, ecAdjustOffset_eq, ecAdjustSize_eq, stripesOf]
  rw [Nat.mod_eq_of_lt (show r.len + r.start % g.stripeSize < 2 ^ 64 by omega),
    Nat.mod_eq_of_lt (by omega)]

/-- Where the stripes of a range end. -/
theorem start_add_stripesOf (g : Geometry) (r : LockRange) :
    r.start / g.stripeSize + stripesOf g r
      = (r.start + r.len + (g.stripeSize - 1)) / g.stripeSize := by
  have hsplit := Nat.div_add_mod r.start g.stripeSize
  have hsum : r.start + r.len + (g.stripeSize - 1)
      = r.len + r.start % g.stripeSize + (g.stripeSize - 1)
        + g.stripeSize * (r.start / g.stripeSize) := by
    omega
  rw [hsum, Nat.add_mul_div_left _ _ g.stripeSize_pos, stripesOf, Nat.add_comm]

/-- A stripe starts before `n` exactly if it is one of the stripes that `n` bytes need. -/
theorem lt_roundUp_iff (g : Geometry) (q n : ℕ) :
    q < (n + (g.stripeSize - 1)) / g.stripeSize ↔ g.stripeSize * q < n := by
  have hpos := g.stripeSize_pos
  rw [← Nat.succ_le_iff, Nat.le_div_iff_mul_le hpos, Nat.succ_mul, mul_comm q]
  omega

/-- **How far a range reaches on the bricks**: to the stripe of every byte that it reaches, unless
its end is lost. -/
theorem reaches_iff {x : ℕ} (h : r.len = 0 ∨ x < r.start + r.len) :
    (stripesOf g r = 0 ∨ x / g.stripeSize < r.start / g.stripeSize + stripesOf g r) ↔
      (Lost g r → x / g.stripeSize ≤ r.start / g.stripeSize) := by
  have hbelow := Nat.mul_div_le x g.stripeSize
  have hpos := g.stripeSize_pos
  by_cases hlen : r.len = 0
  · by_cases hdvd : g.stripeSize ∣ r.start
    · have hnone : stripesOf g r = 0 := by
        rw [stripesOf, hlen, Nat.mod_eq_zero_of_dvd hdvd]
        exact Nat.div_eq_of_lt (by omega)
      exact iff_of_true (.inl hnone) fun hlost => absurd hdvd hlost.2
    · have hhead : 0 < r.start % g.stripeSize := Nat.emod_pos_of_not_dvd hdvd
      have hlt := Nat.mod_lt r.start hpos
      have hone : stripesOf g r = 1 := by
        rw [stripesOf, hlen]
        refine Nat.div_eq_of_lt_le ?_ ?_ <;> omega
      have hlost : Lost g r := ⟨hlen, hdvd⟩
      rw [hone]
      constructor
      · intro h _
        omega
      · intro h
        have := h hlost
        omega
  · refine iff_of_true (.inr ?_) fun hlost => absurd hlost.1 hlen
    rw [start_add_stripesOf, lt_roundUp_iff]
    omega

/-- Ranges of chunks overlap when their numbers do. -/
theorem overlaps_scaled {q c q' c' : ℕ} :
    (LockRange.mk (512 * q) (512 * c)).Overlaps ⟨512 * q', 512 * c'⟩ ↔
      (c = 0 ∨ q' < q + c) ∧ (c' = 0 ∨ q < q' + c') := by
  rw [LockRange.overlaps_iff]
  dsimp only
  omega

theorem overlaps_adjusted (hr : r.Valid) (hs : s.Valid) (h : r.Overlaps s) :
    (adjusted g r).Overlaps (adjusted g s) ↔
      (Lost g r → s.start / g.stripeSize ≤ r.start / g.stripeSize) ∧
        (Lost g s → r.start / g.stripeSize ≤ s.start / g.stripeSize) := by
  obtain ⟨hreach, hreach'⟩ := LockRange.overlaps_iff.mp h
  rw [adjusted_eq hr, adjusted_eq hs, overlaps_scaled, reaches_iff hreach, reaches_iff hreach']

/-! ## Giving a lock back -/

theorem adjusted_rescaled (hr : r.Valid) :
    adjusted g (rescaled g (adjusted g r)) = adjusted g r := by
  have hstripe := g.stripeSize_le
  have hpos := g.stripeSize_pos
  have hhead := Nat.mod_lt r.start hpos
  have hscale : ∀ n, 512 * n * g.fragments = g.stripeSize * n := by
    intro n
    rw [g.stripeSize_eq]
    ring
  have hstart := Nat.mul_div_le r.start g.stripeSize
  have hlen := Nat.mul_div_le (r.len + r.start % g.stripeSize + (g.stripeSize - 1)) g.stripeSize
  obtain ⟨hstart', hlen'⟩ := hr
  rw [adjusted_eq ⟨hstart', hlen'⟩, rescaled, hscale, hscale, stripesOf,
    Nat.mod_eq_of_lt (by omega), Nat.mod_eq_of_lt (by omega)]
  simp only [adjusted, ecAdjustOffset_eq, ecAdjustSize_eq, Nat.mul_mod_right, Nat.add_zero,
    Nat.mul_div_cancel_left _ hpos]
  rw [Nat.mod_eq_of_lt (show g.stripeSize * ((r.len + r.start % g.stripeSize
    + (g.stripeSize - 1)) / g.stripeSize) < 2 ^ 64 by omega), Nat.mod_eq_of_lt (by omega),
    Nat.mul_add_div hpos, Nat.div_eq_of_lt (show g.stripeSize - 1 < g.stripeSize by omega),
    Nat.add_zero]

/-- **Overlaps on the bricks.**  Two ranges that overlap still do so on the bricks exactly if
neither is a range whose end is lost and whose stripe lies before the stripe of the other; and a
range that is given back is the range that was taken. -/
theorem overlaps_adjusted_iff (g : Geometry) (r s : LockRange) (hr : r.Valid) (hs : s.Valid) :
    (r.Overlaps s →
      ((ecManagerInodelkInit g r).Overlaps (ecManagerInodelkInit g s) ↔
        (Lost g r → s.start / g.stripeSize ≤ r.start / g.stripeSize) ∧
          (Lost g s → r.start / g.stripeSize ≤ s.start / g.stripeSize)) ∧
      ((ecManagerLkInit g r).Overlaps (ecManagerLkInit g s) ↔
        (Lost g r → s.start / g.stripeSize ≤ r.start / g.stripeSize) ∧
          (Lost g s → r.start / g.stripeSize ≤ s.start / g.stripeSize))) ∧
    ecManagerInodelkInit g (rescaled g (ecManagerInodelkInit g r)) = ecManagerInodelkInit g r ∧
    ecManagerLkInit g (rescaled g (ecManagerLkInit g r)) = ecManagerLkInit g r :=
  ⟨fun h => ⟨overlaps_adjusted hr hs h, overlaps_adjusted hr hs h⟩, adjusted_rescaled hr,
    adjusted_rescaled hr⟩

theorem not_lost_of_len {n len : ℕ} (h : len ≠ 0) : ¬ Lost g ⟨n, len⟩ := fun hlost => h hlost.1

/-- Two ranges of some bytes in one stripe of 1024 bytes. -/
theorem overlaps_adjusted_iff_bytes :
    (ecManagerLkInit threeNodes ⟨5, 10⟩).Overlaps (ecManagerLkInit threeNodes ⟨14, 3000⟩) := by
  have h := overlaps_adjusted_iff threeNodes ⟨5, 10⟩ ⟨14, 3000⟩ ⟨by norm_num, by norm_num⟩
    ⟨by norm_num, by norm_num⟩
  refine (h.1 (LockRange.overlaps_iff.mpr (by decide))).2.mpr ⟨fun hlost => ?_, fun hlost => ?_⟩
  · exact absurd hlost (not_lost_of_len (by decide))
  · exact absurd hlost (not_lost_of_len (by decide))

/-- **A lock up to the end that ends.**  Everything from the second byte on overlaps a byte of the
third stripe; on the bricks the first is the first chunk and the second the third one. -/
theorem unbounded_lock_ends :
    (LockRange.mk 1 0).Overlaps ⟨2048, 1⟩ ∧
      ecManagerLkInit threeNodes ⟨1, 0⟩ = ⟨0, 512⟩ ∧
      ecManagerLkInit threeNodes ⟨2048, 1⟩ = ⟨1024, 512⟩ ∧
      ¬ (ecManagerLkInit threeNodes ⟨1, 0⟩).Overlaps (ecManagerLkInit threeNodes ⟨2048, 1⟩) ∧
      ¬ (ecManagerInodelkInit threeNodes ⟨1, 0⟩).Overlaps
        (ecManagerInodelkInit threeNodes ⟨2048, 1⟩) := by
  have hfirst : adjusted threeNodes ⟨1, 0⟩ = ⟨0, 512⟩ := by decide
  have hsecond : adjusted threeNodes ⟨2048, 1⟩ = ⟨1024, 512⟩ := by decide
  have hnot : ¬ (adjusted threeNodes ⟨1, 0⟩).Overlaps (adjusted threeNodes ⟨2048, 1⟩) := by
    rw [hfirst, hsecond, LockRange.overlaps_iff]
    decide
  exact ⟨LockRange.overlaps_iff.mpr (by decide), hfirst, hsecond, hnot, hnot⟩

end GlusterFS.Ec
