import GlusterFS.Locks.Inodelk

/-!
# The bytes of a lock request

A client asks for `l_len` bytes from `l_start` on, and for everything from there on when `l_len`
is zero.  `new_posix_lock` and `new_inode_lock` keep the first and the last byte instead, and
`LLONG_MAX` stands for a lock without an end.

`pl_lk` and `pl_common_inodelk` refuse a negative start or length and nothing else.  The last byte
is computed in 64 bits, so that the kept range is the one that was asked for only if the range
ends before `LLONG_MAX` (`Flock.Fits`).  A range that ends behind it gets a **negative** last byte:
such a lock overlaps no other and not even itself.  A range that ends exactly there cannot be told
from one without an end.
-/

namespace GlusterFS.Locks

/-! ## The model -/

/-- `posix_lock_to_flock`; the difference is one of 64 bits. -/
def posixLockToFlock (lock : PosixLock) : Flock where
  lType := lock.flType
  lStart := lock.flStart
  lLen := if lock.flEnd = llongMax then 0 else (lock.flEnd - lock.flStart + 1).bmod (2 ^ 64)
  client := lock.client
  owner := lock.owner
  fdNum := lock.fdNum

/-- The range has no end, or ends before the last byte that an `off_t` can name. -/
def Flock.Fits (flock : Flock) : Prop := flock.lLen = 0 ∨ flock.lStart + flock.lLen < 2 ^ 63

/-- **The locks of two requests stand for their bytes.**  `x` and `y` are the addresses of the
inode locks. -/
structure Stands (a b : Flock) : Prop where
  ordered : ∀ f ∈ [a, b], (newPosixLock f).flStart ≤ (newPosixLock f).flEnd
  inodelk_ordered : ∀ f ∈ [a, b], ∀ x, (newInodeLock f x).flStart ≤ (newInodeLock f x).flEnd
  overlap : locksOverlap (newPosixLock a) (newPosixLock b) = true ↔ (a.bytes ∩ b.bytes).Nonempty
  inodelk_overlap : ∀ x y, inodelkOverlap (newInodeLock a x) (newInodeLock b y) = true ↔
    (a.bytes ∩ b.bytes).Nonempty
  restored : ∀ f ∈ [a, b], (posixLockToFlock (newPosixLock f)).bytes = f.bytes

variable {a b flock : Flock}

/-! ## The bytes of two ranges -/

/-- Nothing is in common of two ranges, or the later of the two starts is. -/
theorem inter_nonempty_iff (ha : a.Admitted) (hb : b.Admitted) :
    (a.bytes ∩ b.bytes).Nonempty ↔
      (a.lLen = 0 ∨ b.lStart < a.lStart + a.lLen) ∧
        (b.lLen = 0 ∨ a.lStart < b.lStart + b.lLen) := by
  obtain ⟨-, -, hlen, -⟩ := ha
  obtain ⟨-, -, hlen', -⟩ := hb
  constructor
  · rintro ⟨x, ⟨hx, hxa⟩, hx', hxb⟩
    omega
  · intro h
    refine ⟨max a.lStart b.lStart, ⟨le_max_left _ _, ?_⟩, le_max_right _ _, ?_⟩ <;> omega

/-! ## When the locks stand for the bytes -/

theorem ordered_of_fits (h : flock.Admitted) (hfits : flock.Fits) :
    (newPosixLock flock).flStart ≤ (newPosixLock flock).flEnd := by
  have hend := flEnd_eq h
  obtain ⟨hstart, hstart', hlen, hlen'⟩ := h
  rw [hend]
  simp only [newPosixLock, llongMax]
  rcases hfits with hzero | hfits
  · rw [if_pos hzero]
    omega
  · split_ifs <;> omega

theorem overlap_of_fits (ha : a.Admitted) (hb : b.Admitted) (hfa : a.Fits) (hfb : b.Fits) :
    locksOverlap (newPosixLock a) (newPosixLock b) = true ↔ (a.bytes ∩ b.bytes).Nonempty := by
  rw [inter_nonempty_iff ha hb, locksOverlap_iff, flEnd_eq ha, flEnd_eq hb]
  obtain ⟨hstart, hstart', hlen, hlen'⟩ := ha
  obtain ⟨hstartb, hstartb', hlenb, hlenb'⟩ := hb
  simp only [newPosixLock, llongMax, Flock.Fits] at *
  split_ifs <;> omega

/-- **The length that comes back** is the one that was asked for, unless the range ends exactly at
the last byte that an `off_t` can name. -/
theorem lLen_posixLockToFlock (h : flock.Admitted) :
    (posixLockToFlock (newPosixLock flock)).lLen
      = if flock.lStart + flock.lLen = 2 ^ 63 then 0 else flock.lLen := by
  have hend := flEnd_eq h
  obtain ⟨hstart, hstart', hlen, hlen'⟩ := h
  have hfirst : (newPosixLock flock).flStart = flock.lStart := rfl
  simp only [posixLockToFlock, hfirst, hend, llongMax]
  by_cases hzero : flock.lLen = 0
  · rw [if_pos hzero, if_pos rfl]
    split <;> omega
  · rw [if_neg hzero, Int.bmod_def]
    split_ifs <;> omega

theorem restored_of_fits (h : flock.Admitted) (hfits : flock.Fits) :
    (posixLockToFlock (newPosixLock flock)).bytes = flock.bytes := by
  have hlen := lLen_posixLockToFlock h
  have hsame : (posixLockToFlock (newPosixLock flock)).lLen = flock.lLen := by
    rw [hlen]
    rcases hfits with hzero | hfits
    · split <;> omega
    · rw [if_neg (by omega)]
  have hstart : (posixLockToFlock (newPosixLock flock)).lStart = flock.lStart := rfl
  ext x
  simp only [Flock.bytes, Set.mem_ofPred_eq, hsame, hstart]

/-- A range that does not fit is not kept in order, or does not come back. -/
theorem fits_of_ordered_of_restored (h : flock.Admitted)
    (hordered : (newPosixLock flock).flStart ≤ (newPosixLock flock).flEnd)
    (hrestored : (posixLockToFlock (newPosixLock flock)).bytes = flock.bytes) : flock.Fits := by
  have hend := flEnd_eq h
  have hlen' := lLen_posixLockToFlock h
  obtain ⟨hstart, hstart', hlen, hlt⟩ := h
  by_contra hnot
  obtain ⟨hzero, hlarge⟩ := not_or.mp hnot
  have hfirst : (newPosixLock flock).flStart = flock.lStart := rfl
  rw [hfirst, hend, if_neg hzero] at hordered
  have hexact : flock.lStart + flock.lLen = 2 ^ 63 := by
    split_ifs at hordered <;> omega
  -- the range comes back without its end
  rw [if_pos hexact] at hlen'
  have hbehind : (2 ^ 63 : ℤ) ∈ (posixLockToFlock (newPosixLock flock)).bytes :=
    ⟨hstart'.le, .inl hlen'⟩
  rw [hrestored] at hbehind
  obtain ⟨-, hin⟩ := hbehind
  omega

/-- **Exactly when locks stand for bytes**: neither range ends at or behind the last byte that an
`off_t` can name. -/
theorem stands_iff_fits (ha : a.Admitted) (hb : b.Admitted) :
    Stands a b ↔ a.Fits ∧ b.Fits := by
  constructor
  · intro h
    exact ⟨fits_of_ordered_of_restored ha (h.ordered a (by simp)) (h.restored a (by simp)),
      fits_of_ordered_of_restored hb (h.ordered b (by simp)) (h.restored b (by simp))⟩
  · rintro ⟨hfa, hfb⟩
    have hboth : ∀ f ∈ [a, b], f.Admitted ∧ f.Fits := by
      intro f hf
      rcases List.mem_pair.mp hf with rfl | rfl
      · exact ⟨ha, hfa⟩
      · exact ⟨hb, hfb⟩
    exact
      { ordered := fun f hf => ordered_of_fits (hboth f hf).1 (hboth f hf).2
        inodelk_ordered := fun f hf _ => ordered_of_fits (hboth f hf).1 (hboth f hf).2
        overlap := overlap_of_fits ha hb hfa hfb
        inodelk_overlap := fun _ _ => overlap_of_fits ha hb hfa hfb
        restored := fun f hf => restored_of_fits (hboth f hf).1 (hboth f hf).2 }

/-- A request for writing. -/
def writeRequest (lStart lLen : ℤ) : Flock := ⟨.wrlck, lStart, lLen, 1, 1, 1⟩

/-- Ten bytes, and everything from the fifth on. -/
theorem stands_iff_fits_ten : Stands (writeRequest 0 10) (writeRequest 4 0) :=
  (stands_iff_fits (a := writeRequest 0 10) (b := writeRequest 4 0)
    (by norm_num [Flock.Admitted, writeRequest]) (by norm_num [Flock.Admitted, writeRequest])).mpr
    ⟨.inr (by norm_num [writeRequest]), .inl rfl⟩

/-- **A lock behind the end.**  Two bytes from the last one on are admitted, their lock ends before
it starts, and two clients can hold it at once. -/
theorem lock_overflows :
    (writeRequest (2 ^ 63 - 1) 2).Admitted ∧
      (newPosixLock (writeRequest (2 ^ 63 - 1) 2)).flEnd = -2 ^ 63 ∧
      locksOverlap (newPosixLock (writeRequest (2 ^ 63 - 1) 2))
        (newPosixLock (writeRequest (2 ^ 63 - 1) 2)) = false ∧
      inodelkOverlap (newInodeLock (writeRequest (2 ^ 63 - 1) 2) 1)
        (newInodeLock (writeRequest (2 ^ 63 - 1) 2) 2) = false ∧
      ¬ Stands (writeRequest (2 ^ 63 - 1) 2) (writeRequest (2 ^ 63 - 1) 2) := by
  refine ⟨by norm_num [Flock.Admitted, writeRequest], by decide, by decide, by decide, fun h => ?_⟩
  exact absurd (h.ordered (writeRequest (2 ^ 63 - 1) 2) List.mem_cons_self) (by decide)

end GlusterFS.Locks
