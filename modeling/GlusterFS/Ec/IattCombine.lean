import GlusterFS.Ec.Answer

/-!
# Combining the attributes of two answers

`ec_iatt_combine` gets two arrays of `count` attributes.  It compares them, fails without a change
when they do not match, and merges the second array into the first otherwise: the blocks are added
up, and the larger block size and the later times are kept.

Both loops count to `count` and **move neither pointer**.  The first attributes are compared
`count` times and merged `count` times, and the others are neither read nor written.  `Combines` is
what the function is for, and `combines_iff` says exactly when it is what the function does: there
is one attribute only, or the first attributes differ, or everything agrees and the merge happens
to leave nothing to do.
-/

namespace GlusterFS.Ec

/-! ## The model -/

/-- `struct iatt`: the fields that are compared and those that are merged.  A time is its seconds
and nanoseconds. -/
@[ext]
structure FullIatt where
  iatt : Iatt
  blocks : ℕ
  blksize : ℕ
  atime : ℕ × ℕ
  mtime : ℕ × ℕ
  ctime : ℕ × ℕ
  deriving DecidableEq

/-- `ec_iatt_time_merge`. -/
def ecIattTimeMerge (dst src : ℕ × ℕ) : ℕ × ℕ :=
  if dst.1 < src.1 ∨ dst.1 = src.1 ∧ dst.2 < src.2 then src else dst

/-- The body of the second loop; `ia_blocks` is a `uint64_t`. -/
def mergeIatt (src dst : FullIatt) : FullIatt where
  iatt := dst.iatt
  blocks := (dst.blocks + src.blocks) % 2 ^ 64
  blksize := if dst.blksize < src.blksize then src.blksize else dst.blksize
  atime := ecIattTimeMerge dst.atime src.atime
  mtime := ecIattTimeMerge dst.mtime src.mtime
  ctime := ecIattTimeMerge dst.ctime src.ctime

/-- `ec_iatt_combine`: what it returns, and the array `dst` after it. -/
def ecIattCombineInto (dst src : ℕ → FullIatt) (count : ℕ) : Bool × (ℕ → FullIatt) :=
  if (List.range count).all fun _ => iattMatches (dst 0).iatt (src 0).iatt then
    (true, Function.update dst 0 ((mergeIatt (src 0))^[count] (dst 0)))
  else (false, dst)

/-! ## What the function is for -/

/-- Two attributes agree. -/
structure Agree (d s : Iatt) : Prop where
  ino : d.ino = s.ino
  uid : d.uid = s.uid
  gid : d.gid = s.gid
  prot : d.prot = s.prot
  type : d.type = s.type
  gfid : d.gfid = s.gfid
  rdev : d.type = .blk ∨ d.type = .chr → d.rdev = s.rdev
  size : d.type = .reg → d.size = s.size

/-- `d'` is what `d` is with `s` merged into it. -/
structure Merged (d s d' : FullIatt) : Prop where
  iatt : d'.iatt = d.iatt
  blocks : d'.blocks = (d.blocks + s.blocks) % 2 ^ 64
  blksize : d'.blksize = max d.blksize s.blksize
  atime : toLex d'.atime = max (toLex d.atime) (toLex s.atime)
  mtime : toLex d'.mtime = max (toLex d.mtime) (toLex s.mtime)
  ctime : toLex d'.ctime = max (toLex d.ctime) (toLex s.ctime)

/-- **All attributes are compared, and all are merged or none.** -/
structure Combines (dst src : ℕ → FullIatt) (count : ℕ) : Prop where
  succeeds : (ecIattCombineInto dst src count).1 = true ↔
    ∀ i < count, Agree (dst i).iatt (src i).iatt
  merged : (ecIattCombineInto dst src count).1 = true →
    ∀ i < count, Merged (dst i) (src i) ((ecIattCombineInto dst src count).2 i)
  unchanged : (ecIattCombineInto dst src count).1 = false →
    (ecIattCombineInto dst src count).2 = dst

variable {dst src : ℕ → FullIatt} {count : ℕ} {d d' s : FullIatt}

/-! ## One comparison and one merge -/

theorem prot_eq_of_stModeFromIa {prot prot' : BitVec 12} {type : IaType}
    (h : stModeFromIa prot type = stModeFromIa prot' type) : prot = prot' := by
  -- the type has no bits below the twelfth
  have low : ∀ p : BitVec 12, stModeFromIa p type % 2 ^ 12 = p.toNat := by
    intro p
    have hbits : type.bits % 2 ^ 12 = 0 := by cases type <;> rfl
    rw [stModeFromIa, Nat.or_mod_two_pow, hbits, Nat.zero_or, Nat.mod_eq_of_lt p.isLt]
  exact BitVec.eq_of_toNat_eq (by rw [← low prot, ← low prot', h])

theorem iattMatches_iff_agree {a b : Iatt} : iattMatches a b = true ↔ Agree a b := by
  rw [iattMatches_iff]
  constructor
  · rintro ⟨ino, uid, gid, rdev, size, mode, gfid⟩
    have type := type_eq_of_stModeFromIa mode
    rw [type] at mode
    exact ⟨ino, uid, gid, prot_eq_of_stModeFromIa mode, type, gfid, rdev, size⟩
  · rintro ⟨ino, uid, gid, prot, type, gfid, rdev, size⟩
    exact ⟨ino, uid, gid, rdev, size, by rw [prot, type], gfid⟩

/-- `ec_iatt_time_merge` keeps the later time. -/
theorem ecIattTimeMerge_eq (a b : ℕ × ℕ) :
    toLex (ecIattTimeMerge a b) = max (toLex a) (toLex b) := by
  have hlt : a.1 < b.1 ∨ a.1 = b.1 ∧ a.2 < b.2 ↔ toLex a < toLex b := Prod.Lex.toLex_lt_toLex.symm
  rw [ecIattTimeMerge]
  split
  · next h => rw [max_eq_right (hlt.mp h).le]
  · next h => rw [max_eq_left (le_of_not_gt (mt hlt.mpr h))]

theorem merged_mergeIatt (s d : FullIatt) : Merged d s (mergeIatt s d) where
  iatt := rfl
  blocks := rfl
  blksize := by
    change (if d.blksize < s.blksize then s.blksize else d.blksize) = _
    split <;> omega
  atime := ecIattTimeMerge_eq _ _
  mtime := ecIattTimeMerge_eq _ _
  ctime := ecIattTimeMerge_eq _ _

/-- Merging the same attributes again adds their blocks and changes nothing else. -/
theorem iterate_mergeIatt (s d : FullIatt) (n : ℕ) :
    (mergeIatt s)^[n + 1] d
      = { mergeIatt s d with blocks := (d.blocks + (n + 1) * s.blocks) % 2 ^ 64 } := by
  have htime : ∀ a b : ℕ × ℕ, ecIattTimeMerge (ecIattTimeMerge a b) b = ecIattTimeMerge a b := by
    intro a b
    have hlater := (ecIattTimeMerge_eq (ecIattTimeMerge a b) b).trans
      (by rw [ecIattTimeMerge_eq, max_assoc, max_self, ← ecIattTimeMerge_eq])
    exact toLex_inj.mp hlater
  have hsize : ∀ a b : ℕ, (if (if a < b then b else a) < b then b else if a < b then b else a)
      = if a < b then b else a := by
    intro a b
    split_ifs <;> omega
  induction n with
  | zero =>
      rw [zero_add, Function.iterate_one, one_mul]
      rfl
  | succ n ih =>
      rw [Function.iterate_succ_apply', ih]
      refine FullIatt.ext rfl ?_ ?_ (htime _ _) (htime _ _) (htime _ _)
      · change ((d.blocks + (n + 1) * s.blocks) % 2 ^ 64 + s.blocks) % 2 ^ 64 = _
        rw [Nat.mod_add_mod]
        congr 1
        ring
      · exact hsize _ _

/-- Merging `n + 1` times is merging once when the blocks that are added too often vanish. -/
theorem merged_iterate_iff (s d : FullIatt) (n : ℕ) :
    Merged d s ((mergeIatt s)^[n + 1] d) ↔ 2 ^ 64 ∣ n * s.blocks := by
  have hmerged := merged_mergeIatt s d
  have hblocks : (d.blocks + (n + 1) * s.blocks) % 2 ^ 64 = (d.blocks + s.blocks) % 2 ^ 64 ↔
      2 ^ 64 ∣ n * s.blocks := by
    have hsum : d.blocks + (n + 1) * s.blocks = d.blocks + s.blocks + n * s.blocks := by ring
    rw [hsum]
    rw [eq_comm]
    refine (Nat.modEq_iff_dvd' (Nat.le_add_right _ _)).trans ?_
    rw [Nat.add_sub_cancel_left]
  rw [iterate_mergeIatt, ← hblocks]
  exact ⟨fun h => h.blocks, fun h =>
    ⟨hmerged.iatt, h, hmerged.blksize, hmerged.atime, hmerged.mtime, hmerged.ctime⟩⟩

/-! ## The loops -/

/-- What the function returns, by the comparison of the answers. -/
theorem ecIattCombineInto_fst : (ecIattCombineInto dst src count).1
    = ecIattCombine (fun i => (dst i).iatt) (fun i => (src i).iatt) count := by
  rw [ecIattCombineInto]
  split
  · next h => exact h.symm
  · next h => exact (Bool.eq_false_of_not_eq_true h).symm

/-- The comparisons, as a whole. -/
theorem ecIattCombineInto_iff :
    (ecIattCombineInto dst src count).1 = true ↔ count = 0 ∨ Agree (dst 0).iatt (src 0).iatt := by
  rw [ecIattCombineInto_fst, ecIattCombine, List.all_eq_true, ← iattMatches_iff_agree]
  constructor
  · intro h
    rcases Nat.eq_zero_or_pos count with hzero | hpos
    · exact .inl hzero
    · exact .inr (h 0 (List.mem_range.mpr hpos))
  · rintro (rfl | h) i hi
    · cases hi
    · exact h

theorem ecIattCombineInto_of_success (h : (ecIattCombineInto dst src count).1 = true) :
    (ecIattCombineInto dst src count).2
      = Function.update dst 0 ((mergeIatt (src 0))^[count] (dst 0)) := by
  rw [ecIattCombineInto] at h ⊢
  split at h
  · next hall => rw [if_pos hall]
  · cases h

theorem ecIattCombineInto_of_failure (h : (ecIattCombineInto dst src count).1 = false) :
    (ecIattCombineInto dst src count).2 = dst := by
  rw [ecIattCombineInto] at h ⊢
  split at h
  · cases h
  · next hall => rw [if_neg hall]

/-- When the function succeeds, the first attributes are merged `count` times and the others are
left alone. -/
theorem merged_iff (h : (ecIattCombineInto dst src (count + 1)).1 = true) :
    (∀ i < count + 1, Merged (dst i) (src i) ((ecIattCombineInto dst src (count + 1)).2 i)) ↔
      2 ^ 64 ∣ count * (src 0).blocks ∧
        ∀ i, 0 < i → i < count + 1 → Merged (dst i) (src i) (dst i) := by
  rw [ecIattCombineInto_of_success h, ← merged_iterate_iff (src 0) (dst 0) count]
  constructor
  · intro hall
    have hfirst := hall 0 (Nat.succ_pos count)
    rw [Function.update_self] at hfirst
    refine ⟨hfirst, fun i hpos hi => ?_⟩
    have hlater := hall i hi
    rwa [Function.update_of_ne hpos.ne'] at hlater
  · rintro ⟨hfirst, hlater⟩ i hi
    rcases Nat.eq_zero_or_pos i with rfl | hpos
    · rwa [Function.update_self]
    · rw [Function.update_of_ne hpos.ne']
      exact hlater i hpos hi

/-- **Exactly when all attributes are combined.** -/
theorem combines_iff (dst src : ℕ → FullIatt) (count : ℕ) :
    Combines dst src count ↔
      count ≤ 1 ∨ ¬ Agree (dst 0).iatt (src 0).iatt ∨
        (∀ i < count, Agree (dst i).iatt (src i).iatt) ∧
          2 ^ 64 ∣ (count - 1) * (src 0).blocks ∧
          ∀ i, 0 < i → i < count → Merged (dst i) (src i) (dst i) := by
  rcases Nat.eq_zero_or_pos count with rfl | hpos
  · refine iff_of_true ⟨?_, ?_, ecIattCombineInto_of_failure⟩ (.inl (Nat.zero_le 1))
    · rw [ecIattCombineInto_iff]
      exact iff_of_true (.inl rfl) fun i hi => absurd hi (Nat.not_lt_zero i)
    · exact fun _ i hi => absurd hi (Nat.not_lt_zero i)
  obtain ⟨n, rfl⟩ : ∃ n, count = n + 1 := ⟨count - 1, by omega⟩
  have hsuccess : (ecIattCombineInto dst src (n + 1)).1 = true ↔
      Agree (dst 0).iatt (src 0).iatt := by
    rw [ecIattCombineInto_iff, or_iff_right (Nat.succ_ne_zero n)]
  rw [Nat.add_sub_cancel]
  by_cases hagree : Agree (dst 0).iatt (src 0).iatt
  · have htrue := hsuccess.mpr hagree
    have hmerged := merged_iff htrue
    constructor
    · intro h
      by_cases hone : n + 1 ≤ 1
      · exact .inl hone
      · exact .inr (.inr ⟨h.succeeds.mp htrue, hmerged.mp (h.merged htrue)⟩)
    · rintro (hone | hnot | ⟨hall, hrest⟩)
      · -- one pair of attributes
        obtain rfl : n = 0 := by omega
        refine ⟨iff_of_true htrue fun i hi => ?_, fun _ => hmerged.mpr ⟨?_, fun i hi hi' => ?_⟩,
          ecIattCombineInto_of_failure⟩
        · obtain rfl : i = 0 := by omega
          exact hagree
        · rw [zero_mul]
          exact dvd_zero _
        · omega
      · exact absurd hagree hnot
      · exact ⟨iff_of_true htrue hall, fun _ => hmerged.mpr hrest, ecIattCombineInto_of_failure⟩
  · have hfalse := mt hsuccess.mp hagree
    refine iff_of_true ⟨iff_of_false hfalse fun h => hagree (h 0 (Nat.succ_pos n)),
      fun h => absurd h hfalse, ecIattCombineInto_of_failure⟩ (.inr (.inl hagree))

/-- Attributes of a file with an inode number. -/
def regularFile (ino : ℕ) : FullIatt :=
  ⟨⟨ino, 1, .reg, 0o644, 0, 0, 0, 0⟩, 8, 4096, (1, 0), (1, 0), (1, 0)⟩

/-- **Only the first attributes count.**  The second ones have different inode numbers, and the
function succeeds; the blocks of the first are added twice and the second are not merged. -/
theorem second_iatt_ignored :
    let dst := fun i => regularFile (10 + i)
    let src := fun i => regularFile (10 + 2 * i)
    (ecIattCombineInto dst src 2).1 = true ∧ ¬ Agree (dst 1).iatt (src 1).iatt ∧
      ((ecIattCombineInto dst src 2).2 0).blocks = 24 ∧
      (ecIattCombineInto dst src 2).2 1 = dst 1 ∧ ¬ Combines dst src 2 := by
  intro dst src
  have htrue : (ecIattCombineInto dst src 2).1 = true := by decide
  have hdiffers : ¬ Agree (dst 1).iatt (src 1).iatt := fun h => absurd h.ino (by decide)
  exact ⟨htrue, hdiffers, by decide, by decide, fun h =>
    hdiffers (h.succeeds.mp htrue 1 Nat.one_lt_two)⟩

end GlusterFS.Ec
