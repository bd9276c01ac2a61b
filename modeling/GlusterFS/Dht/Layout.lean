import GlusterFS.Lib.Tiling

/-!
# The layout of a new directory

The distribute translator gives every directory a layout: each subvolume holds the names
whose hash lies in its range.  `dht_selfheal_layout_new_directory` computes the ranges.  It
counts the subvolumes to use (`dht_get_layout_count`), adds up their sizes in the order of
the list, divides the hash space by the sum, or by the number of subvolumes it has seen,
and hands the ranges out in another order, rotated by a hash of the directory.

This module embeds these functions and `dht_layout_search`, all in 32-bit arithmetic, and
settles when the ranges tile the hash space.  They do not always: the first pass stops at
a subvolume whose size is unknown, so that the divisor counts too few subvolumes or is
zero; and when not all subvolumes are used, the two passes look at different ones.
`SpreadSafe` is the exact condition.
-/

namespace GlusterFS.Dht

/-! ## The model -/

def enoent : ℤ := 2
def einval : ℤ := 22
def enospc : ℤ := 28

/-- An entry of `layout->list`. -/
structure LayoutEntry where
  err : ℤ
  start : ℕ
  stop : ℕ
  xlator : ℕ
  deriving DecidableEq, Repr

/-- `dht_layout_t`. -/
structure DhtLayout where
  spreadCnt : ℤ
  list : List LayoutEntry
  deriving DecidableEq, Repr

/-- `dht_conf_t`, with the children of the translator; `duStats` are the `chunks` of
`du_stats`. -/
structure DhtConf where
  decommissionedBricks : List (Option ℕ)
  children : List ℕ
  duStats : Option (List ℕ)
  doWeighting : Bool
  deriving DecidableEq, Repr

/-- The inner loop of `dht_get_layout_count`. -/
def decommissioned (conf : DhtConf) (entry : LayoutEntry) : Bool :=
  conf.decommissionedBricks.any fun brick => decide (brick = some entry.xlator)

/-- The errors that do not keep an entry from being given a range. -/
def usable (err : ℤ) : Bool := decide (err = -1) || decide (err = 0) || decide (err = enoent)

/-- A decommissioned entry is marked with `EINVAL`. -/
def mark (conf : DhtConf) (entry : LayoutEntry) : LayoutEntry :=
  if decommissioned conf entry then { entry with err := einval } else entry

/-- An error is replaced by `-1`: the entry is to be given a range. -/
def reset (err : ℤ) (entry : LayoutEntry) : LayoutEntry :=
  if entry.err = err then { entry with err := -1 } else entry

/-- `dht_get_layout_count`. -/
def dhtGetLayoutCount (conf : DhtConf) (layout : DhtLayout) (newLayout : Bool) :
    DhtLayout × ℤ :=
  let marked := layout.list.map (mark conf)
  let count := marked.countP fun e => usable e.err
  let list := marked.map (reset 0)
  let (list, count) :=
    -- no subvolume has enough space, but can't stop directory creation
    if count = 0 ∨ newLayout = false then
      (list.map (reset enospc), count + list.countP fun e => decide (e.err = enospc))
    else (list, count)
  ({ layout with list },
    if layout.spreadCnt ≠ 0 ∧ layout.spreadCnt ≤ count then layout.spreadCnt
    else if count ≠ 0 then count else 1)

/-- `dht_get_chunks_from_xl`. -/
def dhtGetChunksFromXl (conf : DhtConf) (child : ℕ) : ℕ :=
  match conf.duStats with
  | none => 0
  | some stats =>
      match conf.children.findIdx? fun xlator => decide (xlator = child) with
      | some index => stats.getD index 0
      | none => 0

/-- The entries that both loops do not skip: `dht_get_layout_count` has left `-1` or
`ENOENT` in them. -/
def wanted (entry : LayoutEntry) : Bool :=
  decide (entry.err = -1) || decide (entry.err = enoent)

/-- The first loop of `dht_selfheal_layout_new_directory`: whether no size was zero, the total
size and the number of bricks seen. -/
def sizeLoop (conf : DhtConf) (bricksToUse : ℤ) : List LayoutEntry → ℕ → ℕ → Bool × ℕ × ℕ
  | [], totalSize, bricksUsed => (true, totalSize, bricksUsed)
  | entry :: rest, totalSize, bricksUsed =>
      if wanted entry then
        let currSize := dhtGetChunksFromXl conf entry.xlator
        if currSize = 0 then (false, totalSize, bricksUsed)
        else if bricksUsed + 1 ≥ bricksToUse then
          (true, (totalSize + currSize) % 2 ^ 32, bricksUsed + 1)
        else sizeLoop conf bricksToUse rest ((totalSize + currSize) % 2 ^ 32) (bricksUsed + 1)
      else sizeLoop conf bricksToUse rest totalSize bricksUsed

/-- Write the range of an entry. -/
def setRange (list : List LayoutEntry) (i start stop : ℕ) : List LayoutEntry :=
  list.modify i fun e => { e with start, stop }

/-- The size that the second loop takes for an entry. -/
def currSize (conf : DhtConf) (weightBySize : Bool) (entry : LayoutEntry) : ℕ :=
  if weightBySize then dhtGetChunksFromXl conf entry.xlator else 1

/-- The second loop, over the indices in their rotated order.  The second component lists the
entries that have been given a range. -/
def rangeLoop (conf : DhtConf) (weightBySize : Bool) (chunk : ℕ) (bricksToUse : ℤ) :
    List ℕ → ℕ → ℕ → List LayoutEntry → List LayoutEntry × List ℕ
  | [], _, _, list => (list, [])
  | i :: rest, start, bricksUsed, list =>
      match list[i]? with
      | none => (list, [])
      | some entry =>
          if wanted entry ∧ currSize conf weightBySize entry ≠ 0 then
            let width := chunk * currSize conf weightBySize entry % 2 ^ 32
            if bricksUsed + 1 ≥ bricksToUse then (setRange list i start 0xffffffff, [i])
            else
              let result := rangeLoop conf weightBySize chunk bricksToUse rest
                ((start + width) % 2 ^ 32) (bricksUsed + 1)
                (setRange list i start ((start + width + (2 ^ 32 - 1)) % 2 ^ 32))
              (result.1, i :: result.2)
          else rangeLoop conf weightBySize chunk bricksToUse rest start bricksUsed list

/-- `dht_selfheal_layout_alloc_start`; the hash is absent when it cannot be computed. -/
def dhtSelfhealLayoutAllocStart (hashval : Option ℕ) (cnt : ℕ) : ℕ :=
  match hashval with
  | some hash => hash % cnt
  | none => 0

/-- The values of `i` in the second loop. -/
def rotation (cnt startSubvol : ℕ) : List ℕ :=
  (List.range cnt).map fun realI => (realI + startSubvol) % cnt

/-- `dht_selfheal_layout_new_directory`, with the entries that it has given a range; `none` is
a division by zero. -/
def dhtSelfhealLayoutNewDirectory (conf : DhtConf) (layout : DhtLayout) (hashval : Option ℕ) :
    Option (DhtLayout × List ℕ) :=
  let (layout, bricksToUse) := dhtGetLayoutCount conf layout true
  let (noZero, totalSize, bricksUsed) := sizeLoop conf bricksToUse layout.list 0 0
  let weightBySize := conf.doWeighting && noZero
  let divisor := if weightBySize then totalSize else bricksUsed
  if divisor = 0 then none
  else
    let chunk := 0xffffffff / divisor
    let startSubvol := dhtSelfhealLayoutAllocStart hashval layout.list.length
    -- DHT_RESET_LAYOUT_RANGE
    let list := layout.list.map fun e => { e with start := 0, stop := 0 }
    let result := rangeLoop conf weightBySize chunk bricksToUse
      (rotation list.length startSubvol) 0 0 list
    some ({ layout with list := result.1 }, result.2)

/-- `dht_layout_search`: the index of the entry whose subvolume it returns. -/
def dhtLayoutSearch (list : List LayoutEntry) (hash : ℕ) : Option ℕ :=
  list.findIdx? fun e => decide (e.start ≤ hash) && decide (hash ≤ e.stop)

/-! ## What the layout is for -/

def startOf (list : List LayoutEntry) (i : ℕ) : ℕ := (list[i]?.map (·.start)).getD 0
def stopOf (list : List LayoutEntry) (i : ℕ) : ℕ := (list[i]?.map (·.stop)).getD 0

/-- The entries in `given` share the hash space between them, all others have the empty
range, and every hash leads to the entry that has it. -/
structure Spread (count : ℤ) (list : List LayoutEntry) (given : List ℕ) : Prop where
  number : (given.length : ℤ) = count
  inside : ∀ i ∈ given, i < list.length
  proper : ∀ i ∈ given, startOf list i ≤ stopOf list i ∧ stopOf list i < 2 ^ 32
  disjoint : given.Pairwise fun i j => stopOf list i < startOf list j ∨ stopOf list j < startOf list i
  cover : ∀ hash < 2 ^ 32, ∃ i ∈ given, startOf list i ≤ hash ∧ hash ≤ stopOf list i
  rest : ∀ i < list.length, i ∉ given → startOf list i = 0 ∧ stopOf list i = 0
  found : ∀ hash < 2 ^ 32, ∃ i ∈ given, (startOf list i ≤ hash ∧ hash ≤ stopOf list i) ∧
    dhtLayoutSearch list hash = some i

/-! ## The condition -/

section Condition

variable (conf : DhtConf) (layout : DhtLayout) (hashval : Option ℕ)

/-- Only subvolumes without space are left. -/
def noneUsable : Bool := layout.list.all fun e => decommissioned conf e || !usable e.err

/-- An entry that can be given a range: it is not decommissioned, and its directory is there or
can be made; without any such entry, one that has no space left. -/
def assignable (entry : LayoutEntry) : Bool :=
  !decommissioned conf entry &&
    (usable entry.err || (decide (entry.err = enospc) && noneUsable conf layout))

/-- The number of subvolumes to use: the spread count, when that many can be used. -/
def spreadCount : ℤ :=
  let available := layout.list.countP (assignable conf layout)
  if layout.spreadCnt ≠ 0 ∧ layout.spreadCnt ≤ available then layout.spreadCnt
  else if available ≠ 0 then available else 1

/-- The sizes of the first assignable entries in the order of the list, as many as are to be
used. -/
def firstSizes : List ℕ :=
  ((layout.list.filter (assignable conf layout)).take (spreadCount conf layout).toNat).map
    fun e => dhtGetChunksFromXl conf e.xlator

/-- The sizes count when weighting is on and none of them is zero. -/
def weighted : Bool := conf.doWeighting && (firstSizes conf layout).all fun size => decide (size ≠ 0)

/-- What the hash space is divided by: the sum of the sizes in 32 bits, or the number of
sizes before the first zero. -/
def shares : ℕ :=
  if weighted conf layout then (firstSizes conf layout).sum % 2 ^ 32
  else ((firstSizes conf layout).takeWhile fun size => decide (size ≠ 0)).length

/-- The number of shares of the entry at an index. -/
def shareAt (i : ℕ) : ℕ := (layout.list[i]?.map (currSize conf (weighted conf layout))).getD 0

/-- The entries that can have a range, in the order of the rotation. -/
def candidates : List ℕ :=
  (rotation layout.list.length (dhtSelfhealLayoutAllocStart hashval layout.list.length)).filter
    fun i => (layout.list[i]?).any (assignable conf layout) && decide (shareAt conf layout i ≠ 0)

/-- The first of them, as many as are to be used. -/
def chosen : List ℕ := (candidates conf layout hashval).take (spreadCount conf layout).toNat

/-- The widths of the ranges of all chosen entries but the last. -/
def widths : List ℕ :=
  ((candidates conf layout hashval).take ((spreadCount conf layout).toNat - 1)).map fun i =>
    0xffffffff / shares conf layout * shareAt conf layout i % 2 ^ 32

/-- The condition under which a new layout tiles the hash space and the search finds its way
in it:
* the spread count is not negative, and there are as many candidates as are to be used;
* there is something to divide by;
* the ranges of all chosen entries but the last have a width and fit into the hash space;
* no entry without a range stands before the entry that is chosen first: its empty range
  contains the hash zero. -/
structure SpreadSafe : Prop where
  positive : 0 < spreadCount conf layout
  enough : spreadCount conf layout ≤ (candidates conf layout hashval).length
  divisor : shares conf layout ≠ 0
  wide : ∀ w ∈ widths conf layout hashval, 0 < w
  fits : (widths conf layout hashval).sum < 2 ^ 32
  first : ∀ p, (chosen conf layout hashval).head? = some p → ∀ i < p,
    i ∈ chosen conf layout hashval

end Condition

/-! ## Counting the subvolumes -/

section Count

variable (conf : DhtConf) (layout : DhtLayout)

/-- The error that `dht_get_layout_count` leaves in an entry. -/
def preparedErr (e : LayoutEntry) : ℤ :=
  if decommissioned conf e then einval
  else if e.err = 0 then -1
  else if noneUsable conf layout ∧ e.err = enospc then -1
  else e.err

/-- An entry after `dht_get_layout_count`. -/
def prepare (e : LayoutEntry) : LayoutEntry := { e with err := preparedErr conf layout e }

theorem wanted_prepare (e : LayoutEntry) :
    wanted (prepare conf layout e) = assignable conf layout e := by
  simp only [wanted, prepare, preparedErr, assignable]
  by_cases hgone : decommissioned conf e
  · simp [hgone, einval, enoent]
  · by_cases hzero : e.err = 0
    · simp [hgone, hzero, usable]
    · by_cases hspace : e.err = enospc
      · by_cases hnone : noneUsable conf layout <;>
          simp [hgone, hspace, hnone, usable, enospc, enoent]
      · simp [hgone, hzero, hspace, usable]

theorem reset_mark (hnone : noneUsable conf layout = false) (e : LayoutEntry) :
    reset 0 (mark conf e) = prepare conf layout e := by
  by_cases hgone : decommissioned conf e
  · simp [reset, mark, prepare, preparedErr, hgone, einval]
  · by_cases hzero : e.err = 0
    · simp [reset, mark, prepare, preparedErr, hgone, hzero]
    · simp [reset, mark, prepare, preparedErr, hgone, hzero, hnone]

theorem reset_reset_mark (hnone : noneUsable conf layout = true) (e : LayoutEntry) :
    reset enospc (reset 0 (mark conf e)) = prepare conf layout e := by
  by_cases hgone : decommissioned conf e
  · simp [reset, mark, prepare, preparedErr, hgone, einval, enospc]
  · by_cases hzero : e.err = 0
    · simp [reset, mark, prepare, preparedErr, hgone, hzero, enospc]
    · by_cases hspace : e.err = enospc
      · have hne : enospc ≠ 0 := by decide
        simp [reset, mark, prepare, preparedErr, hgone, hspace, hnone, hne]
      · simp [reset, mark, prepare, preparedErr, hgone, hzero, hspace]

/-- The number of usable entries. -/
theorem countP_mark : (layout.list.map (mark conf)).countP (fun e => usable e.err) =
    layout.list.countP fun e => !decommissioned conf e && usable e.err := by
  rw [List.countP_map]
  refine List.countP_congr fun e _ => ?_
  by_cases hgone : decommissioned conf e
  · simp [mark, hgone, usable, einval, enoent]
  · simp [mark, hgone]

theorem countP_usable_eq_zero_iff :
    layout.list.countP (fun e => !decommissioned conf e && usable e.err) = 0 ↔
      noneUsable conf layout = true := by
  simp only [List.countP_eq_zero, noneUsable, List.all_eq_true]
  refine forall₂_congr fun e _ => ?_
  cases decommissioned conf e <;> simp

theorem countP_assignable (hnone : noneUsable conf layout = false) :
    layout.list.countP (fun e => !decommissioned conf e && usable e.err) =
      layout.list.countP (assignable conf layout) := by
  refine List.countP_congr fun e _ => ?_
  simp [assignable, hnone]

theorem countP_assignable_full (hnone : noneUsable conf layout = true) :
    ((layout.list.map (mark conf)).map (reset 0)).countP (fun e => decide (e.err = enospc)) =
      layout.list.countP (assignable conf layout) := by
  rw [List.map_map, List.countP_map]
  refine List.countP_congr fun e he => ?_
  have hunusable := List.all_eq_true.mp hnone e he
  by_cases hgone : decommissioned conf e
  · simp [reset, mark, assignable, hgone, einval, enospc]
  · by_cases hzero : e.err = 0
    · simp [hgone, hzero, usable] at hunusable
    · have husable : usable e.err = false := by simpa [hgone] using hunusable
      simp [reset, mark, assignable, hgone, hzero, hnone, husable]

theorem dhtGetLayoutCount_eq : dhtGetLayoutCount conf layout true =
    ({ layout with list := layout.list.map (prepare conf layout) },
      spreadCount conf layout) := by
  simp only [dhtGetLayoutCount, countP_mark, Bool.true_eq_false, or_false, spreadCount]
  cases hnone : noneUsable conf layout with
  | true =>
      have hlist : ((layout.list.map (mark conf)).map (reset 0)).map (reset enospc) =
          layout.list.map (prepare conf layout) := by
        rw [List.map_map, List.map_map]
        exact List.map_congr_left fun e _ => reset_reset_mark conf layout hnone e
      rw [(countP_usable_eq_zero_iff conf layout).mpr hnone, if_pos rfl, hlist,
        countP_assignable_full conf layout hnone, Nat.zero_add]
  | false =>
      have hlist : (layout.list.map (mark conf)).map (reset 0) =
          layout.list.map (prepare conf layout) := by
        rw [List.map_map]
        exact List.map_congr_left fun e _ => reset_mark conf layout hnone e
      have hpos : layout.list.countP (fun e => !decommissioned conf e && usable e.err) ≠ 0 := by
        rw [Ne, countP_usable_eq_zero_iff, hnone]
        exact Bool.false_ne_true
      rw [if_neg hpos, hlist, countP_assignable conf layout hnone]

end Count

/-! ## The two loops -/

section Loops

variable {conf : DhtConf}

/-- The sizes that the first loop looks at. -/
def seenSizes (conf : DhtConf) (entries : List LayoutEntry) (left : ℕ) : List ℕ :=
  ((entries.filter wanted).take left).map fun e => dhtGetChunksFromXl conf e.xlator

theorem sizeLoop_eq (entries : List LayoutEntry) {left totalSize bricksUsed : ℕ}
    (hleft : 0 < left) (htotal : totalSize < 2 ^ 32) :
    sizeLoop conf ((bricksUsed + left : ℕ) : ℤ) entries totalSize bricksUsed =
      ((seenSizes conf entries left).all fun size => decide (size ≠ 0),
        (totalSize + ((seenSizes conf entries left).takeWhile fun size =>
          decide (size ≠ 0)).sum) % 2 ^ 32,
        bricksUsed + ((seenSizes conf entries left).takeWhile fun size =>
          decide (size ≠ 0)).length) := by
  induction entries generalizing left totalSize bricksUsed with
  | nil =>
      simp only [sizeLoop, seenSizes, List.filter_nil, List.take_nil, List.map_nil, List.all_nil,
        List.takeWhile_nil, List.sum_nil, List.length_nil, Nat.add_zero]
      rw [Nat.mod_eq_of_lt htotal]
  | cons e entries ih =>
      rw [sizeLoop]
      by_cases hwanted : wanted e
      · obtain ⟨left, rfl⟩ := Nat.exists_eq_succ_of_ne_zero hleft.ne'
        have hseen : seenSizes conf (e :: entries) (left + 1) =
            dhtGetChunksFromXl conf e.xlator :: seenSizes conf entries left := by
          simp [seenSizes, hwanted]
        rw [if_pos hwanted, hseen]
        by_cases hzero : dhtGetChunksFromXl conf e.xlator = 0
        · simp [hzero]
          omega
        · rw [if_neg hzero]
          rcases Nat.eq_zero_or_pos left with rfl | hpos
          · simp [seenSizes, hzero]
          · have hmore : ¬ ((bricksUsed : ℤ) + 1 ≥ ((bricksUsed + (left + 1) : ℕ) : ℤ)) := by
              push_cast
              omega
            have hnext := @ih left ((totalSize + dhtGetChunksFromXl conf e.xlator) % 2 ^ 32)
              (bricksUsed + 1) hpos (Nat.mod_lt _ (by norm_num))
            rw [if_neg hmore, show bricksUsed + left.succ = bricksUsed + 1 + left by omega, hnext]
            simp [hzero, Nat.add_assoc, Nat.add_comm 1]
      · have hseen : seenSizes conf (e :: entries) left = seenSizes conf entries left := by
          simp [seenSizes, hwanted]
        rw [if_neg hwanted, hseen, ih hleft htotal]

variable {list : List LayoutEntry} {weightBySize : Bool}

/-- Writing a range changes nothing else. -/
theorem map_setRange {β : Type*} (f : LayoutEntry → β)
    (hf : ∀ e start stop, f { e with start, stop } = f e) (i start stop j : ℕ) :
    ((setRange list i start stop)[j]?).map f = list[j]?.map f := by
  rw [setRange, List.getElem?_modify]
  split
  · cases list[j]? with
    | none => rfl
    | some e => simp [hf]
  · simp

/-- An entry that the second loop gives a range, as long as there are bricks to use. -/
def serves (conf : DhtConf) (weightBySize : Bool) (entry : LayoutEntry) : Bool :=
  wanted entry && decide (currSize conf weightBySize entry ≠ 0)

/-- The entry at an index can be given a range. -/
def servesAt (conf : DhtConf) (weightBySize : Bool) (list : List LayoutEntry) (i : ℕ) : Bool :=
  (list[i]?.map (serves conf weightBySize)).getD false

/-- The width of the range of the entry at an index. -/
def widthAt (conf : DhtConf) (weightBySize : Bool) (chunk : ℕ) (list : List LayoutEntry)
    (i : ℕ) : ℕ :=
  chunk * (list[i]?.map (currSize conf weightBySize)).getD 0 % 2 ^ 32

@[simp] theorem servesAt_setRange (i start stop : ℕ) :
    servesAt conf weightBySize (setRange list i start stop) = servesAt conf weightBySize list := by
  funext j
  rw [servesAt, map_setRange (serves conf weightBySize) fun _ _ _ => rfl, servesAt]

@[simp] theorem widthAt_setRange (chunk i start stop : ℕ) :
    widthAt conf weightBySize chunk (setRange list i start stop) =
      widthAt conf weightBySize chunk list := by
  funext j
  rw [widthAt, map_setRange (currSize conf weightBySize) fun _ _ _ => rfl, widthAt]

@[simp] theorem length_setRange (i start stop : ℕ) :
    (setRange list i start stop).length = list.length := by
  simp [setRange]

theorem getElem?_setRange_of_ne {i j : ℕ} (h : j ≠ i) (start stop : ℕ) :
    (setRange list i start stop)[j]? = list[j]? := by
  simp [setRange, h.symm]

theorem range_setRange {i : ℕ} (h : i < list.length) (start stop : ℕ) :
    (startOf (setRange list i start stop) i, stopOf (setRange list i start stop) i) =
      (start, stop) := by
  simp [startOf, stopOf, setRange, List.getElem?_eq_getElem h]

variable {chunk : ℕ} {bricksToUse : ℤ}

theorem rangeLoop_length (order : List ℕ) (start bricksUsed : ℕ) (list : List LayoutEntry) :
    (rangeLoop conf weightBySize chunk bricksToUse order start bricksUsed list).1.length =
      list.length := by
  induction order generalizing start bricksUsed list with
  | nil => rfl
  | cons i order ih =>
      rw [rangeLoop]
      split
      · rfl
      · split
        · split
          · exact length_setRange i _ _
          · exact (ih _ _ _).trans (length_setRange i _ _)
        · exact ih _ _ _

/-- Entries that are given no range stay as they are. -/
theorem rangeLoop_other {order : List ℕ} {j start bricksUsed : ℕ} {list : List LayoutEntry}
    (hj : j ∉ (rangeLoop conf weightBySize chunk bricksToUse order start bricksUsed list).2) :
    (rangeLoop conf weightBySize chunk bricksToUse order start bricksUsed list).1[j]? =
      list[j]? := by
  induction order generalizing start bricksUsed list with
  | nil => rfl
  | cons i order ih =>
      rw [rangeLoop] at hj ⊢
      cases hentry : list[i]? with
      | none => rfl
      | some entry =>
          simp only [hentry] at hj ⊢
          split
          · next hserves =>
            rw [if_pos hserves] at hj
            split
            · next hlast =>
              rw [if_pos hlast] at hj
              exact getElem?_setRange_of_ne (List.ne_of_not_mem_cons hj) _ _
            · next hlast =>
              rw [if_neg hlast] at hj
              rw [ih (List.not_mem_of_not_mem_cons hj)]
              exact getElem?_setRange_of_ne (List.ne_of_not_mem_cons hj) _ _
          · next hserves =>
            rw [if_neg hserves] at hj
            exact ih hj

/-- One round of the second loop, when `left` bricks are still to be used. -/
theorem rangeLoop_cons {i : ℕ} (hi : i < list.length) (order : List ℕ) (left start bricksUsed : ℕ) :
    rangeLoop conf weightBySize chunk ((bricksUsed + (left + 1) : ℕ) : ℤ) (i :: order) start
        bricksUsed list =
      if servesAt conf weightBySize list i then
        if left = 0 then (setRange list i start 0xffffffff, [i])
        else
          let result := rangeLoop conf weightBySize chunk ((bricksUsed + 1 + left : ℕ) : ℤ) order
            ((start + widthAt conf weightBySize chunk list i) % 2 ^ 32) (bricksUsed + 1)
            (setRange list i start
              ((start + widthAt conf weightBySize chunk list i + (2 ^ 32 - 1)) % 2 ^ 32))
          (result.1, i :: result.2)
      else rangeLoop conf weightBySize chunk ((bricksUsed + (left + 1) : ℕ) : ℤ) order start
        bricksUsed list := by
  have hentry := List.getElem?_eq_getElem hi
  have hlast : (bricksUsed : ℤ) + 1 ≥ ((bricksUsed + (left + 1) : ℕ) : ℤ) ↔ left = 0 := by
    push_cast
    omega
  rw [rangeLoop, hentry]
  simp only [servesAt, widthAt, hentry, Option.map_some, Option.getD_some, serves, hlast,
    Bool.and_eq_true, decide_eq_true_eq, Nat.add_assoc, Nat.add_comm 1 left]

variable {left bricksUsed : ℕ} {order : List ℕ}

/-- The second loop gives ranges to the next entries that can have one, as many as are still to
be used. -/
theorem rangeLoop_given (horder : ∀ i ∈ order, i < list.length) (start : ℕ) :
    (rangeLoop conf weightBySize chunk ((bricksUsed + (left + 1) : ℕ) : ℤ) order start bricksUsed
        list).2 = (order.filter (servesAt conf weightBySize list)).take (left + 1) := by
  induction order generalizing left bricksUsed start list with
  | nil => simp [rangeLoop]
  | cons i order ih =>
      have horder' := fun j hj => horder j (List.mem_cons_of_mem i hj)
      rw [rangeLoop_cons (horder i List.mem_cons_self), List.filter_cons]
      cases servesAt conf weightBySize list i with
      | false => exact ih horder' start
      | true =>
          cases left with
          | zero => rfl
          | succ left =>
              simp only [if_true, Nat.succ_ne_zero, if_false, List.take_succ_cons]
              rw [ih (fun j hj => (horder' j hj).trans_eq (length_setRange i _ _).symm),
                servesAt_setRange]

/-- When there are enough such entries, they get consecutive ranges. -/
theorem rangeLoop_ranges (horder : ∀ i ∈ order, i < list.length) (hnodup : order.Nodup)
    (start : ℕ) (henough : left < (order.filter (servesAt conf weightBySize list)).length) :
    let result := rangeLoop conf weightBySize chunk ((bricksUsed + (left + 1) : ℕ) : ℤ) order start
      bricksUsed list
    result.2.map (fun i => (startOf result.1 i, stopOf result.1 i)) =
      Tiling.ranges (2 ^ 32) start (((order.filter (servesAt conf weightBySize list)).take left).map
        (widthAt conf weightBySize chunk list)) := by
  induction order generalizing left bricksUsed start list with
  | nil => simp at henough
  | cons i order ih =>
      have hi := horder i List.mem_cons_self
      have horder' := fun j hj => horder j (List.mem_cons_of_mem i hj)
      obtain ⟨hnew, hnodup'⟩ := List.nodup_cons.mp hnodup
      simp only
      rw [rangeLoop_cons hi]
      rw [List.filter_cons] at henough ⊢
      cases hserves : servesAt conf weightBySize list i with
      | false =>
          rw [hserves] at henough
          exact ih horder' hnodup' start henough
      | true =>
          rw [hserves] at henough
          cases left with
          | zero =>
              simp [Tiling.ranges, range_setRange hi]
          | succ left =>
              simp only [if_true, List.length_cons, Nat.add_lt_add_iff_right] at henough
              simp only [if_true, Nat.succ_ne_zero, if_false, List.take_succ_cons, List.map_cons,
                Tiling.ranges]
              -- the entry keeps its range, since the loop does not come back to it
              refine List.cons_eq_cons.mpr ⟨?_, ?_⟩
              · have hgiven : i ∉ (rangeLoop conf weightBySize chunk
                    ((bricksUsed + 1 + (left + 1) : ℕ) : ℤ) order
                    ((start + widthAt conf weightBySize chunk list i) % 2 ^ 32) (bricksUsed + 1)
                    (setRange list i start ((start + widthAt conf weightBySize chunk list i +
                      (2 ^ 32 - 1)) % 2 ^ 32))).2 := by
                  rw [rangeLoop_given fun j hj =>
                    (horder' j hj).trans_eq (length_setRange i _ _).symm]
                  exact fun hmem => hnew (List.mem_of_mem_filter (List.mem_of_mem_take hmem))
                rw [startOf, stopOf, rangeLoop_other hgiven]
                exact range_setRange hi _ _
              · have hrest := @ih (setRange list i start
                    ((start + widthAt conf weightBySize chunk list i + (2 ^ 32 - 1)) % 2 ^ 32))
                  left (bricksUsed + 1)
                  (fun j hj => (horder' j hj).trans_eq (length_setRange i _ _).symm) hnodup'
                  ((start + widthAt conf weightBySize chunk list i) % 2 ^ 32)
                  (by rw [servesAt_setRange]; exact henough)
                rwa [servesAt_setRange, widthAt_setRange] at hrest

end Loops

/-! ## The search -/

theorem dhtLayoutSearch_eq_some_iff {list : List LayoutEntry} {hash i : ℕ} :
    dhtLayoutSearch list hash = some i ↔ i < list.length ∧
      (startOf list i ≤ hash ∧ hash ≤ stopOf list i) ∧
      ∀ j < i, ¬ (startOf list j ≤ hash ∧ hash ≤ stopOf list j) := by
  rw [dhtLayoutSearch, List.findIdx?_eq_some_iff_getElem]
  constructor
  · rintro ⟨hi, hmatch, hbefore⟩
    refine ⟨hi, ?_, fun j hj => ?_⟩
    · simpa [startOf, stopOf, List.getElem?_eq_getElem hi] using hmatch
    · have := hbefore j hj
      simpa [startOf, stopOf, List.getElem?_eq_getElem (hj.trans hi)] using this
  · rintro ⟨hi, hmatch, hbefore⟩
    refine ⟨hi, ?_, fun j hj => ?_⟩
    · simpa [startOf, stopOf, List.getElem?_eq_getElem hi] using hmatch
    · have := hbefore j hj
      simpa [startOf, stopOf, List.getElem?_eq_getElem (hj.trans hi)] using this

/-- What the ranges are, apart from the search. -/
structure Shared (list : List LayoutEntry) (given : List ℕ) : Prop where
  inside : ∀ i ∈ given, i < list.length
  tiles : Tiling.Tiles (2 ^ 32) 0 (given.map fun i => (startOf list i, stopOf list i))
  rest : ∀ i < list.length, i ∉ given → startOf list i = 0 ∧ stopOf list i = 0

theorem Spread.shared {count : ℤ} {list : List LayoutEntry} {given : List ℕ}
    (h : Spread count list given) : Shared list given := by
  refine ⟨h.inside, ⟨fun r hr => ?_, List.pairwise_map.mpr h.disjoint, fun x _ hx => ?_⟩, h.rest⟩
  · obtain ⟨i, hi, rfl⟩ := List.mem_map.mp hr
    exact h.proper i hi
  · obtain ⟨i, hi, hcover⟩ := h.cover x hx
    exact ⟨_, List.mem_map_of_mem hi, hcover⟩

namespace Shared

variable {list : List LayoutEntry} {given : List ℕ}

theorem apart (h : Shared list given) :
    given.Pairwise fun i j => stopOf list i < startOf list j ∨ stopOf list j < startOf list i :=
  List.pairwise_map.mp h.tiles.apart

/-- No hash is in two ranges. -/
theorem unique (h : Shared list given) {i j hash : ℕ} (hi : i ∈ given) (hj : j ∈ given)
    (hi' : startOf list i ≤ hash ∧ hash ≤ stopOf list i)
    (hj' : startOf list j ≤ hash ∧ hash ≤ stopOf list j) : i = j := by
  by_contra hne
  have hsymm : Std.Symm fun i j =>
      stopOf list i < startOf list j ∨ stopOf list j < startOf list i :=
    ⟨fun _ _ => Or.symm⟩
  have := List.Pairwise.forall h.apart hi hj hne
  omega

theorem cover (h : Shared list given) {hash : ℕ} (hhash : hash < 2 ^ 32) :
    ∃ i ∈ given, startOf list i ≤ hash ∧ hash ≤ stopOf list i := by
  obtain ⟨r, hr, hcover⟩ := h.tiles.cover hash (Nat.zero_le _) hhash
  obtain ⟨i, hi, rfl⟩ := List.mem_map.mp hr
  exact ⟨i, hi, hcover⟩

/-- The search finds the entry that has the hash for every hash exactly when no entry without
a range stands before the one whose range starts at zero. -/
theorem found_iff (h : Shared list given) {p : ℕ} (hp : p ∈ given) (hzero : startOf list p = 0) :
    (∀ hash < 2 ^ 32, ∃ i ∈ given, (startOf list i ≤ hash ∧ hash ≤ stopOf list i) ∧
      dhtLayoutSearch list hash = some i) ↔ ∀ i < p, i ∈ given := by
  have hp' : startOf list p ≤ 0 ∧ 0 ≤ stopOf list p := ⟨hzero.le, Nat.zero_le _⟩
  constructor
  · intro hfound j hj
    by_contra hnot
    obtain ⟨i, hi, hi', hsearch⟩ := hfound 0 (by norm_num)
    obtain rfl := h.unique hi hp hi' hp'
    obtain ⟨hlen, _, hbefore⟩ := dhtLayoutSearch_eq_some_iff.mp hsearch
    obtain ⟨hstart, hstop⟩ := h.rest j (hj.trans hlen) hnot
    exact hbefore j hj ⟨hstart.le, hstop.ge⟩
  · intro hfirst hash hhash
    obtain ⟨i, hi, hi'⟩ := h.cover hhash
    refine ⟨i, hi, hi', dhtLayoutSearch_eq_some_iff.mpr ⟨h.inside i hi, hi', fun j hj hj' => ?_⟩⟩
    by_cases hgiven : j ∈ given
    · exact hj.ne (h.unique hgiven hi hj' hi')
    · -- an empty range contains the hash zero only, which is the first entry's
      obtain ⟨_, hstop⟩ := h.rest j (hj.trans (h.inside i hi)) hgiven
      have hhash0 : hash = 0 := by omega
      subst hhash0
      obtain rfl := h.unique hi hp hi' hp'
      exact hgiven (hfirst j hj)

end Shared

/-! ## The directory -/

section Directory

variable (conf : DhtConf) (layout : DhtLayout) (hashval : Option ℕ)

theorem spreadCount_ne_zero : spreadCount conf layout ≠ 0 := by
  simp only [spreadCount]
  split
  · next h => exact h.1
  · split
    · next h => exact_mod_cast h
    · decide

theorem seenSizes_prepare : seenSizes conf (layout.list.map (prepare conf layout))
    (spreadCount conf layout).toNat = firstSizes conf layout := by
  have hwanted : wanted ∘ prepare conf layout = assignable conf layout := by
    funext e
    exact wanted_prepare conf layout e
  rw [seenSizes, firstSizes, List.filter_map, hwanted, ← List.map_take, List.map_map]
  rfl

/-- The list that the second loop starts with. -/
def cleared : List LayoutEntry :=
  (layout.list.map (prepare conf layout)).map fun e => { e with start := 0, stop := 0 }

@[simp] theorem length_cleared : (cleared conf layout).length = layout.list.length := by
  simp [cleared]

theorem servesAt_cleared (i : ℕ) :
    servesAt conf (weighted conf layout) (cleared conf layout) i =
      ((layout.list[i]?).any (assignable conf layout) &&
        decide (shareAt conf layout i ≠ 0)) := by
  simp only [servesAt, cleared, shareAt, List.getElem?_map]
  rcases Option.eq_none_or_eq_some layout.list[i]? with hentry | ⟨e, hentry⟩
  · simp [hentry]
  · have hwanted : wanted { prepare conf layout e with start := 0, stop := 0 } =
        assignable conf layout e := wanted_prepare conf layout e
    simp only [hentry, Option.map_some, Option.getD_some, Option.any_some, serves, hwanted]
    rfl

theorem widthAt_cleared (chunk i : ℕ) :
    widthAt conf (weighted conf layout) chunk (cleared conf layout) i =
      chunk * shareAt conf layout i % 2 ^ 32 := by
  simp only [widthAt, cleared, shareAt, List.getElem?_map]
  cases layout.list[i]? with
  | none => rfl
  | some e => rfl

/-- The second loop on the entries of the directory. -/
def directoryLoop : List LayoutEntry × List ℕ :=
  rangeLoop conf (weighted conf layout) (0xffffffff / shares conf layout)
    (spreadCount conf layout)
    (rotation layout.list.length (dhtSelfhealLayoutAllocStart hashval layout.list.length)) 0 0
    (cleared conf layout)

/-- What the first loop finds. -/
theorem sizeLoop_prepare (hpos : 0 < spreadCount conf layout) :
    sizeLoop conf (spreadCount conf layout) (layout.list.map (prepare conf layout)) 0 0 =
      ((firstSizes conf layout).all fun size => decide (size ≠ 0),
        ((firstSizes conf layout).takeWhile fun size => decide (size ≠ 0)).sum % 2 ^ 32,
        ((firstSizes conf layout).takeWhile fun size => decide (size ≠ 0)).length) := by
  have hcast : ((0 + (spreadCount conf layout).toNat : ℕ) : ℤ) = spreadCount conf layout := by
    rw [Nat.zero_add]
    exact Int.toNat_of_nonneg hpos.le
  have hloop := @sizeLoop_eq conf (layout.list.map (prepare conf layout))
    (spreadCount conf layout).toNat 0 0 (by omega) (by norm_num)
  rw [hcast, seenSizes_prepare, Nat.zero_add, Nat.zero_add] at hloop
  exact hloop

theorem newDirectory_eq (hpos : 0 < spreadCount conf layout) :
    dhtSelfhealLayoutNewDirectory conf layout hashval =
      if shares conf layout = 0 then none
      else some ({ layout with list := (directoryLoop conf layout hashval).1 },
        (directoryLoop conf layout hashval).2) := by
  have hshares : (if weighted conf layout then
        ((firstSizes conf layout).takeWhile fun size => decide (size ≠ 0)).sum % 2 ^ 32
      else ((firstSizes conf layout).takeWhile fun size => decide (size ≠ 0)).length) =
      shares conf layout := by
    rw [shares]
    split
    · next hweighted =>
      have hall := (Bool.and_eq_true_iff.mp hweighted).2
      rw [List.takeWhile_eq_self_iff.mpr (List.all_eq_true.mp hall)]
    · rfl
  simp only [dhtSelfhealLayoutNewDirectory, dhtGetLayoutCount_eq, sizeLoop_prepare conf layout hpos,
    ← weighted.eq_1, hshares, List.length_map]
  rfl

theorem rotation_lt {cnt startSubvol i : ℕ} (hi : i ∈ rotation cnt startSubvol) : i < cnt := by
  obtain ⟨realI, hreal, rfl⟩ := List.mem_map.mp hi
  have := List.mem_range.mp hreal
  exact Nat.mod_lt _ (by omega)

theorem rotation_nodup (cnt startSubvol : ℕ) : (rotation cnt startSubvol).Nodup := by
  refine List.Nodup.map_on (fun x hx y hy hxy => ?_) List.nodup_range
  have hmod : x ≡ y [MOD cnt] := Nat.ModEq.add_right_cancel' startSubvol hxy
  exact hmod.eq_of_lt_of_lt (List.mem_range.mp hx) (List.mem_range.mp hy)

variable {conf layout hashval}

theorem servesAt_candidates : servesAt conf (weighted conf layout) (cleared conf layout) =
    fun i => (layout.list[i]?).any (assignable conf layout) &&
      decide (shareAt conf layout i ≠ 0) := by
  funext i
  exact servesAt_cleared conf layout i

theorem rotation_inside {i : ℕ}
    (hi : i ∈ rotation layout.list.length
      (dhtSelfhealLayoutAllocStart hashval layout.list.length)) :
    i < (cleared conf layout).length :=
  (rotation_lt hi).trans_eq (length_cleared conf layout).symm

/-- The number of bricks to use, as the loops count it. -/
theorem exists_left (hpos : 0 < spreadCount conf layout) : ∃ left : ℕ,
    spreadCount conf layout = ((0 + (left + 1) : ℕ) : ℤ) ∧
      (spreadCount conf layout).toNat = left + 1 :=
  ⟨(spreadCount conf layout).toNat - 1, by omega, by omega⟩

/-- The entries that are given a range. -/
theorem directoryLoop_given (hpos : 0 < spreadCount conf layout) :
    (directoryLoop conf layout hashval).2 = chosen conf layout hashval := by
  obtain ⟨left, hcount, hleft⟩ := exists_left hpos
  rw [directoryLoop, chosen, candidates, hleft, hcount, rangeLoop_given fun i => rotation_inside,
    servesAt_candidates]

theorem directoryLoop_ranges (hpos : 0 < spreadCount conf layout)
    (henough : spreadCount conf layout ≤ (candidates conf layout hashval).length) :
    (chosen conf layout hashval).map (fun i => (startOf (directoryLoop conf layout hashval).1 i,
        stopOf (directoryLoop conf layout hashval).1 i)) =
      Tiling.ranges (2 ^ 32) 0 (widths conf layout hashval) := by
  obtain ⟨left, hcount, hleft⟩ := exists_left hpos
  have hwidth : widthAt conf (weighted conf layout) (0xffffffff / shares conf layout)
      (cleared conf layout) =
        fun i => 0xffffffff / shares conf layout * shareAt conf layout i % 2 ^ 32 := by
    funext i
    exact widthAt_cleared conf layout _ i
  have hlt : left < ((rotation layout.list.length (dhtSelfhealLayoutAllocStart hashval
      layout.list.length)).filter (servesAt conf (weighted conf layout)
        (cleared conf layout))).length := by
    rw [servesAt_candidates]
    change left < (candidates conf layout hashval).length
    omega
  have hranges := @rangeLoop_ranges conf (cleared conf layout) (weighted conf layout)
    (0xffffffff / shares conf layout) left 0 _ (fun i => rotation_inside) (rotation_nodup _ _) 0 hlt
  simp only [servesAt_candidates, hwidth, ← hcount] at hranges
  rw [← directoryLoop_given hpos, widths, hleft]
  exact hranges

/-- Entries that are not chosen have the empty range. -/
theorem directoryLoop_rest (hpos : 0 < spreadCount conf layout) {i : ℕ}
    (hi : i ∉ chosen conf layout hashval) :
    startOf (directoryLoop conf layout hashval).1 i = 0 ∧
      stopOf (directoryLoop conf layout hashval).1 i = 0 := by
  rw [← directoryLoop_given hpos] at hi
  have hsame := rangeLoop_other hi
  rw [startOf, stopOf, directoryLoop, hsame, cleared, List.getElem?_map]
  cases (layout.list.map (prepare conf layout))[i]? with
  | none => exact ⟨rfl, rfl⟩
  | some e => exact ⟨rfl, rfl⟩

theorem chosen_inside {i : ℕ} (hi : i ∈ chosen conf layout hashval) :
    i < (directoryLoop conf layout hashval).1.length := by
  rw [directoryLoop, rangeLoop_length]
  exact rotation_inside (List.mem_of_mem_filter (List.mem_of_mem_take hi))

/-- The first chosen entry has the range that starts at zero. -/
theorem startOf_head (hpos : 0 < spreadCount conf layout)
    (henough : spreadCount conf layout ≤ (candidates conf layout hashval).length) :
    ∃ p, (chosen conf layout hashval).head? = some p ∧
      startOf (directoryLoop conf layout hashval).1 p = 0 := by
  have hranges := directoryLoop_ranges hpos henough
  obtain ⟨stop, rest, hcons⟩ := Tiling.ranges_eq_cons (2 ^ 32) 0 (widths conf layout hashval)
  rw [hcons] at hranges
  cases hchosen : chosen conf layout hashval with
  | nil =>
      rw [hchosen] at hranges
      cases hranges
  | cons p others =>
      rw [hchosen] at hranges
      exact ⟨p, rfl, congrArg Prod.fst (List.cons.inj hranges).1⟩

theorem widths_lt {w : ℕ} (hw : w ∈ widths conf layout hashval) : w < 2 ^ 32 := by
  obtain ⟨i, _, rfl⟩ := List.mem_map.mp hw
  exact Nat.mod_lt _ (by norm_num)

/-- **A new layout tiles the hash space and every hash leads to the subvolume that has it,
exactly under `SpreadSafe`.** -/
theorem newDirectory_spread_iff : (∃ result,
      dhtSelfhealLayoutNewDirectory conf layout hashval = some result ∧
        Spread (dhtGetLayoutCount conf layout true).2 result.1.list result.2) ↔
    SpreadSafe conf layout hashval := by
  rw [dhtGetLayoutCount_eq]
  constructor
  · rintro ⟨result, hresult, hspread⟩
    have hpos : 0 < spreadCount conf layout := by
      have := spreadCount_ne_zero conf layout
      have := hspread.number
      omega
    rw [newDirectory_eq conf layout hashval hpos] at hresult
    split at hresult
    · cases hresult
    · next hshares =>
      cases hresult
      simp only [directoryLoop_given hpos] at hspread
      have henough : spreadCount conf layout ≤ (candidates conf layout hashval).length := by
        have hnumber := hspread.number
        rw [chosen, List.length_take] at hnumber
        omega
      have hshared := hspread.shared
      have htiles := hshared.tiles
      rw [directoryLoop_ranges hpos henough] at htiles
      obtain ⟨hwide, hfits⟩ := (Tiling.tiles_ranges_iff (by norm_num) fun w => widths_lt).mp htiles
      obtain ⟨p, hp, hzero⟩ := startOf_head hpos henough
      refine ⟨hpos, henough, hshares, hwide, hfits, fun q hq => ?_⟩
      obtain rfl : p = q := Option.some.inj (hp.symm.trans hq)
      exact (hshared.found_iff (List.mem_of_head? hp) hzero).mp hspread.found
  · rintro ⟨hpos, henough, hshares, hwide, hfits, hfirst⟩
    have htiles := (Tiling.tiles_ranges_iff (M := 2 ^ 32) (by norm_num) fun w => widths_lt).mpr
      ⟨hwide, hfits⟩
    rw [← directoryLoop_ranges hpos henough] at htiles
    have hshared : Shared (directoryLoop conf layout hashval).1 (chosen conf layout hashval) :=
      ⟨fun i => chosen_inside, htiles, fun i _ hi => directoryLoop_rest hpos hi⟩
    obtain ⟨p, hp, hzero⟩ := startOf_head hpos henough
    refine ⟨_, by rw [newDirectory_eq conf layout hashval hpos, if_neg hshares], ?_⟩
    simp only [directoryLoop_given hpos]
    refine ⟨?_, hshared.inside, fun i hi => ?_, hshared.apart, fun hash => hshared.cover,
      hshared.rest, (hshared.found_iff (List.mem_of_head? hp) hzero).mpr (hfirst p hp)⟩
    · rw [chosen, List.length_take]
      omega
    · exact htiles.proper _ (List.mem_map_of_mem hi)

/-- **Without disk usage the division is by zero.  When the size of the second of three
subvolumes is not known, the first pass has counted one subvolume only, and the range of the
second one in the list ends before it starts.** -/
theorem newDirectory_unknown_sizes :
    dhtSelfhealLayoutNewDirectory ⟨[], [1, 2], none, true⟩
      ⟨0, [⟨-1, 0, 0, 1⟩, ⟨-1, 0, 0, 2⟩]⟩ none = none ∧
    ∃ result, dhtSelfhealLayoutNewDirectory ⟨[], [1, 2, 3], some [500, 0, 700], true⟩
        ⟨0, [⟨-1, 0, 0, 1⟩, ⟨-1, 0, 0, 2⟩, ⟨-1, 0, 0, 3⟩]⟩ none = some result ∧
      result.1.list = [⟨-1, 0, 0xfffffffe, 1⟩, ⟨-1, 0xffffffff, 0xfffffffd, 2⟩,
        ⟨-1, 0xfffffffe, 0xffffffff, 3⟩] ∧
      ¬ Spread 3 result.1.list result.2 := by
  refine ⟨by decide, _, rfl, by decide, fun h => ?_⟩
  exact absurd (h.proper 1 (by decide)).1 (by decide)

end Directory

end GlusterFS.Dht
