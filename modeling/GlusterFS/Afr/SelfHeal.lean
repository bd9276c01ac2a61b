import Mathlib

/-!
# The data self-heal of the replicate translator

Every brick of a replica set keeps a count of the operations that are pending on each of the
others, and a dirty count of its own.  `__afr_selfheal_data` reads them under a lock, finds
out from which bricks to heal and which ones are to be healed, copies the data, and then
clears the counts of what has been healed and sets those of what has not
(`afr_selfheal_undo_pending`).

This module embeds `afr_selfheal_find_direction`, the tie breaks of
`__afr_selfheal_data_finalize_source`, `afr_mark_active_sinks`, `__afr_selfheal_data_prepare`,
`__afr_selfheal_truncate_sinks`, `afr_selfheal_data_do` with its loop over the blocks,
`afr_selfheal_data_fsync`, `afr_selfheal_undo_pending` and `__afr_selfheal_data`.  What the
bricks answer is an argument (`HealReplies`).

Two sets say what is to be healed.  `sinks` are the bricks that a source accuses;
`healed_sinks` are, after the tie breaks, all locked bricks that are no source.  A brick that
lost a tie is in the second set only.  `afr_selfheal_undo_pending` looks for failures among
the `sinks`: when such a brick could not be healed, its counts are cleared as if it had been.
-/

namespace GlusterFS.Afr

/-! ## Direction -/

/-- A set of bricks, as an array of flags. -/
abbrev Marks := ℕ → Bool

/-- A count of an extended attribute, an `int32_t`. -/
abbrev Count := BitVec 32

/-- What a brick has answered to the lookup: its counts and what the tie breaks look at. -/
structure Reply where
  ok : Bool
  dirty : Count
  pending : ℕ → Count
  size : ℕ
  ctime : ℕ

/-- `AFR_COUNT`. -/
def afrCount (n : ℕ) (marks : Marks) : ℕ := (List.range n).countP marks

/-- `afr_success_count`. -/
def afrSuccessCount (n : ℕ) (replies : ℕ → Reply) : ℕ := (List.range n).countP fun i => (replies i).ok

/-- The matrix of `afr_selfheal_extract_xattr`. -/
def matrixOf (replies : ℕ → Reply) (i j : ℕ) : Count := (replies i).pending j

section Direction

variable (n : ℕ) (matrix : ℕ → ℕ → Count) (lockedOn : Marks)

def selfAccused (i : ℕ) : Bool := decide (matrix i i ≠ 0)

/-- Accused by a brick that does not accuse itself. -/
def accused (j : ℕ) : Bool :=
  (List.range n).any fun i => decide (matrix i j ≠ 0) && !selfAccused matrix i

def pendingOnOthers (i : ℕ) : Bool :=
  (List.range n).any fun j => decide (matrix i j ≠ 0) && decide (i ≠ j)

/-- The `sources` of `afr_selfheal_find_direction`. -/
def findSources : Marks := fun i => !accused n matrix i && lockedOn i

/-- The `sinks`: accused by a source that does not accuse itself. -/
def findSinks : Marks := fun j =>
  (List.range n).any fun i =>
    findSources n matrix lockedOn i && !selfAccused matrix i && decide (matrix i j ≠ 0)

/-- The `witness` counts, in 64 bits. -/
def findWitness (dirty : ℕ → Count) (i : ℕ) : ℤ :=
  let others := if selfAccused matrix i then
    (((List.range n).filter fun j => decide (i ≠ j)).map fun j => (matrix i j).toInt).sum else 0
  let own := if selfAccused matrix i && !pendingOnOthers n matrix i then (matrix i i).toInt else 0
  (others + own + (dirty i).toInt) % 2 ^ 64

end Direction

/-- What `afr_selfheal_find_direction` fills in. -/
structure Direction where
  sources : Marks
  sinks : Marks
  witness : ℕ → ℤ

/-- `afr_selfheal_find_direction`; with less than two answers it fails. -/
def afrSelfhealFindDirection (n : ℕ) (replies : ℕ → Reply) (lockedOn : Marks) : Option Direction :=
  if afrSuccessCount n replies < 2 then none
  else some
    { sources := findSources n (matrixOf replies) lockedOn
      sinks := findSinks n (matrixOf replies) lockedOn
      witness := findWitness n (matrixOf replies) fun i => (replies i).dirty }

/-! ## Tie breaks -/

section TieBreaks

variable (n : ℕ) (replies : ℕ → Reply)

/-- `afr_has_source_witnesses`. -/
def afrHasSourceWitnesses (sources : Marks) (witness : ℕ → ℤ) : Bool :=
  (List.range n).any fun i => sources i && decide (witness i ≠ 0)

/-- `afr_does_size_mismatch`: the smallest and the largest size differ. -/
def afrDoesSizeMismatch : Bool :=
  (List.range n).any fun i => (List.range n).any fun j =>
    (replies i).ok && (replies j).ok && decide ((replies i).size ≠ (replies j).size)

/-- `afr_mark_largest_file_as_source`. -/
def afrMarkLargestFileAsSource (sources : Marks) : Marks :=
  let size := (List.range n).foldl
    (fun size i => if sources i ∧ size ≤ (replies i).size then (replies i).size else size) 0
  fun i => sources i && !decide (size > (replies i).size)

/-- `afr_mark_biggest_witness_as_source`. -/
def afrMarkBiggestWitnessAsSource (sources : Marks) (witness : ℕ → ℤ) : Marks :=
  let biggest := (List.range n).foldl
    (fun biggest i => if sources i ∧ biggest < witness i then witness i else biggest) 0
  fun i => sources i && !decide (witness i < biggest)

/-- `afr_mark_newest_file_as_source`: the last of those with the latest `ctime`. -/
def afrMarkNewestFileAsSource (sources : Marks) : Marks :=
  let newest := (List.range n).foldl
    (fun (newest : Option ℕ × ℕ) i =>
      if sources i ∧ newest.2 ≤ (replies i).ctime then (some i, (replies i).ctime) else newest)
    (none, 0)
  fun i => decide (newest.1 = some i)

/-- `afr_mark_active_sinks`. -/
def afrMarkActiveSinks (sources lockedOn : Marks) : Marks := fun i => !sources i && lockedOn i

/-- `__afr_selfheal_data_finalize_source`: the source, the sources and `healed_sinks`. -/
def afrSelfhealDataFinalizeSource (sources healedSinks lockedOn : Marks) (witness : ℕ → ℤ) :
    Option (ℕ × Marks × Marks) :=
  -- split brain
  if (∀ i < n, lockedOn i = healedSinks i) ∨ afrCount n sources = 0 then none
  else
    let sources :=
      if !afrDoesSizeMismatch n replies && !afrHasSourceWitnesses n sources witness then sources
      else afrMarkNewestFileAsSource n replies (afrMarkBiggestWitnessAsSource n
        (afrMarkLargestFileAsSource n replies sources) witness)
    ((List.range n).find? sources).map fun source =>
      (source, sources, afrMarkActiveSinks sources lockedOn)

end TieBreaks

/-- What `__afr_selfheal_data_prepare` finds out. -/
structure Prepared where
  source : ℕ
  sources : Marks
  sinks : Marks
  healedSinks : Marks

/-- `__afr_selfheal_data_prepare`. -/
def afrSelfhealDataPrepare (n : ℕ) (replies : ℕ → Reply) (lockedOn : Marks) : Option Prepared :=
  (afrSelfhealFindDirection n replies lockedOn).bind fun direction =>
    (afrSelfhealDataFinalizeSource n replies direction.sources
      (fun i => direction.sinks i && lockedOn i) lockedOn direction.witness).map
      fun (source, sources, healedSinks) => ⟨source, sources, direction.sinks, healedSinks⟩

/-! ## Copying -/

/-- What the bricks answer while one block is copied: how many locks are granted, whether the
checksums match, what the read returns, which sinks are skipped because of holes, and what
the writes return. -/
structure BlockReplies where
  locks : ℕ
  checksumsMatch : Bool
  read : ℤ
  skip : Marks
  write : ℕ → ℤ

/-- What the bricks answer while they are healed. -/
structure HealReplies where
  truncateFails : Marks
  diff : Bool
  blocks : ℕ → BlockReplies
  fsyncFails : Marks

/-- `__afr_selfheal_truncate_sinks`. -/
def afrSelfhealTruncateSinks (healedSinks : Marks) (replies : ℕ → Reply) (size : ℕ)
    (truncateFails : Marks) : Marks :=
  fun i => healedSinks i && !(decide ((replies i).size > size) && truncateFails i)

/-- The loop of `__afr_selfheal_data_read_write`: the last return value, and the sinks that are
still being healed. -/
def afrSelfhealDataReadWrite (n : ℕ) (block : BlockReplies) (healedSinks : Marks) : ℤ × Marks :=
  if block.read ≤ 0 then (block.read, healedSinks)
  else
    (List.range n).foldl
      (fun (state : ℤ × Marks) i =>
        if state.2 i ∧ ¬ block.skip i then
          (block.write i,
            if block.write i ≠ block.read then Function.update state.2 i false else state.2)
        else state)
      (block.read, healedSinks)

/-- `afr_selfheal_data_block`; all errors are negative. -/
def afrSelfhealDataBlock (n : ℕ) (diff : Bool) (block : BlockReplies) (healedSinks : Marks) :
    ℤ × Marks :=
  if block.locks < afrCount n healedSinks then (-1, healedSinks)
  else if diff && block.checksumsMatch then (0, healedSinks)
  else afrSelfhealDataReadWrite n block healedSinks

/-- The loop of `afr_selfheal_data_do`, over the numbers of the blocks. -/
def afrSelfhealDataLoop (n : ℕ) (healing : HealReplies) : List ℕ → Marks → Option Marks
  | [], healedSinks => some healedSinks
  | block :: rest, healedSinks =>
      if afrCount n healedSinks = 0 then none
      else
        let result := afrSelfhealDataBlock n healing.diff (healing.blocks block) healedSinks
        if result.1 < 0 then none else afrSelfhealDataLoop n healing rest result.2

/-- The numbers of the blocks of 128 KiB of a file. -/
def blocksOf (size : ℕ) : List ℕ :=
  let block := 128 * 1024
  List.range ((size + (block - 1)) / block)

/-- `afr_selfheal_data_do`, with `afr_selfheal_data_fsync`. -/
def afrSelfhealDataDo (n : ℕ) (healing : HealReplies) (size : ℕ) (healedSinks : Marks) :
    Option Marks :=
  (afrSelfhealDataLoop n healing (blocksOf size) healedSinks).map
    fun healedSinks i => healedSinks i && !healing.fsyncFails i

/-! ## Afterwards -/

/-- The `pending` of `afr_selfheal_undo_pending`. -/
def stillPending (sinks healedSinks : Marks) : Marks := fun i => sinks i && !healedSinks i

/-- The counts after `afr_selfheal_undo_pending`: every locked brick adds its row of
`output_matrix`. -/
def undoMatrix (sinks healedSinks lockedOn : Marks) (matrix : ℕ → ℕ → Count) (i j : ℕ) : Count :=
  if lockedOn i then
    matrix i j + if stillPending sinks healedSinks j then 1 else -matrix i j
  else matrix i j

/-- The dirty counts after `afr_selfheal_undo_pending`. -/
def undoDirty (sinks healedSinks lockedOn : Marks) (dirty : ℕ → Count) (i : ℕ) : Count :=
  if lockedOn i then
    dirty i + if stillPending sinks healedSinks i then 0 else -dirty i
  else dirty i

/-- What a heal has done when it came to its end. -/
structure Healed where
  sources : Marks
  healedSinks : Marks
  matrix : ℕ → ℕ → Count
  dirty : ℕ → Count

/-- `__afr_selfheal_data`; `none` when it gives up before `afr_selfheal_undo_pending`. -/
def afrSelfhealData (n : ℕ) (replies : ℕ → Reply) (lockedOn : Marks) (healing : HealReplies) :
    Option Healed :=
  if afrCount n lockedOn < 2 then none
  else
    (afrSelfhealDataPrepare n replies lockedOn).bind fun prepared =>
      let size := (replies prepared.source).size
      let truncated :=
        afrSelfhealTruncateSinks prepared.healedSinks replies size healing.truncateFails
      (afrSelfhealDataDo n healing size truncated).map fun healedSinks =>
        { sources := prepared.sources
          healedSinks := healedSinks
          matrix := undoMatrix prepared.sinks healedSinks lockedOn (matrixOf replies)
          dirty := undoDirty prepared.sinks healedSinks lockedOn fun i => (replies i).dirty }

/-! ## What the counts say afterwards -/

variable {n : ℕ} {matrix : ℕ → ℕ → Count} {lockedOn : Marks}

/-- Every locked brick that is no source and has not been healed is accused by all locked
bricks, so that it will not be taken for a source; and nobody accuses a source or a brick that
has been healed. -/
structure Recorded (n : ℕ) (lockedOn : Marks) (h : Healed) : Prop where
  failed : ∀ j < n, lockedOn j = true → h.sources j = false → h.healedSinks j = false →
    (∀ i < n, lockedOn i = true → 0 < (h.matrix i j).toInt) ∧
      findSources n h.matrix lockedOn j = false
  healed : ∀ j < n, h.sources j = true ∨ h.healedSinks j = true →
    (∀ i < n, lockedOn i = true → h.matrix i j = 0) ∧ (lockedOn j = true → h.dirty j = 0)

/-- A locked brick that nobody without a self-accusation accuses, itself included, accuses
brick `j`. -/
def AccusedBySource (n : ℕ) (matrix : ℕ → ℕ → Count) (lockedOn : Marks) (j : ℕ) : Prop :=
  ∃ k < n, lockedOn k = true ∧ matrix k k = 0 ∧ (∀ i < n, matrix i i = 0 → matrix i k = 0) ∧
    matrix k j ≠ 0

/-- The block is written to brick `j` and the write fails. -/
def BlockReplies.WriteFails (diff : Bool) (block : BlockReplies) (j : ℕ) : Prop :=
  (diff && block.checksumsMatch) = false ∧ 0 < block.read ∧ block.skip j = false ∧
    block.write j ≠ block.read

/-- Truncating brick `j`, writing one of its blocks or syncing it fails. -/
def HealFails (replies : ℕ → Reply) (healing : HealReplies) (source j : ℕ) : Prop :=
  ((replies source).size < (replies j).size ∧ healing.truncateFails j = true) ∨
    (∃ block ∈ blocksOf (replies source).size, (healing.blocks block).WriteFails healing.diff j) ∨
    healing.fsyncFails j = true

/-- Every brick for which the heal fails was accused by a source, and the counts that are
increased for it are counts. -/
def FailuresAccused (n : ℕ) (replies : ℕ → Reply) (lockedOn : Marks) (healing : HealReplies) :
    Prop :=
  ∀ p ∈ afrSelfhealDataPrepare n replies lockedOn, ∀ j < n, lockedOn j = true →
    p.sources j = false → HealFails replies healing p.source j →
      AccusedBySource n (matrixOf replies) lockedOn j ∧
        ∀ i < n, lockedOn i = true →
          0 ≤ (matrixOf replies i j).toInt ∧ (matrixOf replies i j).toInt < 2 ^ 31 - 1

/-! ### Sources and sinks -/

theorem findSources_eq_true_iff {j : ℕ} : findSources n matrix lockedOn j = true ↔
    lockedOn j = true ∧ ∀ i < n, matrix i i = 0 → matrix i j = 0 := by
  simp only [findSources, accused, selfAccused, Bool.and_eq_true, Bool.not_eq_true',
    List.any_eq_false, List.mem_range, decide_eq_true_eq, decide_eq_false_iff_not, not_and,
    not_not, ne_eq]
  rw [and_comm]
  refine and_congr_right fun _ => forall₂_congr fun i _ => ?_
  exact ⟨fun h hself => by_contra fun hne => h hne hself, fun h hne hself => hne (h hself)⟩

theorem findSinks_eq_true_iff {j : ℕ} :
    findSinks n matrix lockedOn j = true ↔ AccusedBySource n matrix lockedOn j := by
  simp only [findSinks, List.any_eq_true, List.mem_range, Bool.and_eq_true,
    findSources_eq_true_iff, selfAccused, Bool.not_eq_true', decide_eq_false_iff_not, not_not,
    decide_eq_true_eq, AccusedBySource, ne_eq]
  refine exists_congr fun k => and_congr_right fun _ => ?_
  tauto

/-- A source is not accused by another source. -/
theorem findSinks_of_findSources {j : ℕ} (h : findSources n matrix lockedOn j = true) :
    findSinks n matrix lockedOn j = false := by
  refine Bool.eq_false_of_not_eq_true fun hsink => ?_
  obtain ⟨k, hk, _, hself, _, haccuses⟩ := findSinks_eq_true_iff.mp hsink
  exact haccuses ((findSources_eq_true_iff.mp h).2 k hk hself)

/-! ### The tie breaks only take sources away -/

section Subset

variable {replies : ℕ → Reply} {sources : Marks} {witness : ℕ → ℤ} {i : ℕ}

theorem afrMarkNewestFileAsSource_subset
    (h : afrMarkNewestFileAsSource n replies sources i = true) : sources i = true := by
  have loop : ∀ (todo : List ℕ) (newest : Option ℕ × ℕ),
      (∀ i, newest.1 = some i → sources i = true) →
      ∀ i, (todo.foldl (fun (newest : Option ℕ × ℕ) i =>
        if sources i ∧ newest.2 ≤ (replies i).ctime then (some i, (replies i).ctime)
        else newest) newest).1 = some i → sources i = true := by
    intro todo
    induction todo with
    | nil => exact fun _ h => h
    | cons x todo ih =>
        intro newest hnewest
        refine ih _ fun i hi => ?_
        by_cases hx : sources x ∧ newest.2 ≤ (replies x).ctime
        · simp only [if_pos hx] at hi
          cases hi
          exact hx.1
        · simp only [if_neg hx] at hi
          exact hnewest i hi
  exact loop _ _ (fun _ hi => by cases hi) i (of_decide_eq_true h)

theorem finalizeSource_spec {healedSinks : Marks} {source : ℕ} {sources' healedSinks' : Marks}
    (h : afrSelfhealDataFinalizeSource n replies sources healedSinks lockedOn witness =
      some (source, sources', healedSinks')) :
    source < n ∧ sources' source = true ∧ (∀ i, sources' i = true → sources i = true) ∧
      healedSinks' = afrMarkActiveSinks sources' lockedOn := by
  unfold afrSelfhealDataFinalizeSource at h
  split at h
  · cases h
  · obtain ⟨x, hfind, heq⟩ := Option.map_eq_some_iff.mp h
    cases heq
    refine ⟨List.mem_range.mp (List.mem_of_find?_eq_some hfind), List.find?_some hfind,
      fun i hi => ?_, rfl⟩
    split at hi
    · exact hi
    · have hwitness := afrMarkNewestFileAsSource_subset hi
      have hlargest := (Bool.and_eq_true_iff.mp hwitness).1
      exact (Bool.and_eq_true_iff.mp hlargest).1

end Subset

/-- What `__afr_selfheal_data_prepare` hands on. -/
structure Prepared.Ok (n : ℕ) (matrix : ℕ → ℕ → Count) (lockedOn : Marks) (p : Prepared) : Prop where
  source_lt : p.source < n
  source_mem : p.sources p.source = true
  sources : ∀ i, p.sources i = true → findSources n matrix lockedOn i = true
  sinks : p.sinks = findSinks n matrix lockedOn
  healedSinks : p.healedSinks = afrMarkActiveSinks p.sources lockedOn

theorem prepare_ok {replies : ℕ → Reply} {p : Prepared}
    (h : afrSelfhealDataPrepare n replies lockedOn = some p) :
    p.Ok n (matrixOf replies) lockedOn := by
  obtain ⟨direction, hdirection, h⟩ := Option.bind_eq_some_iff.mp h
  obtain ⟨⟨source, sources, healedSinks⟩, hfinal, rfl⟩ := Option.map_eq_some_iff.mp h
  unfold afrSelfhealFindDirection at hdirection
  split at hdirection
  · cases hdirection
  · cases hdirection
    obtain ⟨hlt, hmem, hsubset, hactive⟩ := finalizeSource_spec hfinal
    exact ⟨hlt, hmem, hsubset, rfl, hactive⟩

/-! ### Which bricks get healed -/

section Healing

variable {healing : HealReplies} {marks marks' : Marks} {j : ℕ}

/-- The loop over the bricks clears the mark of those whose write fails. -/
theorem readWrite_foldl (block : BlockReplies) (todo : List ℕ) (state : ℤ × Marks) :
    (todo.foldl (fun (state : ℤ × Marks) i =>
        if state.2 i ∧ ¬ block.skip i then
          (block.write i,
            if block.write i ≠ block.read then Function.update state.2 i false else state.2)
        else state) state).2 j = true ↔
      state.2 j = true ∧ (j ∈ todo → block.skip j = false → block.write j = block.read) := by
  induction todo generalizing state with
  | nil => simp
  | cons x todo ih =>
      rw [List.foldl_cons, ih]
      by_cases hx : state.2 x = true ∧ ¬ block.skip x = true
      · by_cases hwrite : block.write x = block.read
        · simp only [if_pos hx, hwrite, ne_eq, not_true, if_false, List.mem_cons]
          refine and_congr_right fun _ => ⟨fun h hmem hskip => ?_, fun h hmem => h (.inr hmem)⟩
          rcases hmem with rfl | hmem
          · exact hwrite
          · exact h hmem hskip
        · simp only [if_pos hx, ne_eq, hwrite, not_false_eq_true, if_true, List.mem_cons]
          by_cases hj : j = x
          · subst hj
            simp [hwrite, Bool.eq_false_of_not_eq_true hx.2]
          · simp [hj]
      · simp only [if_neg hx, List.mem_cons]
        refine and_congr_right fun hmark => ⟨fun h hmem hskip => ?_, fun h hmem => h (.inr hmem)⟩
        rcases hmem with rfl | hmem
        · exact absurd ⟨hmark, by simp [hskip]⟩ hx
        · exact h hmem hskip

/-- One block: a mark is kept exactly when the write does not fail. -/
theorem afrSelfhealDataBlock_marks (diff : Bool) (block : BlockReplies) (hj : j < n)
    (hblock : 0 ≤ (afrSelfhealDataBlock n diff block marks).1) :
    (afrSelfhealDataBlock n diff block marks).2 j = true ↔
      marks j = true ∧ ¬ block.WriteFails diff j := by
  unfold afrSelfhealDataBlock at hblock ⊢
  split
  · next hlocks => exact absurd hblock (by simp [hlocks])
  · split
    · next hmatch => simp [BlockReplies.WriteFails, hmatch]
    · next hmatch =>
      have hmatch := Bool.eq_false_of_not_eq_true hmatch
      unfold afrSelfhealDataReadWrite
      split
      · next hread => simp [BlockReplies.WriteFails, hread]
      · next hread =>
        rw [readWrite_foldl]
        refine and_congr_right fun _ => ⟨fun h hfails => ?_, fun h _ hskip => ?_⟩
        · exact hfails.2.2.2 (h (List.mem_range.mpr hj) hfails.2.2.1)
        · exact by_contra fun hne => h ⟨hmatch, not_le.mp hread, hskip, hne⟩

/-- All blocks. -/
theorem afrSelfhealDataLoop_marks (hj : j < n) {todo : List ℕ}
    (h : afrSelfhealDataLoop n healing todo marks = some marks') :
    marks' j = true ↔ marks j = true ∧
      ∀ block ∈ todo, ¬ (healing.blocks block).WriteFails healing.diff j := by
  induction todo generalizing marks with
  | nil =>
      cases h
      simp
  | cons block todo ih =>
      unfold afrSelfhealDataLoop at h
      split at h
      · cases h
      · dsimp only at h
        split at h
        · cases h
        · next hresult =>
          rw [ih h, afrSelfhealDataBlock_marks _ _ hj (not_lt.mp hresult), and_assoc,
            List.forall_mem_cons]

/-- The parts of a heal that comes to its end. -/
theorem afrSelfhealData_eq_some {replies : ℕ → Reply} {h : Healed}
    (hrun : afrSelfhealData n replies lockedOn healing = some h) :
    ∃ p, afrSelfhealDataPrepare n replies lockedOn = some p ∧ h.sources = p.sources ∧
      (∀ j < n, h.healedSinks j = true ↔
        p.healedSinks j = true ∧ ¬ HealFails replies healing p.source j) ∧
      h.matrix = undoMatrix p.sinks h.healedSinks lockedOn (matrixOf replies) ∧
      h.dirty = undoDirty p.sinks h.healedSinks lockedOn fun i => (replies i).dirty := by
  unfold afrSelfhealData at hrun
  split at hrun
  · cases hrun
  · obtain ⟨p, hp, hrun⟩ := Option.bind_eq_some_iff.mp hrun
    obtain ⟨healedSinks, hhealed, rfl⟩ := Option.map_eq_some_iff.mp hrun
    obtain ⟨copied, hcopied, rfl⟩ := Option.map_eq_some_iff.mp hhealed
    refine ⟨p, hp, rfl, fun j hj => ?_, rfl, rfl⟩
    have hloop := afrSelfhealDataLoop_marks hj hcopied
    simp only [Bool.and_eq_true, hloop, afrSelfhealTruncateSinks, Bool.not_eq_true',
      Bool.and_eq_false_iff, decide_eq_false_iff_not, gt_iff_lt, HealFails, not_or, not_and,
      not_exists, Bool.not_eq_true]
    tauto

end Healing

/-! ### The counts -/

theorem toInt_add_one_pos_iff (x : Count) :
    0 < (x + 1).toInt ↔ 0 ≤ x.toInt ∧ x.toInt < 2 ^ 31 - 1 := by
  have hlow := BitVec.le_toInt x
  have hhigh := @BitVec.toInt_lt 32 x
  rw [BitVec.toInt_add, show (1 : Count).toInt = 1 from rfl, Int.bmod_def]
  split <;> omega

section Undo

variable {sinks healedSinks : Marks} {i j : ℕ}

theorem undoMatrix_of_pending (hi : lockedOn i = true) (hj : stillPending sinks healedSinks j = true) :
    undoMatrix sinks healedSinks lockedOn matrix i j = matrix i j + 1 := by
  simp [undoMatrix, hi, hj]

theorem undoMatrix_of_not_pending (hi : lockedOn i = true)
    (hj : stillPending sinks healedSinks j = false) :
    undoMatrix sinks healedSinks lockedOn matrix i j = 0 := by
  simp [undoMatrix, hi, hj]

theorem undoDirty_of_not_pending {dirty : ℕ → Count} (hi : lockedOn i = true)
    (hj : stillPending sinks healedSinks i = false) :
    undoDirty sinks healedSinks lockedOn dirty i = 0 := by
  simp [undoDirty, hi, hj]

end Undo

/-- A source is not taken for a brick that is still to be healed. -/
theorem Prepared.Ok.not_pending {p : Prepared} (hp : p.Ok n matrix lockedOn) {j : ℕ}
    (hj : p.sources j = true) (healedSinks : Marks) :
    stillPending p.sinks healedSinks j = false := by
  rw [stillPending, hp.sinks, findSinks_of_findSources (hp.sources j hj), Bool.false_and]

/-! ## The result -/

/-- **After a data self-heal the counts say what has been healed and what has not, exactly
when every brick for which the heal failed had been accused by a source.** -/
theorem recorded_iff {replies : ℕ → Reply} {healing : HealReplies} {h : Healed}
    (hrun : afrSelfhealData n replies lockedOn healing = some h) :
    Recorded n lockedOn h ↔ FailuresAccused n replies lockedOn healing := by
  obtain ⟨p, hprepare, hsources, hhealedSinks, hmatrix, hdirty⟩ := afrSelfhealData_eq_some hrun
  have hp := prepare_ok hprepare
  constructor
  · intro hrecorded p' hp' j hj hlocked hsource hfails
    obtain rfl : p = p' := Option.some.inj (hprepare.symm.trans hp')
    have hfailed : h.healedSinks j = false :=
      Bool.eq_false_of_not_eq_true fun hdone => ((hhealedSinks j hj).mp hdone).2 hfails
    have hpositive := (hrecorded.failed j hj hlocked (hsources ▸ hsource) hfailed).1
    rw [hmatrix] at hpositive
    -- a brick that is not looked for among the failures has its counts cleared
    have hpending : stillPending p.sinks h.healedSinks j = true := by
      by_contra hnot
      have := hpositive j hj hlocked
      rw [undoMatrix_of_not_pending hlocked (Bool.eq_false_of_not_eq_true hnot)] at this
      exact absurd this (by decide)
    refine ⟨?_, fun i hi hi' => ?_⟩
    · have hsink := (Bool.and_eq_true_iff.mp hpending).1
      rw [hp.sinks] at hsink
      exact findSinks_eq_true_iff.mp hsink
    · have := hpositive i hi hi'
      rw [undoMatrix_of_pending hi' hpending] at this
      exact (toInt_add_one_pos_iff _).mp this
  · intro haccused
    constructor
    · intro j hj hlocked hsource hfailed
      rw [hsources] at hsource
      -- every locked brick that is no source was to be healed
      have hfails : HealFails replies healing p.source j := by
        by_contra hnot
        have hactive : p.healedSinks j = true := by
          rw [hp.healedSinks, afrMarkActiveSinks, hsource, hlocked]
          rfl
        exact absurd ((hhealedSinks j hj).mpr ⟨hactive, hnot⟩) (by simp [hfailed])
      obtain ⟨hby, hcounts⟩ := haccused p hprepare j hj hlocked hsource hfails
      have hpending : stillPending p.sinks h.healedSinks j = true := by
        rw [stillPending, hp.sinks, findSinks_eq_true_iff.mpr hby, hfailed]
        rfl
      have hpositive : ∀ i < n, lockedOn i = true → 0 < (h.matrix i j).toInt := by
        intro i hi hi'
        rw [hmatrix, undoMatrix_of_pending hi' hpending]
        exact (toInt_add_one_pos_iff _).mpr (hcounts i hi hi')
      refine ⟨hpositive, ?_⟩
      -- the source does not accuse itself any more, and it accuses the brick
      have hlockedSource : lockedOn p.source = true :=
        (findSources_eq_true_iff.mp (hp.sources _ hp.source_mem)).1
      refine Bool.eq_false_of_not_eq_true fun hselected => ?_
      have hself : h.matrix p.source p.source = 0 := by
        rw [hmatrix]
        exact undoMatrix_of_not_pending hlockedSource (hp.not_pending hp.source_mem _)
      have hzero := (findSources_eq_true_iff.mp hselected).2 p.source hp.source_lt hself
      have hpos := hpositive p.source hp.source_lt hlockedSource
      rw [hzero] at hpos
      exact absurd hpos (by decide)
    · intro j _ hdone
      have hnot : stillPending p.sinks h.healedSinks j = false := by
        rcases hdone with hsource | hhealed
        · exact hp.not_pending (hsources ▸ hsource) _
        · simp [stillPending, hhealed]
      refine ⟨fun i _ hi => ?_, fun hlocked => ?_⟩
      · rw [hmatrix]
        exact undoMatrix_of_not_pending hi hnot
      · rw [hdirty]
        exact undoDirty_of_not_pending hlocked hnot

/-- Three bricks answer a lookup: all have the same size and are dirty, and brick 0 accuses
brick 2 as often as `accusations` says. -/
def threeReplies (accusations : Count) (i : ℕ) : Reply :=
  { ok := true, dirty := 1, pending := fun j => if i = 0 ∧ j = 2 then accusations else 0,
    size := 20, ctime := 0 }

/-- All writes of a heal go well but that to brick `j`. -/
def oneWriteFails (j : ℕ) : HealReplies :=
  { truncateFails := fun _ => false
    diff := false
    blocks := fun _ => { locks := 3, checksumsMatch := false, read := 20, skip := fun _ => false,
                         write := fun i => if i = j then 0 else 20 }
    fsyncFails := fun _ => false }

/-- Brick 2 is accused and cannot be healed: all of them accuse it afterwards. -/
theorem recorded_iff_accused : ∃ h,
    afrSelfhealData 3 (threeReplies 1) (fun _ => true) (oneWriteFails 2) = some h ∧
      h.healedSinks 2 = false ∧ Recorded 3 (fun _ => true) h := by
  have hresult : (afrSelfhealData 3 (threeReplies 1) (fun _ => true) (oneWriteFails 2)).map
      (fun h => h.healedSinks 2) = some false := by decide +kernel
  obtain ⟨h, hrun, hfailed⟩ := Option.map_eq_some_iff.mp hresult
  refine ⟨h, hrun, hfailed, (recorded_iff hrun).mpr ?_⟩
  intro p hp j hj _ hsource hfails
  have hwrite : j = 2 := by
    rcases hfails with ⟨_, hfails⟩ | ⟨block, _, hfails⟩ | hfails
    · cases hfails
    · exact by_contra fun hne => hfails.2.2.2 (if_neg hne)
    · cases hfails
  subst hwrite
  unfold AccusedBySource
  decide

/-- Nobody is accused, and all three bricks are dirty: the last one becomes the source.
Brick 0 cannot be written, and afterwards all counts are 0: it is as good a source as the
others. -/
theorem failed_tie_loser_is_source : ∃ h,
    afrSelfhealData 3 (threeReplies 0) (fun _ => true) (oneWriteFails 0) = some h ∧
      h.sources 0 = false ∧ h.healedSinks 0 = false ∧
      findSources 3 h.matrix (fun _ => true) 0 = true ∧ ¬ Recorded 3 (fun _ => true) h := by
  have hresult : (afrSelfhealData 3 (threeReplies 0) (fun _ => true) (oneWriteFails 0)).map
      (fun h => (h.sources 0, h.healedSinks 0, findSources 3 h.matrix (fun _ => true) 0)) =
      some (false, false, true) := by decide +kernel
  obtain ⟨h, hrun, heq⟩ := Option.map_eq_some_iff.mp hresult
  simp only [Prod.mk.injEq] at heq
  obtain ⟨hsource, hfailed, hselected⟩ := heq
  refine ⟨h, hrun, hsource, hfailed, hselected, fun hrecorded => ?_⟩
  have hnot := (hrecorded.failed 0 (by decide) rfl hsource hfailed).2
  exact absurd (hselected.symm.trans hnot) (by decide)

end GlusterFS.Afr
