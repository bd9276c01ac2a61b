import GlusterFS.Lib.Timeline

/-!
# The size of a server write

`wb_fulfill` puts writes together that continue each other, and `wb_fulfill_head` loads their
vectors into an array of `MAX_VECTOR_COUNT` on its stack.  Two counters are to see to it that the
array is not left, and that the write has at most `aggregate_size` bytes.  But `NEXT_HEAD` sets
them to zero when a new head begins, and only the writes that are put behind the head are added:
the head itself is never counted.

So a server write can be as large as two bounds.  All of them keep the bounds exactly for the
lists in which every request that is put behind a head fits with the head counted
(`wbFulfill_within`).
-/

namespace GlusterFS.WriteBehind

open IoVector

/-! ## Requests -/

/-- The options of the translator that `wb_fulfill` reads. -/
structure WbConf where
  aggregateSize : ℕ

/-- The arguments of `call_stub_t` that are read. -/
structure Stub where
  offset : ℕ
  vector : List (Iovec UInt8)

/-- `wb_request_t`. -/
structure WbRequest where
  stub : Stub
  fd : ℕ
  lkOwner : ℕ
  writeSize : ℕ

/-- A write that `wb_fulfill` put together. -/
structure Head where
  head : ℕ
  winds : List ℕ
  deriving DecidableEq

def Head.requests (g : Head) : List ℕ := g.head :: g.winds

/-- The default options. -/
def defaultConf : WbConf := ⟨131072⟩

/-! ## Putting writes together -/

def MAX_VECTOR_COUNT : ℕ := 8

/-- The local variables of `wb_fulfill`. -/
structure Aggregate where
  head : Head
  expectedOffset : ℕ
  currAggregate : ℕ
  vectorCount : ℕ

/-- `NEXT_HEAD`. -/
def Aggregate.next (req : ℕ → WbRequest) (i : ℕ) : Aggregate :=
  ⟨⟨i, []⟩, (req i).stub.offset + (req i).writeSize, 0, 0⟩

/-- A request that is wound together with the head. -/
def Aggregate.Takes (conf : WbConf) (req : ℕ → WbRequest) (a : Aggregate) (i : ℕ) : Prop :=
  (req i).fd = (req a.head.head).fd ∧ (req i).lkOwner = (req a.head.head).lkOwner ∧
    a.expectedOffset = (req i).stub.offset ∧
    a.currAggregate + (req i).writeSize ≤ conf.aggregateSize ∧
    a.vectorCount + (req i).stub.vector.length ≤ MAX_VECTOR_COUNT

instance (conf : WbConf) (req : ℕ → WbRequest) (a : Aggregate) (i : ℕ) :
    Decidable (a.Takes conf req i) := by
  unfold Aggregate.Takes
  infer_instance

def Aggregate.add (req : ℕ → WbRequest) (a : Aggregate) (i : ℕ) : Aggregate :=
  { a with
    head := ⟨a.head.head, a.head.winds ++ [i]⟩
    currAggregate := a.currAggregate + (req i).writeSize
    vectorCount := a.vectorCount + (req i).stub.vector.length }

/-- The loop of `wb_fulfill` behind its first request. -/
def wbFulfillLoop (conf : WbConf) (req : ℕ → WbRequest) : Aggregate → List ℕ → List Head
  | a, [] => [a.head]
  | a, i :: rest =>
      if a.Takes conf req i then wbFulfillLoop conf req (a.add req i) rest
      else a.head :: wbFulfillLoop conf req (.next req i) rest

/-- `wb_fulfill`: the heads that are wound. -/
def wbFulfill (conf : WbConf) (req : ℕ → WbRequest) : List ℕ → List Head
  | [] => []
  | i :: rest => wbFulfillLoop conf req (.next req i) rest

/-- `WB_IOV_LOAD` for all requests of a head: the vector, and `head->total_size`. -/
def wbIovLoad (req : ℕ → WbRequest) (g : Head) : List (Iovec UInt8) × ℕ :=
  (g.requests.flatMap fun i => (req i).stub.vector, (g.requests.map fun i => (req i).writeSize).sum)

variable {conf : WbConf} {req : ℕ → WbRequest}

/-! ## The bounds -/

/-- The server write of a head keeps the bounds. -/
def Head.Within (conf : WbConf) (req : ℕ → WbRequest) (g : Head) : Prop :=
  (wbIovLoad req g).1.length ≤ MAX_VECTOR_COUNT ∧ (wbIovLoad req g).2 ≤ conf.aggregateSize

/-- A write that keeps the bounds by itself. -/
def WbRequest.Within (conf : WbConf) (r : WbRequest) : Prop :=
  1 ≤ r.stub.vector.length ∧ r.stub.vector.length ≤ MAX_VECTOR_COUNT ∧
    r.writeSize ≤ conf.aggregateSize

/-- A request fits behind the head with the head counted. -/
def Aggregate.Fits (conf : WbConf) (req : ℕ → WbRequest) (a : Aggregate) (i : ℕ) : Prop :=
  (req a.head.head).writeSize + a.currAggregate + (req i).writeSize ≤ conf.aggregateSize ∧
    (req a.head.head).stub.vector.length + a.vectorCount + (req i).stub.vector.length
      ≤ MAX_VECTOR_COUNT

instance (conf : WbConf) (req : ℕ → WbRequest) (a : Aggregate) (i : ℕ) :
    Decidable (a.Fits conf req i) := inferInstanceAs (Decidable (_ ∧ _))

/-- Every request that the loop puts behind a head fits with the head counted. -/
def fitLoop (conf : WbConf) (req : ℕ → WbRequest) : Aggregate → List ℕ → Bool
  | _, [] => true
  | a, i :: rest =>
      if a.Takes conf req i then decide (a.Fits conf req i) && fitLoop conf req (a.add req i) rest
      else fitLoop conf req (.next req i) rest

/-- **The condition on a list of liabilities**: a request that continues a head, and that
`wb_fulfill` therefore puts behind it, fits with the head counted. -/
def fit (conf : WbConf) (req : ℕ → WbRequest) : List ℕ → Bool
  | [] => true
  | i :: rest => fitLoop conf req (.next req i) rest

/-! ## One aggregate -/

/-- The pieces that are loaded for some requests. -/
def piecesOf (req : ℕ → WbRequest) (l : List ℕ) : ℕ :=
  (l.map fun i => (req i).stub.vector.length).sum

/-- The bytes that are loaded for them. -/
def bytesOf (req : ℕ → WbRequest) (l : List ℕ) : ℕ := (l.map fun i => (req i).writeSize).sum

@[simp] theorem piecesOf_cons (i : ℕ) (l : List ℕ) :
    piecesOf req (i :: l) = (req i).stub.vector.length + piecesOf req l := rfl

@[simp] theorem bytesOf_cons (i : ℕ) (l : List ℕ) :
    bytesOf req (i :: l) = (req i).writeSize + bytesOf req l := rfl

@[simp] theorem piecesOf_append (l l' : List ℕ) :
    piecesOf req (l ++ l') = piecesOf req l + piecesOf req l' := by
  simp [piecesOf]

@[simp] theorem bytesOf_append (l l' : List ℕ) :
    bytesOf req (l ++ l') = bytesOf req l + bytesOf req l' := by
  simp [bytesOf]

theorem length_wbIovLoad (g : Head) : (wbIovLoad req g).1.length =
    (req g.head).stub.vector.length + piecesOf req g.winds := by
  simp [wbIovLoad, Head.requests, piecesOf, List.length_flatMap]

theorem size_wbIovLoad (g : Head) :
    (wbIovLoad req g).2 = (req g.head).writeSize + bytesOf req g.winds := rfl

/-- The counters of `wb_fulfill` are those of the writes behind the head. -/
structure Aggregate.Behind (req : ℕ → WbRequest) (a : Aggregate) : Prop where
  pieces : a.vectorCount = piecesOf req a.head.winds
  bytes : a.currAggregate = bytesOf req a.head.winds

theorem Aggregate.Behind.next (i : ℕ) : (Aggregate.next req i).Behind req := ⟨rfl, rfl⟩

theorem Aggregate.Behind.add {a : Aggregate} (h : a.Behind req) (i : ℕ) :
    (a.add req i).Behind req := by
  constructor
  · simp [Aggregate.add, h.pieces, piecesOf]
  · simp [Aggregate.add, h.bytes, bytesOf]

theorem Aggregate.Behind.within_iff {a : Aggregate} (h : a.Behind req) :
    a.head.Within conf req ↔
      (req a.head.head).stub.vector.length + a.vectorCount ≤ MAX_VECTOR_COUNT ∧
        (req a.head.head).writeSize + a.currAggregate ≤ conf.aggregateSize := by
  rw [Head.Within, length_wbIovLoad, size_wbIovLoad, ← h.pieces, ← h.bytes]

theorem WbRequest.Within.next {i : ℕ} (h : (req i).Within conf) :
    (Aggregate.next req i).head.Within conf req := by
  rw [(Aggregate.Behind.next i).within_iff]
  exact h.2

theorem Aggregate.Fits.within {a : Aggregate} {i : ℕ} (h : a.Fits conf req i)
    (hbehind : a.Behind req) : (a.add req i).head.Within conf req := by
  rw [(hbehind.add i).within_iff]
  exact ⟨(Nat.add_assoc ..).symm.trans_le h.2, (Nat.add_assoc ..).symm.trans_le h.1⟩

/-- The loop goes on with the head it has. -/
theorem wbFulfillLoop_head (a : Aggregate) (l : List ℕ) :
    ∃ more rest, wbFulfillLoop conf req a l = ⟨a.head.head, a.head.winds ++ more⟩ :: rest := by
  induction l generalizing a with
  | nil => exact ⟨[], [], by simp [wbFulfillLoop]⟩
  | cons i l ih =>
      rw [wbFulfillLoop]
      split
      · obtain ⟨more, rest, heq⟩ := ih (a.add req i)
        refine ⟨i :: more, rest, heq.trans ?_⟩
        simp [Aggregate.add]
      · exact ⟨[], wbFulfillLoop conf req (.next req i) l, by rw [List.append_nil]⟩

/-- A request that does not fit makes too large a server write, whatever follows it. -/
theorem Aggregate.Behind.exceeds {a : Aggregate} {i : ℕ} (hbehind : a.Behind req)
    (hfits : ¬ a.Fits conf req i) (more : List ℕ) :
    ¬ Head.Within conf req ⟨a.head.head, a.head.winds ++ [i] ++ more⟩ := by
  intro h
  simp only [Head.Within, length_wbIovLoad, size_wbIovLoad, piecesOf_append, bytesOf_append,
    piecesOf_cons, bytesOf_cons, ← hbehind.pieces, ← hbehind.bytes] at h
  exact hfits ⟨by omega, by omega⟩

/-! ## Whole lists -/

theorem wbFulfillLoop_within_iff (l : List ℕ) (a : Aggregate) (hbehind : a.Behind req)
    (hwithin : a.head.Within conf req) (hl : ∀ i ∈ l, (req i).Within conf) :
    (∀ g ∈ wbFulfillLoop conf req a l, g.Within conf req) ↔ fitLoop conf req a l = true := by
  induction l generalizing a with
  | nil => exact iff_of_true (by simpa [wbFulfillLoop] using hwithin) rfl
  | cons i l ih =>
      obtain ⟨hi, hrest⟩ := List.forall_mem_cons.mp hl
      rw [wbFulfillLoop, fitLoop]
      by_cases htakes : a.Takes conf req i
      · rw [if_pos htakes, if_pos htakes]
        by_cases hfits : a.Fits conf req i
        · rw [decide_eq_true hfits, Bool.true_and]
          exact ih _ (hbehind.add i) (hfits.within hbehind) hrest
        · obtain ⟨more, rest, heq⟩ := @wbFulfillLoop_head conf req (a.add req i) l
          rw [heq, decide_eq_false hfits, Bool.false_and]
          exact iff_of_false
            (fun hall => hbehind.exceeds hfits more (hall _ List.mem_cons_self)) Bool.false_ne_true
      · rw [if_neg htakes, if_neg htakes, List.forall_mem_cons, and_iff_right hwithin]
        exact ih _ (.next i) hi.next hrest

/-- The loop begins with an aggregate that has kept the bounds so far. -/
theorem wbFulfillLoop_within_twice (l : List ℕ) (a : Aggregate) (hbehind : a.Behind req)
    (hhead : (req a.head.head).Within conf) (hcount : a.vectorCount ≤ MAX_VECTOR_COUNT)
    (hsize : a.currAggregate ≤ conf.aggregateSize) (hl : ∀ i ∈ l, (req i).Within conf) :
    ∀ g ∈ wbFulfillLoop conf req a l, (wbIovLoad req g).1.length ≤ 2 * MAX_VECTOR_COUNT ∧
      (wbIovLoad req g).2 ≤ 2 * conf.aggregateSize := by
  have hnow : ∀ a : Aggregate, a.Behind req → (req a.head.head).Within conf →
      a.vectorCount ≤ MAX_VECTOR_COUNT → a.currAggregate ≤ conf.aggregateSize →
      (wbIovLoad req a.head).1.length ≤ 2 * MAX_VECTOR_COUNT ∧
        (wbIovLoad req a.head).2 ≤ 2 * conf.aggregateSize := by
    intro a hbehind hhead hcount hsize
    obtain ⟨-, hheadCount, hheadSize⟩ := hhead
    rw [length_wbIovLoad, size_wbIovLoad, ← hbehind.pieces, ← hbehind.bytes]
    omega
  induction l generalizing a with
  | nil => simpa [wbFulfillLoop] using hnow a hbehind hhead hcount hsize
  | cons i l ih =>
      have hrest : ∀ j ∈ l, (req j).Within conf := fun j hj => hl j (List.mem_cons_of_mem _ hj)
      rw [wbFulfillLoop]
      split
      · next htakes =>
        exact ih _ (hbehind.add i) hhead htakes.2.2.2.2 htakes.2.2.2.1 hrest
      · rw [List.forall_mem_cons]
        refine ⟨hnow a hbehind hhead hcount hsize, ?_⟩
        exact ih _ (.next i) (hl i List.mem_cons_self) (Nat.zero_le _) (Nat.zero_le _) hrest

/-- **The server writes of a list.**  When every write keeps the bounds by itself, each server
write keeps twice the bounds; all of them keep the bounds exactly when every request that is put
behind a head fits with the head counted. -/
theorem wbFulfill_within (conf : WbConf) (req : ℕ → WbRequest) (l : List ℕ)
    (hl : ∀ i ∈ l, (req i).Within conf) :
    (∀ g ∈ wbFulfill conf req l, (wbIovLoad req g).1.length ≤ 2 * MAX_VECTOR_COUNT ∧
      (wbIovLoad req g).2 ≤ 2 * conf.aggregateSize) ∧
    ((∀ g ∈ wbFulfill conf req l, (wbIovLoad req g).1.length ≤ MAX_VECTOR_COUNT ∧
        (wbIovLoad req g).2 ≤ conf.aggregateSize) ↔ fit conf req l = true) := by
  cases l with
  | nil => exact ⟨fun g hg => absurd hg List.not_mem_nil, by simp [wbFulfill, fit]⟩
  | cons i l =>
      obtain ⟨hi, hrest⟩ := List.forall_mem_cons.mp hl
      exact ⟨wbFulfillLoop_within_twice l _ (.next i) hi (Nat.zero_le _) (Nat.zero_le _) hrest,
        wbFulfillLoop_within_iff l _ (.next i) hi.next hrest⟩

/-- A write of `count` pieces of one byte, at `offset`. -/
def pieceWrite (count offset : ℕ) : WbRequest :=
  ⟨⟨offset, List.replicate count ⟨fun _ => 0, 1⟩⟩, 0, 0, count⟩

/-- Requests 0 and 1 continue each other. -/
def pieceWrites (first second : ℕ) (i : ℕ) : WbRequest :=
  if i = 0 then pieceWrite first 0 else pieceWrite second first

theorem wbFulfill_within_four : (∀ i ∈ [0, 1], (pieceWrites 4 4 i).Within defaultConf) ∧
    ∀ g ∈ wbFulfill defaultConf (pieceWrites 4 4) [0, 1],
      (wbIovLoad (pieceWrites 4 4) g).1.length ≤ MAX_VECTOR_COUNT ∧
        (wbIovLoad (pieceWrites 4 4) g).2 ≤ defaultConf.aggregateSize := by
  have hwithin : ∀ i ∈ [0, 1], (pieceWrites 4 4 i).Within defaultConf := by
    intro i hi
    rcases List.mem_pair.mp hi with rfl | rfl
    · exact ⟨by decide, by decide, by decide⟩
    · exact ⟨by decide, by decide, by decide⟩
  refine ⟨hwithin, (wbFulfill_within defaultConf (pieceWrites 4 4) [0, 1] hwithin).2.mpr ?_⟩
  decide

/-- Two writes of eight pieces each become one server write with sixteen. -/
theorem sixteen_pieces : ∃ g ∈ wbFulfill defaultConf (pieceWrites 8 8) [0, 1],
    (∀ i ∈ [0, 1], (pieceWrites 8 8 i).Within defaultConf) ∧
      (wbIovLoad (pieceWrites 8 8) g).1.length = 2 * MAX_VECTOR_COUNT := by
  refine ⟨⟨0, [1]⟩, by decide, fun i hi => ?_, by decide⟩
  rcases List.mem_pair.mp hi with rfl | rfl
  · exact ⟨by decide, by decide, by decide⟩
  · exact ⟨by decide, by decide, by decide⟩

end GlusterFS.WriteBehind
