import GlusterFS.Ec.Combine
import GlusterFS.Lib.Machine

/-!
# Dispatching a request to the bricks

The engine that every fop of the disperse translator runs on: the bricks have been
chosen and a job taken, one of `ec_dispatch_one`, `_inc`, `_min` and `_all` winds
requests, and every answer runs a callback that combines it and completes it.  The
job is released by an `ec_resume`, either from `ec_combine` when a group has grown to
the expected size, or from `ec_complete` when the last wound request is done.

`ec_combine`, `ec_dispatch_next`, `ec_resume` and `ec_complete` each take the lock
of the fop for themselves, so the callbacks of different bricks interleave
between them.  `Phase` says where the callback of a brick stands and one `Act` is
one of those critical sections.

The same fop may have been dispatched before: `stale` counts the callbacks of the
earlier dispatch that have yet to reach `ec_complete`.  In the lock managers a new
dispatch is started from inside such a callback.

Masks are finite sets of brick indices, so `ec_bits_count` is the cardinality.
-/

namespace GlusterFS.Ec

/-- `ENOTCONN`. -/
def eNotConn : ℕ := 107

/-- The four ways of dispatching. -/
inductive DispatchKind
  | one | inc | min | all
  deriving DecidableEq, Repr

/-- What does not change during a dispatch: the volume, the way of dispatching, the
callback given to `ec_combine`, and whether the answers pass through
`ec_lock_handler` in the mode `EC_LOCK_MODE_INC`. -/
structure Request where
  nodes : ℕ
  fragments : ℕ
  kind : DispatchKind
  combine : CombineFn
  lockInc : Bool

/-- Where the callback of a brick stands.  `unlock` is the mask that
`ec_lock_handler` returns to it. -/
inductive Phase
  /-- No request was wound to the brick. -/
  | idle
  /-- The request is out. -/
  | wound
  /-- In `ec_combine`, about to call `ec_dispatch_next`. -/
  | dispatching (unlock : Finset ℕ)
  /-- In `ec_combine`, about to call `ec_resume`. -/
  | resuming (unlock : Finset ℕ)
  /-- Back in the callback; a lock callback now unlocks the bricks of the mask. -/
  | returning (unlock : Finset ℕ)
  /-- About to call `ec_complete`. -/
  | completing
  /-- In `ec_complete`, about to call `ec_resume`. -/
  | releasing
  | finished
  deriving DecidableEq

/-- The request still counts in `fop->winds`. -/
def Phase.Live : Phase → Prop
  | .wound | .dispatching _ | .resuming _ | .returning _ | .completing => True
  | .idle | .releasing | .finished => False

instance : DecidablePred Phase.Live := fun p => by
  cases p <;> simp only [Phase.Live] <;> infer_instance

/-- The fop, `ec_fop_data_t`, during one dispatch.  `answered` collects the bricks
whose answers went through `ec_combine`, `unlocked` those the callbacks unlocked
and `resumes` the calls of `ec_resume`. -/
structure Fop where
  mask : Finset ℕ
  minimum : ℤ
  expected : ℕ
  first : ℕ
  remaining : Finset ℕ
  winds : ℕ
  cbkList : List Group
  answer : Option Group
  waitingWinds : Bool
  phase : ℕ → Phase
  stale : ℕ
  staleReleasing : ℕ
  answered : Finset ℕ
  unlocked : Finset ℕ
  resumes : ℕ

/-! ## Winding -/

/-- `ec_child_valid`. -/
def ecChildValid (nodes : ℕ) (remaining : Finset ℕ) (idx : ℕ) : Bool :=
  idx < nodes && decide (idx ∈ remaining)

/-- `++idx`, back to `0` at the end. -/
def childSucc (nodes idx : ℕ) : ℕ := if idx + 1 ≥ nodes then 0 else idx + 1

/-- The loop of `ec_child_next`; it comes back to `first` within `nodes` turns. -/
def childScan (nodes : ℕ) (remaining : Finset ℕ) (first : ℕ) : ℕ → ℕ → Option ℕ
  | 0, _ => none
  | fuel + 1, idx =>
      if ecChildValid nodes remaining idx then some idx
      else if childSucc nodes idx = first then none
      else childScan nodes remaining first fuel (childSucc nodes idx)

/-- `ec_child_next`; the source returns `-1` for `none`. -/
def ecChildNext (nodes : ℕ) (remaining : Finset ℕ) (first idx : ℕ) : Option ℕ :=
  childScan nodes remaining first (nodes + 1) idx

/-- The callback of brick `b` goes on to `p`. -/
def Fop.move (s : Fop) (b : ℕ) (p : Phase) : Fop :=
  { s with phase := Function.update s.phase b p }

/-- Wind the request to the brick `i`. -/
def Fop.wind (s : Fop) (i : ℕ) : Fop :=
  { s with
    remaining := s.remaining.erase i
    winds := s.winds + 1
    phase := Function.update s.phase i .wound }

/-- `ec_dispatch_next`. -/
def ecDispatchNext (r : Request) (idx : ℕ) (s : Fop) : Fop :=
  match ecChildNext r.nodes s.remaining s.first idx with
  | none => s
  | some i => s.wind i

/-- `ec_dispatch_mask`. -/
def ecDispatchMask (wound : Finset ℕ) (s : Fop) : Fop :=
  { s with
    remaining := s.remaining \ wound
    winds := s.winds + wound.card
    phase := fun i => if i ∈ wound then .wound else s.phase i }

/-- The loop of `ec_dispatch_min` that picks `count` bricks.  When `ec_child_next`
finds none it returns `-1` and the source shifts by it: that is `none`. -/
def pickBricks (nodes : ℕ) (remaining : Finset ℕ) (first : ℕ) :
    ℕ → ℕ → Finset ℕ → Option (Finset ℕ)
  | 0, _, mask => some mask
  | count + 1, idx, mask =>
      match ecChildNext nodes remaining first idx with
      | none => none
      | some i => pickBricks nodes remaining first count (i + 1) (insert i mask)

/-- The fop after `ec_dispatch_start` and a successful `ec_child_select`. -/
def dispatchStart (mask : Finset ℕ) (minimum : ℤ) (stale : ℕ) (expected first : ℕ) : Fop where
  mask := mask
  minimum := minimum
  expected := expected
  first := first
  remaining := mask
  winds := stale
  cbkList := []
  answer := none
  waitingWinds := false
  phase := fun _ => .idle
  stale := stale
  staleReleasing := 0
  answered := ∅
  unlocked := ∅
  resumes := 0

/-- `ec_dispatch_one`, `ec_dispatch_inc`, `ec_dispatch_min` and `ec_dispatch_all`
after the selection; `idx` is `ec->idx`. -/
def ecDispatch (r : Request) (mask : Finset ℕ) (minimum : ℤ) (idx stale : ℕ) : Option Fop :=
  match r.kind with
  | .one => some (ecDispatchNext r idx (dispatchStart mask minimum stale 1 idx))
  | .inc => some (ecDispatchNext r 0 (dispatchStart mask minimum stale mask.card 0))
  | .all => some (ecDispatchMask mask (dispatchStart mask minimum stale mask.card 0))
  | .min =>
      (pickBricks r.nodes mask idx r.fragments idx ∅).map fun wound =>
        ecDispatchMask wound (dispatchStart mask minimum stale r.fragments idx)

/-! ## The callbacks -/

/-- The count of the first group. -/
def headCount (list : List Group) : ℕ := (list.head?.map Group.count).getD 0

/-- `needed` of `ec_combine`: the requests that are missing to reach `minimum`. -/
def Fop.needed (s : Fop) : ℤ := s.minimum - headCount s.cbkList - s.winds + 1

/-- The group that the answer of brick `b` ends up in. -/
def Fop.cbk (r : Request) (b : ℕ) (a : Answer) (s : Fop) : Group :=
  (ecCombineGroups r.combine b a s.cbkList).1

/-- `resume` of `ec_combine`. -/
def ecCombineResumes (r : Request) (b : ℕ) (a : Answer) (s : Fop) : Bool :=
  decide ((s.cbk r b a).count = s.expected) && s.answer.isNone

/-- What `ec_combine` does to the fop before its `UNLOCK`. -/
def Fop.combined (r : Request) (b : ℕ) (a : Answer) (s : Fop) : Fop :=
  { s with
    cbkList := (ecCombineGroups r.combine b a s.cbkList).2
    answered := insert b s.answered
    answer := if ecCombineResumes r b a s then some (s.cbk r b a) else s.answer }

/-- Where the callback goes from `ec_combine`: it prefers one more dispatch to the
resume. -/
def combinePhase (r : Request) (b : ℕ) (a : Answer) (unlock : Finset ℕ) (s : Fop) : Phase :=
  if 0 < (s.combined r b a).needed then .dispatching unlock
  else if ecCombineResumes r b a s then .resuming unlock
  else .returning unlock

/-- `ec_combine` up to its `UNLOCK`. -/
def ecCombine (r : Request) (b : ℕ) (a : Answer) (unlock : Finset ℕ) (s : Fop) : Fop :=
  (s.combined r b a).move b (combinePhase r b a unlock s)

/-- `ec_lock_handler` in front of `ec_combine`: in the mode `EC_LOCK_MODE_INC` a
failure other than `ENOTCONN` stops the dispatch, and the bricks tried so far are
to be unlocked. -/
def ecLockHandler (r : Request) (b : ℕ) (a : Answer) (s : Fop) : Fop :=
  if r.lockInc ∧ a.opRet < 0 ∧ a.opErrno ≠ eNotConn then
    ecCombine r b a ((s.mask \ s.remaining) \ {b}) { s with remaining := ∅ }
  else
    ecCombine r b a ∅ s

/-- The first critical section of the callback of a brick.  A fop that is dispatched
to one brick does not combine: it tries the next brick when this one is not
connected, and reports otherwise. -/
def reply (r : Request) (b : ℕ) (a : Answer) (s : Fop) : Fop :=
  match r.kind with
  | .one =>
      (if a.opRet < 0 ∧ a.opErrno = eNotConn then ecDispatchNext r b s else s).move b .completing
  | .inc | .min | .all => ecLockHandler r b a s

/-- The group that `ec_complete` accepts when no group has reached the expected size:
the first one, if it is large enough and is not about lost connections. -/
def Fop.headAnswer (s : Fop) : Option Group :=
  s.cbkList.head?.filter fun cbk =>
    decide (s.minimum ≤ cbk.count) &&
      (decide (0 ≤ cbk.newest.2.opRet) || cbk.newest.2.opErrno != eNotConn)

/-- `ec_complete` up to its `UNLOCK`. -/
def ecComplete (s : Fop) : Fop :=
  { s with
    winds := s.winds - 1
    answer := if s.winds - 1 = 0 then s.answer.or s.headAnswer else s.answer }

/-- `resume` of `ec_complete`. -/
def ecCompleteResumes (s : Fop) : Bool :=
  decide (s.winds - 1 = 0) && (s.answer.isNone || s.waitingWinds)

/-- One critical section. -/
inductive Act
  /-- The answer of a brick arrives. -/
  | reply (b : ℕ) (a : Answer)
  /-- `ec_dispatch_next` from `ec_combine`. -/
  | next (b : ℕ)
  /-- `ec_resume` from `ec_combine`. -/
  | resume (b : ℕ)
  /-- The callback unlocks what `ec_lock_handler` told it to. -/
  | unlock (b : ℕ)
  | complete (b : ℕ)
  /-- `ec_resume` from `ec_complete`. -/
  | release (b : ℕ)
  | completeStale
  | releaseStale
  /-- `ec_wait_winds`, which a lock manager calls when it reports. -/
  | waitWinds

/-- One step of the engine. -/
def engineStep (r : Request) (s : Fop) : Act → Option Fop
  | .reply b a => if s.phase b = .wound then some (reply r b a s) else none
  | .next b =>
      match s.phase b with
      | .dispatching unlock => some ((ecDispatchNext r b s).move b (.returning unlock))
      | _ => none
  | .resume b =>
      match s.phase b with
      | .resuming unlock =>
          some ({ s with resumes := s.resumes + 1 }.move b (.returning unlock))
      | _ => none
  | .unlock b =>
      match s.phase b with
      | .returning unlock =>
          some ({ s with unlocked := s.unlocked ∪ unlock }.move b .completing)
      | _ => none
  | .complete b =>
      if s.phase b = .completing then
        some ((ecComplete s).move b (if ecCompleteResumes s then .releasing else .finished))
      else none
  | .release b =>
      if s.phase b = .releasing then
        some ({ s with resumes := s.resumes + 1 }.move b .finished)
      else none
  | .completeStale =>
      if 0 < s.stale then
        some { ecComplete s with
          stale := s.stale - 1
          staleReleasing := s.staleReleasing + (ecCompleteResumes s).toNat }
      else none
  | .releaseStale =>
      if 0 < s.staleReleasing then
        some { s with
          staleReleasing := s.staleReleasing - 1
          resumes := s.resumes + 1 }
      else none
  | .waitWinds =>
      if 0 < s.resumes ∧ 0 < s.winds ∧ s.waitingWinds = false then
        some { s with waitingWinds := true }
      else none

/-- The runs of one dispatch. -/
def engine (r : Request) (mask : Finset ℕ) (minimum : ℤ) (idx stale : ℕ) : Machine Fop Act where
  start := fun s => ecDispatch r mask minimum idx stale = some s
  step := engineStep r

/-! ## What every run keeps -/

variable {r : Request} {s : Fop}

theorem childScan_some {nodes first fuel idx i : ℕ} {remaining : Finset ℕ}
    (h : childScan nodes remaining first fuel idx = some i) : i < nodes ∧ i ∈ remaining := by
  induction fuel generalizing idx with
  | zero => cases h
  | succ fuel ih =>
      rw [childScan] at h
      split at h
      · rename_i hvalid
        cases h
        simpa [ecChildValid] using hvalid
      · split at h
        · cases h
        · exact ih h

/-- `ec_dispatch_next` does nothing, or winds to a remaining brick. -/
theorem ecDispatchNext_cases (r : Request) (idx : ℕ) (s : Fop) :
    ecDispatchNext r idx s = s ∨
      ∃ i, i < r.nodes ∧ i ∈ s.remaining ∧ ecDispatchNext r idx s = s.wind i := by
  unfold ecDispatchNext
  cases hnext : ecChildNext r.nodes s.remaining s.first idx with
  | none => exact Or.inl rfl
  | some i =>
      obtain ⟨hlt, hmem⟩ := childScan_some hnext
      exact Or.inr ⟨i, hlt, hmem, rfl⟩

@[simp] theorem Fop.move_phase_self (s : Fop) (b : ℕ) (p : Phase) : (s.move b p).phase b = p := by
  simp [Fop.move]

theorem Fop.move_phase_ne (s : Fop) {b c : ℕ} (p : Phase) (h : c ≠ b) :
    (s.move b p).phase c = s.phase c := by
  simp [Fop.move, h]

theorem Fop.wind_phase_ne (s : Fop) {i c : ℕ} (h : c ≠ i) : (s.wind i).phase c = s.phase c :=
  Function.update_of_ne h _ s.phase

/-- The bookkeeping of the engine: a brick that remains was never wound, `winds`
counts the requests that have not completed, and the combined answers are
grouped. -/
structure Fop.Sound (r : Request) (s : Fop) : Prop where
  brick_lt : ∀ b, s.phase b ≠ .idle → b < r.nodes
  remaining_idle : ∀ b ∈ s.remaining, s.phase b = .idle
  winds_eq : s.winds = tally (Finset.range r.nodes) Phase.Live s.phase + s.stale
  answered_phase : ∀ b ∈ s.answered, s.phase b ≠ .idle ∧ s.phase b ≠ .wound
  grouped : Grouped r.combine s.answered s.cbkList

/-- A callback goes on without leaving the count of `winds`. -/
theorem Fop.Sound.move (h : s.Sound r) {b : ℕ} {p : Phase} (hb : s.phase b ≠ .idle)
    (hidle : p ≠ .idle) (hwound : p ≠ .wound) (hlive : p.Live ↔ (s.phase b).Live) :
    (s.move b p).Sound r := by
  have hmem : b ∈ Finset.range r.nodes := Finset.mem_range.mpr (h.brick_lt b hb)
  refine ⟨fun c hc => ?_, fun c hc => ?_, ?_, fun c hc => ?_, h.grouped⟩
  · by_cases hcb : c = b
    · exact hcb ▸ h.brick_lt b hb
    · rw [s.move_phase_ne p hcb] at hc
      exact h.brick_lt c hc
  · have hcb : c ≠ b := fun heq => hb (heq ▸ h.remaining_idle c hc)
    rw [s.move_phase_ne p hcb]
    exact h.remaining_idle c hc
  · have count := tally_update (p := Phase.Live) s.phase hmem p
    simp only [hlive] at count
    have := h.winds_eq
    simp only [Fop.move]
    omega
  · by_cases hcb : c = b
    · rw [hcb, s.move_phase_self]
      exact ⟨hidle, hwound⟩
    · rw [s.move_phase_ne p hcb]
      exact h.answered_phase c hc

theorem Fop.Sound.wind (h : s.Sound r) {i : ℕ} (hi : i < r.nodes) (hmem : i ∈ s.remaining) :
    (s.wind i).Sound r := by
  have hidle := h.remaining_idle i hmem
  refine ⟨fun c hc => ?_, fun c hc => ?_, ?_, fun c hc => ?_, h.grouped⟩
  · by_cases hci : c = i
    · exact hci ▸ hi
    · rw [s.wind_phase_ne hci] at hc
      exact h.brick_lt c hc
  · obtain ⟨hne, hc⟩ := Finset.mem_erase.mp hc
    rw [s.wind_phase_ne hne]
    exact h.remaining_idle c hc
  · have count := tally_update (p := Phase.Live) s.phase (Finset.mem_range.mpr hi) .wound
    simp only [hidle, Phase.Live, ↓reduceIte] at count
    have := h.winds_eq
    simp only [Fop.wind]
    omega
  · have hci : c ≠ i := fun heq => (h.answered_phase c hc).1 (heq ▸ hidle)
    rw [s.wind_phase_ne hci]
    exact h.answered_phase c hc

theorem Fop.Sound.dispatchNext (h : s.Sound r) (idx : ℕ) :
    (ecDispatchNext r idx s).Sound r := by
  rcases ecDispatchNext_cases r idx s with heq | ⟨i, hi, hmem, heq⟩
  · rwa [heq]
  · rw [heq]
    exact h.wind hi hmem

/-- Winding to other bricks leaves a callback where it is. -/
theorem phase_ecDispatchNext (h : s.Sound r) (idx : ℕ) {b : ℕ} (hb : s.phase b ≠ .idle) :
    (ecDispatchNext r idx s).phase b = s.phase b := by
  rcases ecDispatchNext_cases r idx s with heq | ⟨i, -, hmem, heq⟩
  · rw [heq]
  · have hbi : b ≠ i := fun hbi => hb (hbi ▸ h.remaining_idle i hmem)
    rw [heq, s.wind_phase_ne hbi]

/-- The callback leaves `ec_combine` in one of three ways, none of which completes. -/
theorem combinePhase_cases (r : Request) (b : ℕ) (a : Answer) (unlock : Finset ℕ) (s : Fop) :
    combinePhase r b a unlock s = .dispatching unlock ∨
      combinePhase r b a unlock s = .resuming unlock ∨
      combinePhase r b a unlock s = .returning unlock := by
  unfold combinePhase
  split
  · exact Or.inl rfl
  split
  · exact Or.inr (Or.inl rfl)
  · exact Or.inr (Or.inr rfl)

theorem combinePhase_live (r : Request) (b : ℕ) (a : Answer) (unlock : Finset ℕ) (s : Fop) :
    (combinePhase r b a unlock s).Live := by
  rcases combinePhase_cases r b a unlock s with h | h | h <;> rw [h] <;> exact trivial

theorem Phase.Live.ne_idle {p : Phase} (h : p.Live) : p ≠ .idle := by
  rintro rfl
  exact h

theorem Fop.Sound.combine (hcombine : r.combine ∈ combineCallbacks) (h : s.Sound r) {b : ℕ}
    (hb : s.phase b = .wound) (a : Answer) (unlock : Finset ℕ) :
    (ecCombine r b a unlock s).Sound r := by
  have hlive := combinePhase_live r b a unlock s
  have hwound : combinePhase r b a unlock s ≠ .wound := by
    rcases combinePhase_cases r b a unlock s with h | h | h <;> rw [h] <;> nofun
  have hnew : b ∉ s.answered := fun hmem => (h.answered_phase b hmem).2 hb
  have moved := h.move (b := b) (p := combinePhase r b a unlock s) (by rw [hb]; nofun)
    hlive.ne_idle hwound (by rw [hb]; exact iff_of_true hlive trivial)
  refine ⟨moved.brick_lt, moved.remaining_idle, moved.winds_eq, fun c hc => ?_,
    (ecCombineGroups_grouped hcombine hnew a h.grouped).1⟩
  rcases Finset.mem_insert.mp hc with rfl | hc
  · rw [ecCombine, Fop.move_phase_self]
    exact ⟨hlive.ne_idle, hwound⟩
  · exact moved.answered_phase c hc

theorem Fop.Sound.lockHandler (hcombine : r.combine ∈ combineCallbacks) (h : s.Sound r)
    {b : ℕ} (hb : s.phase b = .wound) (a : Answer) : (ecLockHandler r b a s).Sound r := by
  unfold ecLockHandler
  split
  · have stopped : ({ s with remaining := ∅ } : Fop).Sound r :=
      ⟨h.brick_lt, fun c hc => absurd hc (Finset.notMem_empty c), h.winds_eq,
        h.answered_phase, h.grouped⟩
    exact stopped.combine hcombine hb a _
  · exact h.combine hcombine hb a _

theorem Fop.Sound.reply (hcombine : r.combine ∈ combineCallbacks) (h : s.Sound r) {b : ℕ}
    (hb : s.phase b = .wound) (a : Answer) : (reply r b a s).Sound r := by
  unfold Ec.reply
  cases r.kind with
  | one =>
      have hne : s.phase b ≠ .idle := by rw [hb]; nofun
      have moved : ∀ s' : Fop, s'.Sound r → s'.phase b = .wound →
          (s'.move b .completing).Sound r := fun s' h' hb' =>
        h'.move (by rw [hb']; nofun) (by nofun) (by nofun) (by rw [hb']; exact Iff.rfl)
      simp only
      split
      · exact moved _ (h.dispatchNext b) ((phase_ecDispatchNext h b hne).trans hb)
      · exact moved _ h hb
  | inc => exact h.lockHandler hcombine hb a
  | min => exact h.lockHandler hcombine hb a
  | all => exact h.lockHandler hcombine hb a

/-- A callback leaves the count of `winds`. -/
theorem Fop.Sound.complete (h : s.Sound r) {b : ℕ} (hb : s.phase b = .completing) {p : Phase}
    (hidle : p ≠ .idle) (hwound : p ≠ .wound) (hlive : ¬ p.Live) :
    ((ecComplete s).move b p).Sound r := by
  have hne : s.phase b ≠ .idle := by rw [hb]; nofun
  have hmem : b ∈ Finset.range r.nodes := Finset.mem_range.mpr (h.brick_lt b hne)
  have count := tally_update (p := Phase.Live) s.phase hmem p
  rw [hb, if_neg hlive, if_pos (show Phase.completing.Live from trivial)] at count
  refine ⟨fun c hc => ?_, fun c hc => ?_, ?_, fun c hc => ?_, h.grouped⟩
  · by_cases hcb : c = b
    · exact hcb ▸ h.brick_lt b hne
    · rw [Fop.move_phase_ne _ p hcb] at hc
      exact h.brick_lt c hc
  · have hcb : c ≠ b := fun heq => hne (heq ▸ h.remaining_idle c hc)
    rw [Fop.move_phase_ne _ p hcb]
    exact h.remaining_idle c hc
  · have := h.winds_eq
    simp only [Fop.move, ecComplete]
    omega
  · by_cases hcb : c = b
    · rw [hcb, Fop.move_phase_self]
      exact ⟨hidle, hwound⟩
    · rw [Fop.move_phase_ne _ p hcb]
      exact h.answered_phase c hc

/-- What the steps of the engine can do. -/
inductive Stepped (r : Request) (s : Fop) : Act → Fop → Prop
  | reply {b : ℕ} {a : Answer} (hb : s.phase b = .wound) :
      Stepped r s (.reply b a) (reply r b a s)
  | next {b : ℕ} {unlock : Finset ℕ} (hb : s.phase b = .dispatching unlock) :
      Stepped r s (.next b) ((ecDispatchNext r b s).move b (.returning unlock))
  | resume {b : ℕ} {unlock : Finset ℕ} (hb : s.phase b = .resuming unlock) :
      Stepped r s (.resume b) ({ s with resumes := s.resumes + 1 }.move b (.returning unlock))
  | unlock {b : ℕ} {unlock : Finset ℕ} (hb : s.phase b = .returning unlock) :
      Stepped r s (.unlock b) ({ s with unlocked := s.unlocked ∪ unlock }.move b .completing)
  | complete {b : ℕ} (hb : s.phase b = .completing) :
      Stepped r s (.complete b)
        ((ecComplete s).move b (if ecCompleteResumes s then .releasing else .finished))
  | release {b : ℕ} (hb : s.phase b = .releasing) :
      Stepped r s (.release b) ({ s with resumes := s.resumes + 1 }.move b .finished)
  | completeStale (hstale : 0 < s.stale) :
      Stepped r s .completeStale { ecComplete s with
        stale := s.stale - 1
        staleReleasing := s.staleReleasing + (ecCompleteResumes s).toNat }
  | releaseStale (hstale : 0 < s.staleReleasing) :
      Stepped r s .releaseStale { s with
        staleReleasing := s.staleReleasing - 1
        resumes := s.resumes + 1 }
  | waitWinds (hresumed : 0 < s.resumes) (hwinds : 0 < s.winds)
      (hwaiting : s.waitingWinds = false) :
      Stepped r s .waitWinds { s with waitingWinds := true }

/-- The inversion of `engineStep`. -/
theorem stepped_of_engineStep {act : Act} {s' : Fop} (h : engineStep r s act = some s') :
    Stepped r s act s' := by
  cases act with
  | reply b a =>
      rw [engineStep] at h
      split at h <;> cases h
      exact .reply ‹_›
  | next b =>
      rw [engineStep] at h
      split at h <;> cases h
      exact .next ‹_›
  | resume b =>
      rw [engineStep] at h
      split at h <;> cases h
      exact .resume ‹_›
  | unlock b =>
      rw [engineStep] at h
      split at h <;> cases h
      exact .unlock ‹_›
  | complete b =>
      rw [engineStep] at h
      split at h <;> cases h
      exact .complete ‹_›
  | release b =>
      rw [engineStep] at h
      split at h <;> cases h
      exact .release ‹_›
  | completeStale =>
      rw [engineStep] at h
      split at h <;> cases h
      exact .completeStale ‹_›
  | releaseStale =>
      rw [engineStep] at h
      split at h <;> cases h
      exact .releaseStale ‹_›
  | waitWinds =>
      rw [engineStep] at h
      split at h <;> cases h
      rename_i enabled
      exact .waitWinds enabled.1 enabled.2.1 enabled.2.2

/-- **Every step of the engine keeps its bookkeeping.** -/
theorem Stepped.sound (hcombine : r.combine ∈ combineCallbacks) (h : s.Sound r) {act : Act}
    {s' : Fop} (hstep : Stepped r s act s') : s'.Sound r := by
  -- changing only the ghost counters keeps it
  have ghost : ∀ (resumes staleReleasing : ℕ) (unlocked : Finset ℕ) (waiting : Bool),
      ({ s with
        resumes := resumes
        staleReleasing := staleReleasing
        unlocked := unlocked
        waitingWinds := waiting } : Fop).Sound r := fun _ _ _ _ =>
    ⟨h.brick_lt, h.remaining_idle, h.winds_eq, h.answered_phase, h.grouped⟩
  cases hstep with
  | reply hb => exact h.reply hcombine hb _
  | @next b unlock hb =>
      have hne : s.phase b ≠ .idle := by rw [hb]; nofun
      have hb' := (phase_ecDispatchNext h b hne).trans hb
      exact (h.dispatchNext b).move (by rw [hb']; nofun) (by nofun) (by nofun)
        (by rw [hb']; exact Iff.rfl)
  | resume hb =>
      exact (ghost _ _ _ _).move (by rw [hb]; nofun) (by nofun) (by nofun)
        (by rw [hb]; exact Iff.rfl)
  | unlock hb =>
      exact (ghost _ _ _ _).move (by rw [hb]; nofun) (by nofun) (by nofun)
        (by rw [hb]; exact Iff.rfl)
  | complete hb => split <;> exact h.complete hb (by nofun) (by nofun) id
  | release hb =>
      exact (ghost _ _ _ _).move (by rw [hb]; nofun) (by nofun) (by nofun)
        (by rw [hb]; exact Iff.rfl)
  | completeStale hstale =>
      refine ⟨h.brick_lt, h.remaining_idle, ?_, h.answered_phase, h.grouped⟩
      have := h.winds_eq
      simp only [ecComplete]
      omega
  | releaseStale => exact ghost _ _ _ _
  | waitWinds => exact ghost _ _ _ _

/-! ## The start -/

theorem dispatchStart_sound (r : Request) (mask : Finset ℕ) (minimum : ℤ)
    (stale expected first : ℕ) :
    (dispatchStart mask minimum stale expected first).Sound r where
  brick_lt := fun _ hne => absurd rfl hne
  remaining_idle := fun _ _ => rfl
  winds_eq := by
    rw [tally_eq_zero fun _ _ => id]
    exact (Nat.zero_add _).symm
  answered_phase := fun _ hb => absurd hb (Finset.notMem_empty _)
  grouped := grouped_nil _

theorem ecDispatchMask_sound {mask wound : Finset ℕ} {minimum : ℤ} {stale expected first : ℕ}
    (hmask : ∀ b ∈ mask, b < r.nodes) (hwound : wound ⊆ mask) :
    (ecDispatchMask wound (dispatchStart mask minimum stale expected first)).Sound r where
  brick_lt b hb := by
    by_cases hmem : b ∈ wound
    · exact hmask b (hwound hmem)
    · exact absurd (if_neg hmem) hb
  remaining_idle b hb := if_neg (Finset.mem_sdiff.mp hb).2
  winds_eq := by
    have live : (Finset.range r.nodes).filter (fun b => Phase.Live
        ((ecDispatchMask wound (dispatchStart mask minimum stale expected first)).phase b))
        = wound := by
      ext b
      rw [Finset.mem_filter, Finset.mem_range]
      simp only [ecDispatchMask]
      by_cases hmem : b ∈ wound
      · rw [if_pos hmem]
        exact iff_of_true ⟨hmask b (hwound hmem), trivial⟩ hmem
      · rw [if_neg hmem]
        exact iff_of_false And.right hmem
    rw [tally, live]
    exact add_comm _ _
  answered_phase := fun _ hb => absurd hb (Finset.notMem_empty _)
  grouped := grouped_nil _

theorem pickBricks_subset {nodes first count idx : ℕ} {remaining mask wound : Finset ℕ}
    (hmask : mask ⊆ remaining)
    (h : pickBricks nodes remaining first count idx mask = some wound) :
    wound ⊆ remaining ∧ mask ⊆ wound := by
  induction count generalizing idx mask with
  | zero =>
      cases h
      exact ⟨hmask, subset_rfl⟩
  | succ count ih =>
      rw [pickBricks] at h
      split at h
      · cases h
      · rename_i i hi
        obtain ⟨hwound, hpicked⟩ :=
          ih (Finset.insert_subset (childScan_some hi).2 hmask) h
        exact ⟨hwound, (Finset.subset_insert i mask).trans hpicked⟩

theorem ecDispatch_sound {mask : Finset ℕ} {minimum : ℤ} {idx stale : ℕ}
    (hmask : ∀ b ∈ mask, b < r.nodes) (h : ecDispatch r mask minimum idx stale = some s) :
    s.Sound r := by
  unfold ecDispatch at h
  split at h
  · cases h
    exact (dispatchStart_sound r mask minimum stale 1 idx).dispatchNext idx
  · cases h
    exact (dispatchStart_sound r mask minimum stale mask.card 0).dispatchNext 0
  · cases h
    exact ecDispatchMask_sound hmask subset_rfl
  · obtain ⟨wound, hwound, rfl⟩ := Option.map_eq_some_iff.mp h
    exact ecDispatchMask_sound hmask (pickBricks_subset (Finset.empty_subset _) hwound).1

/-- Every reachable state keeps the bookkeeping. -/
theorem reachable_sound (hcombine : r.combine ∈ combineCallbacks) {mask : Finset ℕ}
    (hmask : ∀ b ∈ mask, b < r.nodes) {minimum : ℤ} {idx stale : ℕ}
    (h : (engine r mask minimum idx stale).Reachable s) : s.Sound r :=
  h.invariant (Fop.Sound r) (fun _ hs => ecDispatch_sound hmask hs) fun _ _ _ hs hstep =>
    (stepped_of_engineStep hstep).sound hcombine hs

/-! ## The groups of every run -/

/-- **The answers are grouped at every moment.**  In every state that a dispatch
reaches, whatever the bricks answer and in whatever order: the groups are sorted
by non-increasing count, their masks are pairwise disjoint and cover exactly the
bricks whose answers were combined, the count of a group is the size of its mask
and the length of its chain, the answers of a chain are compatible, newest to
older and, when no dictionary repeats a key, both ways; and the first group,
which `ec_complete` looks at, is a largest one. -/
theorem cbkList_grouped (hcombine : r.combine ∈ combineCallbacks) {mask : Finset ℕ}
    (hmask : ∀ b ∈ mask, b < r.nodes) {minimum : ℤ} {idx stale : ℕ}
    (h : (engine r mask minimum idx stale).Reachable s) :
    Grouped r.combine s.answered s.cbkList ∧
      (∀ g ∈ s.cbkList, (∀ x ∈ g.chain, x.2.UniqueKeys) →
        g.chain.Pairwise fun x y => ecCombineCheck x.2 y.2 r.combine = true ∧
          ecCombineCheck y.2 x.2 r.combine = true) ∧
      ∀ g, s.cbkList.head? = some g → ∀ g' ∈ s.cbkList, g'.count ≤ g.count := by
  have grouped := (reachable_sound hcombine hmask h).grouped
  refine ⟨grouped, fun g hg unique => ?_, fun g hhead => ?_⟩
  · refine (grouped.ok g hg).compatible.imp_of_mem fun hx hy hxy => ⟨hxy, ?_⟩
    exact ecCombineCheck_symm hcombine (unique _ hx) (unique _ hy) hxy
  · cases hlist : s.cbkList with
    | nil =>
        rw [hlist] at hhead
        cases hhead
    | cons g₀ rest =>
        rw [hlist] at hhead grouped
        cases hhead
        exact grouped.count_le_head

/-- An answer without data. -/
def plainAnswer (opRet : ℤ) (opErrno : ℕ) : Answer where
  opRet := opRet
  opErrno := opErrno
  xdata := none
  dict := none
  fd := none
  iatt := fun _ => ⟨0, 0, .inval, 0, 0, 0, 0, 0⟩
  flock := ⟨0, 0, 0, 0, 0, []⟩
  vector := []

/-- Three bricks of which the second fails and the others agree. -/
theorem cbkList_grouped_three :
    ∃ s, (engine ⟨3, 2, .all, none, false⟩ {0, 1, 2} 2 0 0).Reachable s ∧
      s.cbkList.map (fun g => (g.count, g.mask)) = [(2, {0, 2}), (1, {1})] ∧
      Grouped none s.answered s.cbkList := by
  have start : (engine ⟨3, 2, .all, none, false⟩ {0, 1, 2} 2 0 0).Reachable
      (ecDispatchMask {0, 1, 2} (dispatchStart {0, 1, 2} 2 0 3 0)) := .start rfl
  have run := start.exec [.reply 1 (plainAnswer (-1) 5), .reply 0 (plainAnswer 0 0),
    .reply 2 (plainAnswer 0 0)] rfl
  exact ⟨_, run, by decide, (cbkList_grouped (by simp [combineCallbacks]) (by decide) run).1⟩

end GlusterFS.Ec
