import Mathlib
import GlusterFS.Lib.Machine
import GlusterFS.Ec.Volume

/-!
# Up and down events of a disperse volume

`notify` keeps a bit for every child that is up and their number.  The volume itself goes up
when all its children are up, or when a timer that was started with the child number `fragments`
fires; it goes down with the child that leaves fewer than `fragments`.

The three paths test the number at different moments: `ec_notify_up` after its change and for
equality, `ec_notify_down` before its change and for equality, `ec_up` for an inequality.
`EcNotify.Consistent` is what they keep together.  As a test for equality is safe only while the
number moves by one and stays at or below `nodes`, it rests on `Counted`: the number is that of the
bits of children in `xl_up`.
-/

namespace GlusterFS.Ec

/-- `EAGAIN`. -/
def eAgain : ℕ := 11

/-- `ENOMEM`. -/
def eNoMem : ℕ := 12

/-- The events that `notify` tells apart. -/
inductive GfEvent
  | childUp
  | childDown
  | other
  deriving DecidableEq, Repr

/-- The fields of `ec_t` that `notify` uses, and the events that went upwards, the oldest
first. -/
structure EcNotify where
  xlUp : BitVec 64
  xlUpCount : ℕ
  up : Bool
  /-- `ec->timer` is not `NULL`. -/
  timer : Bool
  sent : List GfEvent
  deriving DecidableEq, Repr

namespace EcNotify

/-- After `init`. -/
def initial : EcNotify :=
  { xlUp := 0, xlUpCount := 0, up := false, timer := false, sent := [] }

/-- `default_notify`. -/
def defaultNotify (ec : EcNotify) (event : GfEvent) : EcNotify :=
  { ec with sent := ec.sent ++ [event] }

/-- `gf_timer_call_cancel` and the reset of `ec->timer`. -/
def cancelTimer (ec : EcNotify) : EcNotify := { ec with timer := false }

variable (g : Geometry)

/-- `ec_up`. -/
def ecUp (ec : EcNotify) : EcNotify :=
  let ec := ec.cancelTimer
  if ec.up = false ∧ g.fragments ≤ ec.xlUpCount then
    { ec with up := true }.defaultNotify .childUp
  else ec

/-- `ec_down`. -/
def ecDown (ec : EcNotify) : EcNotify :=
  let ec := ec.cancelTimer
  if ec.up = true then { ec with up := false }.defaultNotify .childDown else ec

/-- `ec_notify_up_cbk`: a timer that was cancelled too late finds no timer. -/
def ecNotifyUpCbk (ec : EcNotify) : EcNotify := if ec.timer = true then ec.ecUp g else ec

/-- `ec_notify_up` and the error it returns; `created` is whether `gf_timer_call_after` gives a
timer. -/
def ecNotifyUp (created : Bool) (ec : EcNotify) (idx : ℕ) : EcNotify × ℕ :=
  if (ec.xlUp >>> idx) &&& 1#64 = 0 then
    let ec := { ec with xlUp := ec.xlUp ||| (1#64 <<< idx), xlUpCount := ec.xlUpCount + 1 }
    if ec.xlUpCount = g.fragments then
      ({ ec with timer := created }, if created = true then eAgain else eNoMem)
    else if ec.xlUpCount = g.nodes then (ec.ecUp g, eAgain)
    else (ec, eAgain)
  else (ec, eAgain)

/-- `ec_notify_down` and the error it returns. -/
def ecNotifyDown (ec : EcNotify) (idx : ℕ) : EcNotify × ℕ :=
  if (ec.xlUp >>> idx) &&& 1#64 ≠ 0 then
    let before := ec.xlUpCount
    let ec := { ec with xlUp := ec.xlUp ^^^ (1#64 <<< idx), xlUpCount := ec.xlUpCount - 1 }
    if before = g.fragments then (ec.ecDown, eAgain) else (ec, eAgain)
  else (ec, eAgain)

/-- `notify` with the translator `data`; the child `idx` of the volume is the translator `idx`. -/
def notify (created : Bool) (ec : EcNotify) (event : GfEvent) (data : ℕ) : EcNotify :=
  let idx := (List.range g.nodes).findIdx (· == data)
  let (ec, error) :=
    if idx < g.nodes then
      match event with
      | .childUp => ec.ecNotifyUp g created idx
      | .childDown => ec.ecNotifyDown g idx
      | .other => (ec, 0)
    else (ec, 0)
  if error = 0 then ec.defaultNotify event else ec

end EcNotify

/-- What reaches the volume. -/
inductive Delivery
  /-- An event of the child `idx`; `created` is whether a timer can be created. -/
  | child (event : GfEvent) (idx : ℕ) (created : Bool)
  /-- The call of a timer, which may come when the timer is gone. -/
  | timer
  deriving DecidableEq, Repr

/-- The volume and what reaches it. -/
def notifyMachine (g : Geometry) : Machine EcNotify Delivery where
  start ec := ec = .initial
  step ec d :=
    match d with
    | .child event idx created =>
        if idx < g.nodes then some (ec.notify g created event idx) else none
    | .timer => some (ec.ecNotifyUpCbk g)

/-- Timers can be created. -/
def Delivery.Created : Delivery → Bool
  | .child _ _ created => created
  | .timer => true

/-! ## The mask -/

/-- The children that are up. -/
def upSet (mask : BitVec 64) : Finset (Fin 64) := Finset.univ.filter fun i => mask.getLsbD i

/-- The number of set bits. -/
def bitsCount (mask : BitVec 64) : ℕ := (upSet mask).card

theorem mem_upSet {mask : BitVec 64} {i : Fin 64} : i ∈ upSet mask ↔ mask.getLsbD i = true := by
  simp [upSet]

theorem shift_and_one (mask : BitVec 64) (idx : ℕ) :
    (mask >>> idx) &&& 1#64 = 0 ↔ mask.getLsbD idx = false := by
  have hbit : (mask >>> idx).getLsbD 0 = mask.getLsbD idx := by simp
  rw [BitVec.and_one_eq_setWidth_ofBool_getLsbD, hbit]
  cases mask.getLsbD idx <;> decide

theorem getLsbD_one_shiftLeft {idx : ℕ} (hidx : idx < 64) (i : Fin 64) :
    (1#64 <<< idx).getLsbD i = decide (i = (⟨idx, hidx⟩ : Fin 64)) := by
  have hi := i.isLt
  rw [BitVec.getLsbD_shiftLeft, BitVec.getLsbD_one, Bool.eq_iff_iff]
  simp only [Bool.and_eq_true, decide_eq_true_eq, Bool.not_eq_true', decide_eq_false_iff_not,
    Fin.ext_iff]
  omega

theorem upSet_or (mask : BitVec 64) {idx : ℕ} (hidx : idx < 64) :
    upSet (mask ||| (1#64 <<< idx)) = insert ⟨idx, hidx⟩ (upSet mask) := by
  ext i
  simp only [mem_upSet, BitVec.getLsbD_or, getLsbD_one_shiftLeft hidx, Finset.mem_insert,
    Bool.or_eq_true, decide_eq_true_eq]
  exact or_comm

theorem upSet_xor {mask : BitVec 64} {idx : ℕ} (hidx : idx < 64)
    (hset : mask.getLsbD idx = true) :
    upSet (mask ^^^ (1#64 <<< idx)) = (upSet mask).erase ⟨idx, hidx⟩ := by
  ext i
  simp only [mem_upSet, BitVec.getLsbD_xor, getLsbD_one_shiftLeft hidx, Finset.mem_erase]
  by_cases hi : i = ⟨idx, hidx⟩
  · simp [hi, hset]
  · simp [hi]

/-- The mask has a bit for every child. -/
theorem Geometry.nodes_lt_mask (g : Geometry) : g.nodes < 64 := by
  have := g.majority
  have : g.fragments ≤ 16 := g.le_max
  omega

/-- `xl_up_count` counts the bits of `xl_up`, which are bits of children. -/
structure Counted (g : Geometry) (mask : BitVec 64) (count : ℕ) : Prop where
  count_eq : count = bitsCount mask
  below : ∀ i ∈ upSet mask, i < g.nodes

namespace Counted

variable {g : Geometry} {mask : BitVec 64} {count idx : ℕ}

theorem le_nodes (h : Counted g mask count) : count ≤ g.nodes := by
  have hsub : (upSet mask).map Fin.valEmbedding ⊆ Finset.range g.nodes := by
    intro i hi
    obtain ⟨j, hj, rfl⟩ := Finset.mem_map.mp hi
    exact Finset.mem_range.mpr (h.below j hj)
  have hcard := Finset.card_le_card hsub
  rwa [Finset.card_map, Finset.card_range, ← bitsCount, ← h.count_eq] at hcard

/-- Setting a clear bit. -/
theorem set (h : Counted g mask count) (hidx : idx < g.nodes)
    (hclear : mask.getLsbD idx = false) : Counted g (mask ||| (1#64 <<< idx)) (count + 1) := by
  have hwide := hidx.trans g.nodes_lt_mask
  have hnot : (⟨idx, hwide⟩ : Fin 64) ∉ upSet mask := by simp [mem_upSet, hclear]
  constructor
  · rw [bitsCount, upSet_or _ hwide, Finset.card_insert_of_notMem hnot, h.count_eq, bitsCount]
  · intro i hi
    rw [upSet_or _ hwide, Finset.mem_insert] at hi
    obtain rfl | hi := hi
    · exact hidx
    · exact h.below i hi

/-- Clearing a set bit. -/
theorem clear (h : Counted g mask count) (hidx : idx < g.nodes)
    (hset : mask.getLsbD idx = true) :
    0 < count ∧ Counted g (mask ^^^ (1#64 <<< idx)) (count - 1) := by
  have hwide := hidx.trans g.nodes_lt_mask
  have hmem : (⟨idx, hwide⟩ : Fin 64) ∈ upSet mask := mem_upSet.mpr hset
  refine ⟨h.count_eq ▸ Finset.card_pos.mpr ⟨_, hmem⟩, ?_, ?_⟩
  · rw [bitsCount, upSet_xor hwide hset, Finset.card_erase_of_mem hmem, h.count_eq, bitsCount]
  · intro i hi
    rw [upSet_xor hwide hset] at hi
    exact h.below i (Finset.mem_of_mem_erase hi)

end Counted

/-! ## What the events keep -/

/-- The first `n` of the events up, down, up, ... -/
def alternating (n : ℕ) : List GfEvent :=
  (List.range n).map fun i => if i % 2 = 0 then .childUp else .childDown

theorem alternating_succ (n : ℕ) :
    alternating (n + 1) = alternating n ++ [if n % 2 = 0 then .childUp else .childDown] := by
  simp [alternating, List.range_succ]

/-- The up and down events that the volume sent. -/
def EcNotify.notifications (ec : EcNotify) : List GfEvent :=
  ec.sent.filter fun event => decide (event ≠ .other)

/-- The volume has sent up, down, up, ... and ended with what it is. -/
def EcNotify.Alternates (ec : EcNotify) : Prop :=
  ∃ n, ec.notifications = alternating n ∧ (ec.up = true ↔ n % 2 = 1)

/-- What holds between two events. -/
structure EcNotify.Consistent (g : Geometry) (ec : EcNotify) : Prop where
  counted : Counted g ec.xlUp ec.xlUpCount
  up : ec.up = true → g.fragments ≤ ec.xlUpCount
  timer : ec.timer = true → ec.up = false ∧ g.fragments ≤ ec.xlUpCount
  all : ec.xlUpCount = g.nodes → ec.up = true
  enough : g.fragments ≤ ec.xlUpCount → ec.up = true ∨ ec.timer = true
  alternates : ec.Alternates

namespace EcNotify

variable {g : Geometry} {ec : EcNotify}

/-- Going from down to up. -/
theorem Alternates.goUp (h : ec.Alternates) (hdown : ec.up = false) :
    ({ ec with timer := false, up := true }.defaultNotify .childUp).Alternates := by
  obtain ⟨n, hsent, hup⟩ := h
  have heven : n % 2 = 0 := by
    have : ¬ n % 2 = 1 := fun hodd => by simp [hdown] at hup; omega
    omega
  refine ⟨n + 1, ?_, ?_⟩
  · rw [alternating_succ, if_pos heven, ← hsent]
    simp [notifications, defaultNotify]
  · simp only [defaultNotify, true_iff]
    omega

/-- Going from up to down. -/
theorem Alternates.goDown (h : ec.Alternates) (hup : ec.up = true) :
    ({ ec with timer := false, up := false }.defaultNotify .childDown).Alternates := by
  obtain ⟨n, hsent, hodd⟩ := h
  have hodd := hodd.mp hup
  refine ⟨n + 1, ?_, ?_⟩
  · rw [alternating_succ, if_neg (by omega), ← hsent]
    simp [notifications, defaultNotify]
  · simp only [defaultNotify, Bool.false_eq_true, false_iff]
    omega

/-- A volume that is up with enough children needs no timer. -/
theorem Consistent.of_up (hcount : Counted g ec.xlUp ec.xlUpCount) (hup : ec.up = true)
    (htimer : ec.timer = false) (henough : g.fragments ≤ ec.xlUpCount) (hsent : ec.Alternates) :
    ec.Consistent g :=
  ⟨hcount, fun _ => henough, by simp [htimer], fun _ => hup, fun _ => .inl hup, hsent⟩

/-- A volume with too few children is down and has no timer. -/
theorem Consistent.of_down (hcount : Counted g ec.xlUp ec.xlUpCount) (hup : ec.up = false)
    (htimer : ec.timer = false) (hfew : ec.xlUpCount < g.fragments) (hsent : ec.Alternates) :
    ec.Consistent g := by
  have := g.fragments_lt
  refine ⟨hcount, by simp [hup], by simp [htimer], ?_, ?_, hsent⟩ <;> omega

/-- `ec_up` with enough children. -/
theorem ecUp_consistent (hcount : Counted g ec.xlUp ec.xlUpCount)
    (henough : g.fragments ≤ ec.xlUpCount) (hsent : ec.Alternates) :
    (ec.ecUp g).Consistent g := by
  unfold ecUp
  cases hup : ec.up with
  | true =>
      simp only [cancelTimer, hup, Bool.true_eq_false, false_and, if_false]
      exact .of_up hcount rfl rfl henough (by simpa [Alternates, notifications, hup] using hsent)
  | false =>
      simp only [cancelTimer, hup, henough, and_self, if_true]
      exact .of_up hcount rfl rfl henough (hsent.goUp hup)

/-- `ec_down` with too few children. -/
theorem ecDown_consistent (hcount : Counted g ec.xlUp ec.xlUpCount)
    (hfew : ec.xlUpCount < g.fragments) (hsent : ec.Alternates) : ec.ecDown.Consistent g := by
  unfold ecDown
  cases hup : ec.up with
  | false =>
      simp only [cancelTimer, hup, Bool.false_eq_true, if_false]
      exact .of_down hcount rfl rfl hfew (by simpa [Alternates, notifications, hup] using hsent)
  | true =>
      simp only [cancelTimer, hup, if_true]
      exact .of_down hcount rfl rfl hfew (hsent.goDown hup)

namespace Consistent

theorem initial (g : Geometry) : EcNotify.initial.Consistent g := by
  have := g.two_le
  refine .of_down ?_ rfl rfl ?_ ⟨0, rfl, by decide⟩
  · constructor <;> simp [EcNotify.initial, bitsCount, upSet]
  · show 0 < g.fragments
    omega

/-- Fewer than `fragments` children: the volume is down, and no timer runs. -/
theorem down (h : ec.Consistent g) (hfew : ec.xlUpCount < g.fragments) :
    ec.up = false ∧ ec.timer = false := by
  constructor
  · by_contra hup
    have := h.up (by simpa using hup)
    omega
  · by_contra htimer
    have := (h.timer (by simpa using htimer)).2
    omega

/-- The call of a timer. -/
theorem upCbk (h : ec.Consistent g) : (ec.ecNotifyUpCbk g).Consistent g := by
  unfold ecNotifyUpCbk
  split_ifs with htimer
  · exact ecUp_consistent h.counted (h.timer htimer).2 h.alternates
  · exact h

/-- A child comes up, and the timer can be created. -/
theorem notifyUp (h : ec.Consistent g) {idx : ℕ} (hidx : idx < g.nodes) :
    (ec.ecNotifyUp g true idx).1.Consistent g ∧ (ec.ecNotifyUp g true idx).2 = eAgain := by
  have hlt := g.fragments_lt
  unfold ecNotifyUp
  by_cases hbit : (ec.xlUp >>> idx) &&& 1#64 = 0
  swap
  · rw [if_neg hbit]
    exact ⟨h, rfl⟩
  have hcount := h.counted.set hidx ((shift_and_one _ _).mp hbit)
  simp only [if_pos hbit, if_true]
  split_ifs with hfirst hall
  · -- the timer starts: one child less was too few
    obtain ⟨hdown, -⟩ := h.down (by omega)
    refine ⟨⟨hcount, by simp [hdown], fun _ => ⟨hdown, hfirst.ge⟩, ?_, fun _ => .inr rfl,
      h.alternates⟩, rfl⟩
    intro hnodes
    exact absurd (hfirst.symm.trans hnodes) hlt.ne
  · refine ⟨ecUp_consistent hcount ?_ h.alternates, rfl⟩
    show g.fragments ≤ ec.xlUpCount + 1
    omega
  · -- nothing is due: the side of `fragments` stays
    have hside : g.fragments ≤ ec.xlUpCount + 1 → g.fragments ≤ ec.xlUpCount := by omega
    refine ⟨⟨hcount, fun hup => ?_, fun htimer => ?_, fun hnodes => absurd hnodes hall,
      fun henough => h.enough (hside henough), h.alternates⟩, rfl⟩
    · exact Nat.le_succ_of_le (h.up hup)
    · exact ⟨(h.timer htimer).1, Nat.le_succ_of_le (h.timer htimer).2⟩

/-- A child goes down. -/
theorem notifyDown (h : ec.Consistent g) {idx : ℕ} (hidx : idx < g.nodes) :
    (ec.ecNotifyDown g idx).1.Consistent g ∧ (ec.ecNotifyDown g idx).2 = eAgain := by
  unfold ecNotifyDown
  by_cases hbit : (ec.xlUp >>> idx) &&& 1#64 = 0
  · rw [if_neg (not_not.mpr hbit)]
    exact ⟨h, rfl⟩
  have hset : ec.xlUp.getLsbD idx = true := by
    simpa using mt (shift_and_one _ _).mpr hbit
  obtain ⟨hpos, hcount⟩ := h.counted.clear hidx hset
  rw [if_pos hbit]
  dsimp only
  split_ifs with hlast
  · refine ⟨ecDown_consistent hcount ?_ h.alternates, rfl⟩
    show ec.xlUpCount - 1 < g.fragments
    omega
  by_cases hfew : ec.xlUpCount < g.fragments
  · obtain ⟨hdown, htimer⟩ := h.down hfew
    exact ⟨.of_down hcount hdown htimer (lt_of_le_of_lt (Nat.sub_le _ _) hfew) h.alternates, rfl⟩
  · -- at least `fragments` children are left
    have henough : g.fragments ≤ ec.xlUpCount - 1 := by omega
    have hbefore : g.fragments ≤ ec.xlUpCount := by omega
    have hnodes := h.counted.le_nodes
    refine ⟨⟨hcount, fun _ => henough, fun htimer => ⟨(h.timer htimer).1, henough⟩, ?_,
      fun _ => h.enough hbefore, h.alternates⟩, rfl⟩
    intro hall
    have : ec.xlUpCount - 1 = g.nodes := hall
    omega

/-- An event that goes through. -/
theorem pass (h : ec.Consistent g) : (ec.defaultNotify .other).Consistent g := by
  refine ⟨h.counted, h.up, h.timer, h.all, h.enough, ?_⟩
  obtain ⟨n, hsent, hup⟩ := h.alternates
  exact ⟨n, by simpa [notifications, defaultNotify] using hsent, hup⟩

/-- An event of a child. -/
theorem notify (h : ec.Consistent g) (event : GfEvent) {idx : ℕ} (hidx : idx < g.nodes) :
    (ec.notify g true event idx).Consistent g := by
  have hfind : (List.range g.nodes).findIdx (· == idx) = idx := by
    rw [List.findIdx_eq (by simpa using hidx)]
    simp only [List.getElem_range, beq_self_eq_true, beq_eq_false_iff_ne, true_and]
    exact fun j hj => hj.ne
  unfold EcNotify.notify
  rw [hfind]
  simp only [if_pos hidx]
  cases event with
  | childUp =>
      obtain ⟨hnext, herror⟩ := h.notifyUp hidx
      simpa [herror, eAgain] using hnext
  | childDown =>
      obtain ⟨hnext, herror⟩ := h.notifyDown hidx
      simpa [herror, eAgain] using hnext
  | other => simpa using h.pass

/-- **One delivery.** -/
theorem step (h : ec.Consistent g) {d : Delivery} (hcreated : d.Created = true) {ec' : EcNotify}
    (hstep : (notifyMachine g).step ec d = some ec') : ec'.Consistent g := by
  cases d with
  | child event idx created =>
      obtain ⟨hidx, rfl⟩ := by simpa [notifyMachine] using hstep
      obtain rfl : created = true := hcreated
      exact h.notify event hidx
  | timer =>
      obtain rfl := by simpa [notifyMachine] using hstep
      exact h.upCbk

end Consistent

end EcNotify

/-- Timers can be created. -/
abbrev TimersCreated (_ : EcNotify) (d : Delivery) : Prop := d.Created = true

/-- **The counter, the state and the timer of a disperse volume agree after any events of its
children and its timers, and what it sends upwards alternates.** -/
theorem notify_consistent {g : Geometry} {ec : EcNotify}
    (h : (notifyMachine g).ReachableWhen TimersCreated ec) :
    ec.xlUpCount = bitsCount ec.xlUp ∧
      (ec.up = true → g.fragments ≤ ec.xlUpCount) ∧
      (ec.timer = true → ec.up = false ∧ g.fragments ≤ ec.xlUpCount) ∧
      (ec.xlUpCount = g.nodes → ec.up = true) ∧
      (g.fragments ≤ ec.xlUpCount → ec.up = true ∨ ec.timer = true) ∧
      ∃ n, ec.notifications = alternating n := by
  have hinv : ec.Consistent g :=
    h.invariant (EcNotify.Consistent g) (by rintro _ rfl; exact .initial g)
      fun _ _ _ hs hok hstep => hs.step hok hstep
  obtain ⟨n, hsent, -⟩ := hinv.alternates
  exact ⟨hinv.counted.count_eq, hinv.up, hinv.timer, hinv.all, hinv.enough, n, hsent⟩

/-- Two children come up, the timer fires, and one of them goes down again. -/
theorem notify_flapping :
    ∃ ec, (notifyMachine threeNodes).ReachableWhen TimersCreated ec ∧
      ec.sent = [.childUp, .childDown] ∧ ec.xlUpCount = 1 ∧ ec.xlUpCount = bitsCount ec.xlUp := by
  have hstart : (notifyMachine threeNodes).ReachableWhen TimersCreated .initial := .start rfl
  have hrun : ((notifyMachine threeNodes).execWhen TimersCreated .initial
      [.child .childUp 0 true, .child .childUp 2 true, .timer, .child .childDown 0 true]).map
      (fun ec => (ec.sent, ec.xlUpCount)) = some ([.childUp, .childDown], 1) := by decide +kernel
  obtain ⟨ec, hec, heq⟩ := Option.map_eq_some_iff.mp hrun
  have hreach := hstart.execWhen _ hec
  obtain ⟨hsent, hcount⟩ := Prod.mk.inj heq
  exact ⟨ec, hreach, hsent, hcount, (notify_consistent hreach).1⟩

end GlusterFS.Ec
