import GlusterFS.Ec.Heal
import GlusterFS.Ec.Readv

/-!
# The data loop of a heal

`ec_manager_heal` copies a file window by window: `DATA_LOCK` locks the next window, `DATA_COPY` reads
it from the good bricks and writes it to the bad ones, `DATA_UNLOCK` unlocks it and moves on.  The
loop has no bound of its own.  It ends when a read has returned nothing (`heal->done`), or when a
child operation has failed and the manager enters `DATA_LOCK` with the error.

`DataLoop` is this part of the manager with arbitrary answers of the bricks to every child operation,
and `rounds` counts its turns.  The heal of `Ec.Heal` is one whose locks are granted and whose reads
succeed: its state `data` is one turn of the loop (`exec_healData`).  `rounds_le` bounds them by
`⌈size / heal->size⌉ + 1` for all runs in which

* some brick is left to be written whenever a window is copied.  `ec_heal_writev_cbk` takes the bricks
  that fail a write out of `heal->bad` and clears the error; with **no brick left**, `ec_heal_data`
  reads nothing, so nothing sets `heal->done`, and the loop never ends (`rounds_unbounded`);
* the bricks have no bytes behind the size that the lookup saw.  If the file has grown, the read
  behind that size **wraps** in `ec_readv_rebuild` and returns bytes, and the loop follows them.
-/

namespace GlusterFS.Ec

/-! ## The model -/

/-- Where the manager is, with the states after the loop. -/
inductive DataPc where
  | dataLock
  | dataCopy
  | dataUnlock
  /-- `EC_STATE_HEAL_POST_INODELK_LOCK`. -/
  | postInodelkLock
  /-- `-EC_STATE_HEAL_DATA_LOCK`, which goes on to dispatch. -/
  | dispatch
  deriving DecidableEq

/-- The part of `ec_heal_t` that the loop uses.  `error` is the error that `__ec_manager` passes on:
the next state is then entered with the other sign. -/
structure DataLoop where
  pc : DataPc
  error : Bool
  good : Finset ℕ
  bad : Finset ℕ
  done : Bool
  offset : ℕ
  rounds : ℕ
  deriving DecidableEq

/-- How the bricks answer a read of one window: `ok` if `fragments` of them agree, with the length of
their answers and the bricks that failed. -/
structure WindowRead where
  ok : Bool
  fsize : ℕ
  failed : Finset ℕ

/-- The answers to the child operations of one state. -/
inductive DataAnswer where
  /-- `inodelk` fails or not. -/
  | lock (failed : Bool)
  /-- The answers to the read, and the bricks that fail the write. -/
  | copy (read : WindowRead) (writeFailed : Finset ℕ)

/-- `op_ret` of the read: `ec_readv_rebuild` with the size that the lookup saw. -/
def windowSize (g : Geometry) (size offset fsize : ℕ) : ℕ :=
  if fsize = 0 then 0
  else (readLength g ⟨offset / g.fragments, 0, ecHealSize g, size⟩ (fsize * g.fragments)).2

/-- `ec_heal_data`, with `ec_heal_readv_cbk` and `ec_heal_writev_cbk`. -/
def ecHealData (g : Geometry) (size : ℕ) (read : WindowRead) (writeFailed : Finset ℕ)
    (h : DataLoop) : DataLoop :=
  if h.good ≠ ∅ ∧ h.bad ≠ ∅ then
    if read.ok then
      let h := { h with good := h.good \ read.failed }
      if 0 < windowSize g size h.offset read.fsize then { h with bad := h.bad \ writeFailed }
      else { h with done := true }
    else
      { h with good := h.good \ read.failed, done := true, error := true }
  else h

/-- `-EC_STATE_HEAL_DATA_COPY` and both signs of `EC_STATE_HEAL_DATA_UNLOCK`. -/
def unlockWindow (g : Geometry) (failed : Bool) (h : DataLoop) : DataLoop :=
  { h with
    pc := .dataLock
    error := h.error || failed
    offset := h.offset + ecHealSize g
    rounds := h.rounds + 1 }

/-- The states of the loop.  A read that succeeds has the answers of `fragments` good bricks, and no
more bytes than were asked for. -/
def dataStep (g : Geometry) (size : ℕ) (h : DataLoop) (a : DataAnswer) : Option DataLoop :=
  match h.pc, a with
  | .dataLock, .lock failed =>
      if h.error then some { h with pc := .dispatch }
      else if h.done then some { h with pc := .postInodelkLock }
      else some { h with pc := .dataCopy, error := failed }
  | .dataCopy, .lock failed => if h.error then some (unlockWindow g failed h) else none
  | .dataCopy, .copy read writeFailed =>
      if h.error = false ∧ read.fsize * g.fragments ≤ ecHealSize g ∧
          (read.ok = true → g.fragments ≤ (h.good \ read.failed).card) then
        some { ecHealData g size read writeFailed h with pc := .dataUnlock }
      else none
  | .dataUnlock, .lock failed => some (unlockWindow g failed h)
  | _, _ => none

/-- The loop, from where `ec_heal_needs_data_rebuild` has found something to do. -/
def dataLoop (g : Geometry) (size : ℕ) : Machine DataLoop DataAnswer where
  start h := h.pc = .dataLock ∧ h.error = false ∧ h.done = false ∧ h.good ≠ ∅ ∧ h.bad ≠ ∅ ∧
    h.offset = 0 ∧ h.rounds = 0
  step := dataStep g size

/-- The turns that the size needs. -/
def windows (g : Geometry) (size : ℕ) : ℕ := size ⌈/⌉ ecHealSize g

/-- A window is copied to some brick, and the bricks have no bytes behind the size. -/
def Ends (size : ℕ) (h : DataLoop) : DataAnswer → Prop
  | .copy read _ => h.bad ≠ ∅ ∧ (size < h.offset → read.fsize = 0)
  | .lock _ => True

/-! ## The bound -/

variable {g : Geometry} {size : ℕ}

theorem offset_scaled (g : Geometry) (n : ℕ) :
    n * ecHealSize g / g.fragments * g.fragments = n * ecHealSize g := by
  refine Nat.div_mul_cancel (Dvd.dvd.mul_left ?_ n)
  exact Dvd.intro_left _ rfl

/-- **The read at the size**, or behind it, returns nothing if the bricks have nothing there. -/
theorem windowSize_eq_zero {n fsize : ℕ} (hsize : size < 2 ^ 63) (hend : size ≤ n * ecHealSize g)
    (hfsize : fsize * g.fragments < 2 ^ 62)
    (hbehind : size < n * ecHealSize g → fsize = 0) :
    windowSize g size (n * ecHealSize g) fsize = 0 := by
  by_cases hzero : fsize = 0
  · rw [windowSize, if_pos hzero]
  · have hat : n * ecHealSize g = size :=
      le_antisymm (not_lt.mp fun h => hzero (hbehind h)) hend
    have hpos : 0 < fsize * g.fragments := Nat.mul_pos (Nat.pos_of_ne_zero hzero) g.fragments_pos
    rw [windowSize, if_neg hzero, readLength_of_le ((offset_scaled g n).trans hat) hpos (by omega)
      (Nat.add_zero size).le]
    dsimp only
    omega

/-- **The invariant**: a window behind the size is the last. -/
structure LoopOk (g : Geometry) (size : ℕ) (h : DataLoop) : Prop where
  offset : h.offset = h.rounds * ecHealSize g
  sources : h.error = false → h.done = false → h.good ≠ ∅
  rounds : match h.pc with
    | .dataLock => h.rounds ≤ windows g size + 1 ∧
        (h.error = false → h.done = false → h.rounds ≤ windows g size)
    | .dataCopy => h.rounds ≤ windows g size ∧ h.done = false
    | .dataUnlock => h.rounds ≤ windows g size ∧
        (h.error = false → h.done = false → h.rounds < windows g size)
    | .postInodelkLock | .dispatch => h.rounds ≤ windows g size + 1

theorem LoopOk.unlockWindow {h : DataLoop} (hok : LoopOk g size h) (failed : Bool)
    (hrounds : h.rounds ≤ windows g size)
    (hlast : h.error = false → h.done = false → h.rounds < windows g size) :
    LoopOk g size (unlockWindow g failed h) := by
  have herror : (h.error || failed) = false → h.error = false := fun hfalse =>
    (Bool.or_eq_false_iff.mp hfalse).1
  refine ⟨?_, fun hfalse hdone => hok.sources (herror hfalse) hdone, Nat.succ_le_succ hrounds,
    fun hfalse hdone => hlast (herror hfalse) hdone⟩
  change h.offset + ecHealSize g = (h.rounds + 1) * ecHealSize g
  rw [hok.offset, Nat.succ_mul]

/-- A window behind the size is the last one, and the others come before it. -/
theorem lt_windows_or {n : ℕ} (hn : n ≤ windows g size) :
    n < windows g size ∨ size ≤ n * ecHealSize g := by
  rcases Nat.lt_or_eq_of_le hn with hlt | rfl
  · exact Or.inl hlt
  · right
    rw [mul_comm]
    exact (ceilDiv_le_iff_le_mul (ecHealSize_pos g)).mp le_rfl

/-- **Copying a window.** -/
theorem LoopOk.ecHealData {h : DataLoop} (hok : LoopOk g size h) (hsize : size < 2 ^ 63)
    {read : WindowRead} {writeFailed : Finset ℕ} (hpc : h.pc = .dataCopy) (herror : h.error = false)
    (hfsize : read.fsize * g.fragments ≤ ecHealSize g)
    (hread : read.ok = true → g.fragments ≤ (h.good \ read.failed).card)
    (hends : Ends size h (.copy read writeFailed)) :
    LoopOk g size { ecHealData g size read writeFailed h with pc := .dataUnlock } := by
  obtain ⟨hrounds, hdone⟩ : h.rounds ≤ windows g size ∧ h.done = false := by
    have := hok.rounds
    rwa [hpc] at this
  have hsources := hok.sources herror hdone
  rw [Ec.ecHealData, if_pos ⟨hsources, hends.1⟩]
  by_cases hreadOk : read.ok = true
  swap
  · rw [if_neg hreadOk]
    exact ⟨hok.offset, fun hfalse => Bool.noConfusion hfalse, hrounds,
      fun hfalse => Bool.noConfusion hfalse⟩
  rw [if_pos hreadOk]
  have hgood : h.good \ read.failed ≠ ∅ := by
    intro hempty
    have hcard := hread hreadOk
    have hpos := g.fragments_pos
    rw [hempty, Finset.card_empty] at hcard
    omega
  by_cases hbytes : 0 < windowSize g size h.offset read.fsize
  · -- there were bytes, so the window starts before the size
    simp only [if_pos hbytes]
    refine ⟨hok.offset, fun _ _ => hgood, hrounds, fun _ _ => ?_⟩
    rcases lt_windows_or hrounds with hlt | hend
    · exact hlt
    · have hpage : ecHealSize g < 2 ^ 62 := by
        have hmax : g.fragments ≤ 16 := g.le_max
        rw [ecHealSize]
        omega
      rw [hok.offset] at hbytes
      have hnothing := windowSize_eq_zero hsize hend (hfsize.trans_lt hpage)
        (fun hlt => hends.2 (by rwa [hok.offset]))
      omega
  · simp only [if_neg hbytes]
    exact ⟨hok.offset, fun _ hfalse => Bool.noConfusion hfalse, hrounds,
      fun _ hfalse => Bool.noConfusion hfalse⟩

/-- **One state of the manager.** -/
theorem LoopOk.step {h h' : DataLoop} {a : DataAnswer} (hsize : size < 2 ^ 63)
    (hok : LoopOk g size h) (hends : Ends size h a) (hstep : dataStep g size h a = some h') :
    LoopOk g size h' := by
  have hrounds := hok.rounds
  obtain ⟨pc, error, good, bad, done, offset, rounds⟩ := h
  cases pc with
  | dataLock =>
      cases a with
      | copy read writeFailed => cases hstep
      | lock failed =>
          cases error with
          | true =>
              obtain rfl := Option.some.inj hstep
              exact ⟨hok.offset, hok.sources, hrounds.1⟩
          | false =>
              cases done with
              | true =>
                  obtain rfl := Option.some.inj hstep
                  exact ⟨hok.offset, hok.sources, hrounds.1⟩
              | false =>
                  obtain rfl := Option.some.inj hstep
                  exact ⟨hok.offset, fun _ _ => hok.sources rfl rfl, hrounds.2 rfl rfl, rfl⟩
  | dataCopy =>
      cases a with
      | lock failed =>
          cases error with
          | true =>
              obtain rfl := Option.some.inj hstep
              exact hok.unlockWindow failed hrounds.1 fun hfalse => Bool.noConfusion hfalse
          | false => cases hstep
      | copy read writeFailed =>
          simp only [dataStep] at hstep
          by_cases hanswers : error = false ∧ read.fsize * g.fragments ≤ ecHealSize g ∧
              (read.ok = true → g.fragments ≤ (good \ read.failed).card)
          · rw [if_pos hanswers] at hstep
            obtain rfl := Option.some.inj hstep
            exact hok.ecHealData hsize rfl hanswers.1 hanswers.2.1 hanswers.2.2 hends
          · rw [if_neg hanswers] at hstep
            cases hstep
  | dataUnlock =>
      cases a with
      | copy read writeFailed => cases hstep
      | lock failed =>
          obtain rfl := Option.some.inj hstep
          exact hok.unlockWindow failed hrounds.1 hrounds.2
  | postInodelkLock => cases hstep
  | dispatch => cases hstep

/-- **The loop ends.**  In every run in which a window is always copied to some brick and the bricks
have no bytes behind the size, there are at most `⌈size / heal->size⌉ + 1` turns. -/
theorem rounds_le (g : Geometry) {size : ℕ} (hsize : size < 2 ^ 63) {h : DataLoop}
    (hreach : (dataLoop g size).ReachableWhen (Ends size) h) : h.rounds ≤ windows g size + 1 := by
  have hok : LoopOk g size h := by
    refine Machine.ReachableWhen.invariant (LoopOk g size) ?_ ?_ hreach
    · rintro ⟨pc, error, good, bad, done, offset, rounds⟩ ⟨hpc, -, -, hgood, -, hoffset, hrounds⟩
      dsimp only at hpc hgood hoffset hrounds
      subst hpc hoffset hrounds
      exact ⟨(Nat.zero_mul _).symm, fun _ _ => hgood, Nat.zero_le _, fun _ _ => Nat.zero_le _⟩
    · intro h a h' hh hends hstep
      exact hh.step hsize hends hstep
  have hrounds := hok.rounds
  obtain ⟨pc, error, good, bad, done, offset, rounds⟩ := h
  cases pc with
  | dataLock => exact hrounds.1
  | dataCopy => exact hrounds.1.trans (Nat.le_succ _)
  | dataUnlock => exact hrounds.1.trans (Nat.le_succ _)
  | postInodelkLock => exact hrounds
  | dispatch => exact hrounds

/-! ## The turns of a heal -/

/-- A heal in front of a window, as the loop has it. -/
def Heal.loop (h : Heal) (rounds : ℕ) : DataLoop :=
  ⟨.dataLock, false, h.good, h.bad, h.done, h.offset, rounds⟩

/-- The loop and the heal agree on the bytes of a window of a padded file of `avail` bytes. -/
theorem windowSize_eq_readvSize {n fsize avail : ℕ} (hsize : size < 2 ^ 62) (havail : avail < 2 ^ 62)
    (hfsize : fsize * g.fragments = min (ecHealSize g) (avail - n * ecHealSize g)) :
    windowSize g size (n * ecHealSize g) fsize = readvSize g size avail (n * ecHealSize g) := by
  rw [windowSize, readvSize, ← hfsize]
  by_cases hzero : fsize = 0
  · rw [if_pos hzero, hzero, Nat.zero_mul]
    exact (if_pos rfl).symm
  · have hpos : 0 < fsize * g.fragments := Nat.mul_pos (Nat.pos_of_ne_zero hzero) g.fragments_pos
    simp only [if_neg hzero, if_neg hpos.ne']
    rcases Nat.lt_or_ge size (n * ecHealSize g) with hlt | hle
    · rw [readLength_of_lt (offset_scaled g n) hpos (by omega) (by omega) (by simpa using hlt)
        (by dsimp only; omega), if_pos hlt]
      rfl
    · rw [readLength_of_le (offset_scaled g n) hpos (by omega) (by simpa using hle),
        if_neg (not_lt.mpr hle)]
      dsimp only
      omega

theorem ecHealData_pc (read : WindowRead) (writeFailed : Finset ℕ) (h : DataLoop) (pc : DataPc) :
    ecHealData g size read writeFailed { h with pc := pc } =
      { ecHealData g size read writeFailed h with pc := pc } := by
  unfold ecHealData
  dsimp only
  split_ifs <;> rfl

/-- A turn in which the locks are granted and the sources that are left can be read. -/
theorem exec_turn {h : DataLoop} {read : WindowRead} {writeFailed : Finset ℕ} (hpc : h.pc = .dataLock)
    (herror : h.error = false) (hdone : h.done = false)
    (hfsize : read.fsize * g.fragments ≤ ecHealSize g)
    (hread : read.ok = true → g.fragments ≤ (h.good \ read.failed).card) :
    (dataLoop g size).exec h [.lock false, .copy read writeFailed, .lock false] =
      some (unlockWindow g false (ecHealData g size read writeFailed h)) := by
  have hlock : (dataLoop g size).step h (.lock false) = some { h with pc := .dataCopy } := by
    simp [dataLoop, dataStep, hpc, herror, hdone]
  have hcopy : (dataLoop g size).step { h with pc := .dataCopy } (.copy read writeFailed) =
      some { ecHealData g size read writeFailed h with pc := .dataUnlock } := by
    simp only [dataLoop, dataStep, ecHealData_pc]
    exact if_pos ⟨herror, hfsize, hread⟩
  rw [Machine.exec, List.foldlM_cons, hlock, Option.bind_eq_bind, Option.bind_some,
    List.foldlM_cons, hcopy]
  rfl

/-- **One step of a heal is one turn of the loop**, in which the locks are granted, the sources that
are left can be read, and the bricks answer with what they have of the window. -/
theorem exec_healData {v : HealSetting} {s : HealState} {o : HealOutcome} {n fsize : ℕ}
    (hreg : s.heal.iatt.type = .reg) (hdone : s.heal.done = false)
    (hoffset : s.heal.offset = n * ecHealSize v.g) (hsize : s.heal.preSize < 2 ^ 62)
    (havail : paddedSize v.g s.content < 2 ^ 62)
    (hsources : v.g.fragments ≤ (s.heal.good \ o.sourceFailed).card)
    (hfsize : fsize * v.g.fragments
      = min (ecHealSize v.g) (paddedSize v.g s.content - s.heal.offset)) :
    (dataLoop v.g s.heal.preSize).exec (s.heal.loop n)
        [.lock false, .copy ⟨true, fsize, o.sourceFailed⟩ o.failed, .lock false]
      = some ((healData v s o).heal.loop (n + 1)) := by
  have hbytes : windowSize v.g s.heal.preSize s.heal.offset fsize
      = readvSize v.g s.heal.preSize (paddedSize v.g s.content) s.heal.offset := by
    rw [hoffset] at hfsize ⊢
    exact windowSize_eq_readvSize hsize havail hfsize
  have hbad : s.heal.bad \ (s.heal.bad ∩ o.failed) = s.heal.bad \ o.failed :=
    Finset.sdiff_inter_self_left _ _
  rw [exec_turn rfl rfl hdone (hfsize.trans_le (min_le_left _ _)) fun _ => hsources]
  refine congrArg some ?_
  by_cases hwork : s.heal.good = ∅ ∨ s.heal.bad = ∅
  · have hnot : ¬ (s.heal.good ≠ ∅ ∧ s.heal.bad ≠ ∅) := fun h => hwork.elim h.1 h.2
    have hidle : s.heal.good = ∅ ∨ s.heal.bad = ∅ ∨ s.heal.iatt.type ≠ .reg :=
      hwork.imp_right Or.inl
    simp [healData, Heal.loop, unlockWindow, ecHealData, hdone, hnot, hidle]
  · have hbusy : ¬ (s.heal.good = ∅ ∨ s.heal.bad = ∅ ∨ s.heal.iatt.type ≠ .reg) := by
      simpa [hreg] using hwork
    have hboth : s.heal.good ≠ ∅ ∧ s.heal.bad ≠ ∅ := not_or.mp hwork
    simp only [healData, Heal.loop, unlockWindow, ecHealData, hdone, hbytes, if_pos hboth,
      if_neg hbusy, if_true, Bool.false_eq_true, if_false]
    split_ifs
    · simp [Heal.update, hbad]
    · simp

/-! ## Runs -/

/-- Bricks `0` and `1` are good, brick `2` is bad. -/
def freshLoop : DataLoop := ⟨.dataLock, false, {0, 1}, {2}, false, 0, 0⟩

theorem freshLoop_start (size : ℕ) : (dataLoop threeNodes size).start freshLoop :=
  ⟨rfl, rfl, rfl, by decide, by decide, rfl, rfl⟩

/-- A window of which the bricks answer `fsize` bytes, and the write fails on `writeFailed`. -/
def window (fsize : ℕ) (writeFailed : Finset ℕ) : List DataAnswer :=
  [.lock false, .copy ⟨true, fsize, ∅⟩ writeFailed, .lock false]

instance (size : ℕ) (h : DataLoop) (a : DataAnswer) : Decidable (Ends size h a) :=
  match a with
  | .copy read _ => inferInstanceAs (Decidable (h.bad ≠ ∅ ∧ (size < h.offset → read.fsize = 0)))
  | .lock _ => inferInstanceAs (Decidable True)

/-- A file of one byte takes two turns, and the loop is left. -/
theorem rounds_le_oneByte :
    ∃ h, (dataLoop threeNodes 1).ReachableWhen (Ends 1) h ∧ h.pc = .postInodelkLock ∧
      h.rounds ≤ windows threeNodes 1 + 1 := by
  have hresult : ((dataLoop threeNodes 1).execWhen (Ends 1) freshLoop
      (window 512 ∅ ++ window 0 ∅ ++ [.lock false])).map DataLoop.pc = some .postInodelkLock := by
    decide +kernel
  obtain ⟨h, hrun, hpc⟩ := Option.map_eq_some_iff.mp hresult
  have hreach := (Machine.ReachableWhen.start (freshLoop_start 1)).execWhen _ hrun
  exact ⟨h, hreach, hpc, rounds_le threeNodes (by decide) hreach⟩

/-- Nothing is left to be written. -/
def abandoned (n : ℕ) : DataLoop :=
  ⟨.dataLock, false, {0, 1}, ∅, false, n * ecHealSize threeNodes, n⟩

/-- **A turn without bad bricks** leaves everything as it was, but for the offset. -/
theorem exec_abandoned (n : ℕ) :
    (dataLoop threeNodes 1).exec (abandoned n) (window 0 ∅) = some (abandoned (n + 1)) := by
  have hoffset : n * ecHealSize threeNodes + ecHealSize threeNodes =
      (n + 1) * ecHealSize threeNodes := (Nat.succ_mul _ _).symm
  rw [abandoned, abandoned, ← hoffset]
  rfl

theorem reachable_abandoned (n : ℕ) : (dataLoop threeNodes 1).Reachable (abandoned (n + 1)) := by
  induction n with
  | zero =>
      refine Machine.Reachable.exec (.start (freshLoop_start 1)) (window 512 {2}) ?_
      decide +kernel
  | succ n ih => exact Machine.Reachable.exec ih _ (exec_abandoned _)

/-- **The loop goes on for ever** once the only bad brick has failed a write; and it goes on while
the bricks have bytes behind the size. -/
theorem rounds_unbounded :
    (∀ n, ∃ h, (dataLoop threeNodes 1).Reachable h ∧ h.bad = ∅ ∧ n < h.rounds) ∧
      ∃ h, (dataLoop threeNodes 1).Reachable h ∧ h.bad = {2} ∧
        windows threeNodes 1 + 1 < h.rounds := by
  refine ⟨fun n => ⟨abandoned (n + 1), reachable_abandoned n, rfl, n.lt_succ_self⟩, ?_⟩
  have hresult : ((dataLoop threeNodes 1).exec freshLoop
      (window 512 ∅ ++ window 512 ∅ ++ window 512 ∅)).map (fun h => (h.bad, h.rounds)) =
        some ({2}, 3) := by
    decide +kernel
  obtain ⟨h, hrun, hvalues⟩ := Option.map_eq_some_iff.mp hresult
  obtain ⟨hbad, hrounds⟩ := Prod.mk.inj hvalues
  have hreach := Machine.Reachable.exec (.start (freshLoop_start 1)) _ hrun
  refine ⟨h, hreach, hbad, ?_⟩
  rw [hrounds]
  decide +kernel

end GlusterFS.Ec
