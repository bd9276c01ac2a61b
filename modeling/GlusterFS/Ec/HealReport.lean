import GlusterFS.Ec.Heal

/-!
# Which bricks a heal reports as fixed

The third mask of the heal callback is `heal->fixed`, a copy of `heal->bad` at the end of
the data loop.  Every callback of a child operation takes the bricks that failed out of
`heal->bad`, but `ec_heal_needs_data_rebuild` assigns the mask anew **after** the states
that change extended attributes, attributes and open the files, from groups that know
nothing of these failures; and the last `setattr` comes after the copy.

So a brick can be reported although an operation failed on it.
What remains true is the part the masks do keep: when no operation before the data loop
fails on a brick that has the file, and the last one does not fail, every failure of a
window write is seen in the report.
-/

namespace GlusterFS.Ec

open Striped

/-! ## The masks of the heal -/

/-- `ec_heal_needs_data_rebuild` takes no brick of the answer. -/
theorem Heal.rebuildMask_subset (h : Heal) : h.rebuildMask ⊆ h.lookup.others := by
  intro b hb
  obtain ⟨hmem, hdiffers⟩ := Finset.mem_filter.mp hb
  rcases Finset.mem_union.mp hmem with hanswer | hother
  · simp only [Heal.cbkSize, Heal.cbkVersion, if_pos hanswer] at hdiffers
    simp at hdiffers
  · exact hother

/-- `ec_heal_needs_data_rebuild` changes `heal->bad` only. -/
theorem Heal.needsDataRebuild_snd (h : Heal) :
    h.needsDataRebuild.2 = h ∨ h.needsDataRebuild.2 = { h with bad := h.rebuildMask } := by
  unfold Heal.needsDataRebuild
  split
  · exact .inl rfl
  · exact .inr rfl

theorem Heal.needsDataRebuild_fst {h : Heal} (hneeded : h.needsDataRebuild.1 = true) :
    h.good ≠ ∅ ∧ h.iatt.type = .reg ∧ h.rebuildMask ≠ ∅ ∧
      h.needsDataRebuild.2 = { h with bad := h.rebuildMask } := by
  unfold Heal.needsDataRebuild at hneeded ⊢
  split at hneeded
  · cases hneeded
  · rename_i hcond
    rw [not_or, not_not] at hcond
    rw [if_neg (by rw [not_or, not_not]; exact hcond)]
    exact ⟨hcond.1, hcond.2, by simpa using hneeded, rfl⟩

/-! ## Failures and masks -/

/-- No operation that changes a brick has failed on a brick that can still be reported. -/
def Heal.Clean (h : Heal) : Prop :=
  match h.phase with
  | .entryLookup | .entryPrepare | .preInodeLookup => h.failures = ∅ ∧ h.fixed = ∅
  | .xattributesRemove | .xattributesSet | .attributes | .openFiles | .unlock =>
      Disjoint h.failures h.lookup.others ∧ h.fixed = ∅
  | .data | .postInodeLookup => Disjoint h.failures h.bad
  | .setattr | .reported => Disjoint h.failures h.fixed
  | .stopped => True

/-- The operations before the data loop fail on no brick that has the file, and the last
`setattr` fails on no brick. -/
def metadataAnswered (s : HealState) : HealAction → Prop
  | .heal o =>
      match s.heal.phase with
      | .xattributesRemove | .xattributesSet | .attributes | .openFiles =>
          Disjoint o.failed s.heal.lookup.others
      | .setattr => Disjoint o.failed s.heal.fixed
      | _ => True
  | .stop | .write _ _ _ => True

instance (s : HealState) (a : HealAction) : Decidable (metadataAnswered s a) := by
  cases a with
  | heal o =>
      simp only [metadataAnswered]
      split <;> infer_instance
  | stop => exact .isTrue trivial
  | write _ _ _ => exact .isTrue trivial

/-- Failures on bricks that do not have the file. -/
theorem disjoint_update {failures others targets failed : Finset ℕ}
    (h : Disjoint failures others) (hfailed : Disjoint failed others) :
    Disjoint (failures ∪ (targets ∩ failed)) others :=
  Finset.disjoint_union_left.mpr
    ⟨h, hfailed.mono_left Finset.inter_subset_right⟩

theorem lookupResume_keeps (h : Heal) (bricks : ℕ → Entry) (listXattr : Bool)
    (asked : Finset ℕ) (b : ℕ) :
    (h.lookupResume bricks listXattr asked b).failures = h.failures ∧
      (h.lookupResume bricks listXattr asked b).fixed = h.fixed ∧
      (h.lookupResume bricks listXattr asked b).offset = h.offset := by
  unfold Heal.lookupResume
  cases bricks b with
  | absent _ => exact ⟨rfl, rfl, rfl⟩
  | present _ => exact ⟨rfl, rfl, rfl⟩

/-- A lookup records no failure. -/
theorem healLookup_keeps {v : HealSetting} {s : HealState} {listXattr : Bool}
    {asked : Finset ℕ} {h : Heal} (hlookup : healLookup v s listXattr asked = some h) :
    h.failures = s.heal.failures ∧ h.fixed = s.heal.fixed ∧ h.offset = s.heal.offset := by
  obtain ⟨b, -, rfl⟩ := Option.map_eq_some_iff.mp hlookup
  exact lookupResume_keeps s.heal s.bricks listXattr asked b

section Steps

variable {v : HealSetting} {s s' : HealState} {o : HealOutcome}

theorem healOpen_clean (hphase : s.heal.phase = .openFiles) (h : s.heal.Clean)
    (hok : metadataAnswered s (.heal o)) : (healOpen s o).heal.Clean := by
  simp only [Heal.Clean, metadataAnswered, hphase] at h hok
  unfold healOpen
  rcases hneeded : s.heal.needsDataRebuild with ⟨needed, h'⟩
  have hsnd := s.heal.needsDataRebuild_snd
  rw [hneeded] at hsnd
  dsimp only at hsnd ⊢
  split
  · rcases hsnd with rfl | rfl
    · exact ⟨disjoint_update h.1 hok, h.2⟩
    · exact ⟨disjoint_update h.1 hok, h.2⟩
  · rcases hsnd with rfl | rfl
    · exact h
    · exact h

/-- The second call of `ec_heal_needs_data_rebuild` puts all bricks back that have the
file. -/
theorem healUnlock_clean (hphase : s.heal.phase = .unlock) (h : s.heal.Clean) :
    (healUnlock s).heal.Clean := by
  simp only [Heal.Clean, hphase] at h
  unfold healUnlock
  by_cases hneeded : s.heal.needsDataRebuild.1 = true
  · obtain ⟨-, -, -, hsnd⟩ := Heal.needsDataRebuild_fst hneeded
    simp only [hneeded, hsnd, if_true, Heal.Clean]
    exact h.1.mono_right s.heal.rebuildMask_subset
  · simp only [hneeded, Bool.false_eq_true, if_false, Heal.Clean]
    rcases s.heal.needsDataRebuild_snd with hsnd | hsnd
    · rw [hsnd, h.2]
      exact Finset.disjoint_empty_right _
    · rw [hsnd, h.2]
      exact Finset.disjoint_empty_right _

/-- A brick that fails a window write leaves `heal->bad`. -/
theorem healData_clean (hphase : s.heal.phase = .data) (h : s.heal.Clean) :
    (healData v s o).heal.Clean := by
  simp only [Heal.Clean, hphase] at h
  unfold healData
  dsimp only
  split
  · exact h
  · split
    · simpa only [Heal.Clean, hphase] using h
    · split
      · simp only [Heal.Clean, Heal.update, hphase]
        refine Finset.disjoint_union_left.mpr ⟨h.mono_right Finset.sdiff_subset, ?_⟩
        exact Finset.disjoint_sdiff
      · simpa only [Heal.Clean, hphase] using h

/-- **One state of the manager.** -/
theorem ecManagerHeal_clean (hstep : ecManagerHeal v s o = some s') (h : s.heal.Clean)
    (hok : metadataAnswered s (.heal o)) : s'.heal.Clean := by
  unfold ecManagerHeal at hstep
  cases hphase : s.heal.phase with
  | entryLookup =>
      rw [hphase] at hstep
      obtain ⟨h', hlookup, rfl⟩ := Option.map_eq_some_iff.mp hstep
      simp only [Heal.Clean, hphase] at h ⊢
      obtain ⟨hfailures, hfixed, -⟩ := healLookup_keeps hlookup
      exact ⟨hfailures.trans h.1, hfixed.trans h.2⟩
  | entryPrepare =>
      rw [hphase] at hstep
      obtain rfl := Option.some.inj hstep
      simp only [Heal.Clean, hphase] at h
      unfold healPrepare
      dsimp only
      split <;> exact h
  | preInodeLookup =>
      rw [hphase] at hstep
      obtain ⟨h', hlookup, rfl⟩ := Option.map_eq_some_iff.mp hstep
      simp only [Heal.Clean, hphase] at h ⊢
      obtain ⟨hfailures, hfixed, -⟩ := healLookup_keeps hlookup
      rw [hfailures, h.1]
      exact ⟨Finset.disjoint_empty_left _, hfixed.trans h.2⟩
  | xattributesRemove =>
      rw [hphase] at hstep
      obtain rfl := Option.some.inj hstep
      simp only [Heal.Clean, metadataAnswered, hphase] at h hok
      unfold healRemovexattr
      split
      · exact h
      · exact ⟨disjoint_update h.1 hok, h.2⟩
  | xattributesSet =>
      rw [hphase] at hstep
      obtain rfl := Option.some.inj hstep
      simp only [Heal.Clean, metadataAnswered, hphase] at h hok
      unfold healSetxattr
      split
      · exact h
      · exact ⟨disjoint_update h.1 hok, h.2⟩
  | attributes =>
      rw [hphase] at hstep
      obtain rfl := Option.some.inj hstep
      simp only [Heal.Clean, metadataAnswered, hphase] at h hok
      unfold healAttr
      split
      · exact h
      · exact ⟨disjoint_update h.1 hok, h.2⟩
  | openFiles =>
      rw [hphase] at hstep
      obtain rfl := Option.some.inj hstep
      exact healOpen_clean hphase h hok
  | unlock =>
      rw [hphase] at hstep
      obtain rfl := Option.some.inj hstep
      exact healUnlock_clean hphase h
  | data =>
      rw [hphase] at hstep
      obtain rfl := Option.some.inj hstep
      exact healData_clean hphase h
  | postInodeLookup =>
      rw [hphase] at hstep
      obtain ⟨h', hlookup, rfl⟩ := Option.map_eq_some_iff.mp hstep
      simp only [Heal.Clean, hphase] at h ⊢
      rw [(healLookup_keeps hlookup).1]
      exact h
  | setattr =>
      rw [hphase] at hstep
      obtain rfl := Option.some.inj hstep
      simp only [Heal.Clean, metadataAnswered, hphase] at h hok
      exact disjoint_update h hok
  | reported =>
      rw [hphase] at hstep
      cases hstep
  | stopped =>
      rw [hphase] at hstep
      cases hstep

/-- One step of the heal or of a client. -/
theorem healStep_clean {a : HealAction} (h : s.heal.Clean) (hok : metadataAnswered s a)
    (hstep : healStep v s a = some s') : s'.heal.Clean := by
  cases a with
  | heal o => exact ecManagerHeal_clean hstep h hok
  | stop =>
      obtain ⟨-, hs'⟩ := Option.ite_none_left_eq_some.mp hstep
      obtain rfl := Option.some.inj hs'
      exact trivial
  | write offset data now =>
      obtain ⟨-, hs'⟩ := Option.ite_none_right_eq_some.mp hstep
      obtain rfl := Option.some.inj hs'
      exact h

end Steps

/-! ## The report -/

/-- **What a report tells.**  In every run in which the operations before the data loop
fail on no brick that has the file, and the last `setattr` fails nowhere, no
operation has failed on a brick that is reported as fixed. -/
theorem fixed_without_failure (v : HealSetting) {s : HealState}
    (h : (healMachine v HealState.Fresh).ReachableWhen metadataAnswered s)
    (hreported : s.heal.phase = .reported) : ∀ b ∈ s.heal.fixed, b ∉ s.heal.failures := by
  have hclean : s.heal.Clean := by
    refine h.invariant (fun s => s.heal.Clean) (fun s hs => ?_) fun s a s' hs hok hstep => ?_
    · rw [show s.heal = Heal.init from hs]
      exact ⟨rfl, rfl⟩
    · exact healStep_clean hs hok hstep
  simp only [Heal.Clean, hreported] at hclean
  exact fun b hb hfailed => Finset.disjoint_left.mp hclean hfailed hb

/-- The bricks `3` and `4` missed the write of the file. -/
def missedWrite : HealState :=
  oneByteState fun _ => .present ⟨{ oneByteInfo with version := none, size := none }, File.empty⟩

/-- The heal of `missedWrite`: `failing` are the bricks that fail in each state. -/
def healMissedWrite (failing : HealPhase → Finset ℕ) : List HealAction :=
  [.entryLookup, .entryPrepare, .preInodeLookup, .xattributesRemove, .xattributesSet,
    .attributes, .openFiles, .unlock, .data, .data, .data, .postInodeLookup, .setattr].map
    fun phase => .heal { HealOutcome.success 30 with failed := failing phase }

/-- Brick `4` fails the window write and is not reported. -/
theorem fixed_without_failure_window :
    ∃ s, (healMachine healVolume HealState.Fresh).ReachableWhen metadataAnswered s ∧
      s.heal.phase = .reported ∧ s.heal.fixed = {3} ∧ s.heal.failures = {4} ∧
      3 ∉ s.heal.failures := by
  have hresult : ((healMachine healVolume HealState.Fresh).execWhen metadataAnswered missedWrite
      (healMissedWrite fun phase => if phase = .data then {4} else ∅)).map
      (fun s => (s.heal.phase, s.heal.fixed, s.heal.failures)) = some (.reported, {3}, {4}) := by
    decide +kernel
  obtain ⟨s, hrun, heq⟩ := Option.map_eq_some_iff.mp hresult
  simp only [Prod.mk.injEq] at heq
  obtain ⟨hphase, hfixed, hfailures⟩ := heq
  have hreach := Machine.ReachableWhen.execWhen
    (.start (show HealState.Fresh missedWrite from rfl)) _ hrun
  refine ⟨s, hreach, hphase, hfixed, hfailures, ?_⟩
  exact fixed_without_failure healVolume hreach hphase 3 (by rw [hfixed]; decide)

/-- **A brick is reported although an operation failed on it.**  `setxattr` fails on brick
`3`; the mask that is reported is computed afterwards. -/
theorem failed_setxattr_is_fixed :
    ∃ s, (healMachine healVolume HealState.Fresh).Reachable s ∧ s.heal.phase = .reported ∧
      3 ∈ s.heal.fixed ∧ 3 ∈ s.heal.failures := by
  have hresult : ((healMachine healVolume HealState.Fresh).exec missedWrite
      (healMissedWrite fun phase => if phase = .xattributesSet then {3} else ∅)).map
      (fun s => (s.heal.phase, s.heal.fixed, s.heal.failures)) = some (.reported, {3, 4}, {3}) := by
    decide +kernel
  obtain ⟨s, hrun, heq⟩ := Option.map_eq_some_iff.mp hresult
  simp only [Prod.mk.injEq] at heq
  obtain ⟨hphase, hfixed, hfailures⟩ := heq
  refine ⟨s, Machine.Reachable.exec (.start (show HealState.Fresh missedWrite from rfl)) _ hrun,
    hphase, ?_, ?_⟩
  · rw [hfixed]
    decide
  · rw [hfailures]
    decide

end GlusterFS.Ec
