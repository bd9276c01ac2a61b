import GlusterFS.Ec.Dispatch

/-!
# The order in which bricks are tried

`ec_child_next` looks for a remaining brick from a given one on, in a circle, and
gives up when it comes to `fop->first`, not when it is back where it started.  It
is called with whichever brick has just answered, so it finds all that is left only
because the wound bricks always are the first ones of the mask, counted from
`fop->first` (`Leading`).

`turn` is the place of a brick in that count.  `childScan_result` says what the scan
finds: the remaining brick with the smallest `turn` that is not smaller than that
of the starting brick.  From there `Leading` is kept by `ec_dispatch_next` from any
wound brick (`Leading.next`) and set up by the loop of `ec_dispatch_min`
(`pickBricks_leading`).  The loop could pick a brick twice, as the step behind the
last brick of the circle leads to `first` again; it ends before that, as the
mask holds enough bricks.
-/

namespace GlusterFS.Ec

/-! ## Turns -/

/-- The place of a brick when the bricks are counted from `first` on. -/
def turn (nodes first b : ℕ) : ℕ := if first ≤ b then b - first else b + nodes - first

theorem turn_lt {nodes first b : ℕ} (hfirst : first < nodes) (hb : b < nodes) :
    turn nodes first b < nodes := by
  unfold turn
  split_ifs <;> omega

@[simp] theorem turn_first (nodes first : ℕ) : turn nodes first first = 0 := by simp [turn]

theorem turn_inj {nodes first b c : ℕ} (hfirst : first < nodes) (hb : b < nodes) (hc : c < nodes)
    (h : turn nodes first b = turn nodes first c) : b = c := by
  unfold turn at h
  split_ifs at h <;> omega

/-- The next brick has the next turn, unless that is `first`. -/
theorem turn_childSucc {nodes first idx : ℕ} (hfirst : first < nodes) (hidx : idx < nodes)
    (hne : childSucc nodes idx ≠ first) :
    childSucc nodes idx < nodes ∧
      turn nodes first (childSucc nodes idx) = turn nodes first idx + 1 := by
  unfold childSucc at *
  unfold turn
  split_ifs at * <;> omega

theorem turn_of_childSucc_eq {nodes first idx : ℕ} (hfirst : first < nodes) (hidx : idx < nodes)
    (heq : childSucc nodes idx = first) : turn nodes first idx + 1 = nodes := by
  unfold childSucc at heq
  unfold turn
  split_ifs at * <;> omega

/-- One more than a brick that is not the last of the circle. -/
theorem turn_succ {nodes first b : ℕ} (hfirst : first < nodes)
    (hlast : turn nodes first b + 1 < nodes) :
    turn nodes first (b + 1) = turn nodes first b + 1 := by
  unfold turn at *
  split_ifs at * <;> omega

/-! ## The scan -/

/-- What `ec_child_next` finds from a brick with the turn `t` on. -/
def ScanResult (nodes first : ℕ) (remaining : Finset ℕ) (t : ℕ) : Option ℕ → Prop
  | none => ∀ c ∈ remaining, turn nodes first c < t
  | some i => i ∈ remaining ∧ t ≤ turn nodes first i ∧
      ∀ c ∈ remaining, t ≤ turn nodes first c → turn nodes first i ≤ turn nodes first c

variable {nodes first : ℕ} {remaining : Finset ℕ}

/-- A brick that does not remain can be passed over. -/
theorem ScanResult.skip (hfirst : first < nodes) (hremaining : ∀ b ∈ remaining, b < nodes)
    {idx : ℕ} (hidx : idx < nodes) (hskip : idx ∉ remaining) {result : Option ℕ}
    (h : ScanResult nodes first remaining (turn nodes first idx + 1) result) :
    ScanResult nodes first remaining (turn nodes first idx) result := by
  have other : ∀ c ∈ remaining, turn nodes first c ≠ turn nodes first idx := fun c hc heq =>
    hskip (turn_inj hfirst (hremaining c hc) hidx heq ▸ hc)
  cases result with
  | none =>
      intro c hc
      have := h c hc
      have := other c hc
      omega
  | some i =>
      obtain ⟨hmem, hle, hleast⟩ := h
      refine ⟨hmem, by omega, fun c hc hturn => hleast c hc ?_⟩
      have := other c hc
      omega

/-- The loop from a brick.  The fuel counts the turns up to `first`. -/
theorem childScan_result (hfirst : first < nodes) (hremaining : ∀ b ∈ remaining, b < nodes)
    {fuel idx : ℕ} (hidx : idx < nodes) (hfuel : nodes ≤ fuel + turn nodes first idx) :
    ScanResult nodes first remaining (turn nodes first idx)
      (childScan nodes remaining first fuel idx) := by
  induction fuel generalizing idx with
  | zero =>
      have := turn_lt hfirst hidx
      omega
  | succ fuel ih =>
      rw [childScan]
      by_cases hmem : idx ∈ remaining
      · rw [if_pos (by simp [ecChildValid, hidx, hmem])]
        exact ⟨hmem, le_rfl, fun c _ hc => hc⟩
      rw [if_neg (by simp [ecChildValid, hmem])]
      refine ScanResult.skip hfirst hremaining hidx hmem ?_
      by_cases hback : childSucc nodes idx = first
      · rw [if_pos hback, turn_of_childSucc_eq hfirst hidx hback]
        exact fun c hc => turn_lt hfirst (hremaining c hc)
      · rw [if_neg hback]
        obtain ⟨hlt, hturn⟩ := turn_childSucc hfirst hidx hback
        rw [← hturn]
        exact ih hlt (by omega)

/-- **What `ec_child_next` finds.**  `ec_dispatch_min` may also start it one behind the
last brick. -/
theorem ecChildNext_result (hfirst : first < nodes) (hremaining : ∀ b ∈ remaining, b < nodes)
    {idx : ℕ} (hidx : idx ≤ nodes) :
    ScanResult nodes first remaining (turn nodes first idx)
      (ecChildNext nodes remaining first idx) := by
  rcases Nat.lt_or_eq_of_le hidx with hlt | rfl
  · exact childScan_result hfirst hremaining hlt (by omega)
  have hsucc : childSucc idx idx = 0 := if_pos (by omega)
  rw [ecChildNext, childScan, if_neg (by simp [ecChildValid]), hsucc]
  by_cases hzero : 0 = first
  · subst hzero
    rw [if_pos rfl, turn, if_pos (Nat.zero_le _), Nat.sub_zero]
    exact fun c hc => turn_lt hfirst (hremaining c hc)
  · have hturn : turn idx first idx = turn idx first 0 := by
      unfold turn
      rw [if_pos hfirst.le, if_neg (by omega), Nat.zero_add]
    rw [if_neg hzero, hturn]
    exact childScan_result hfirst hremaining (by omega) (by omega)

/-! ## The wound bricks come first -/

/-- The wound bricks are the first ones of the mask. -/
structure Leading (nodes first : ℕ) (mask wound : Finset ℕ) : Prop where
  subset : wound ⊆ mask
  before : ∀ b ∈ wound, ∀ c ∈ mask \ wound, turn nodes first b < turn nodes first c

variable {mask wound : Finset ℕ}

theorem leading_empty : Leading nodes first mask ∅ where
  subset := Finset.empty_subset _
  before := fun _ hb => absurd hb (Finset.notMem_empty _)

/-- The first one of the remaining bricks joins the wound ones. -/
theorem Leading.extend (h : Leading nodes first mask wound) (hfirst : first < nodes)
    (hmask : ∀ b ∈ mask, b < nodes) {i : ℕ} (hi : i ∈ mask \ wound)
    (hleast : ∀ c ∈ mask \ wound, turn nodes first i ≤ turn nodes first c) :
    Leading nodes first mask (insert i wound) where
  subset := Finset.insert_subset (Finset.mem_sdiff.mp hi).1 h.subset
  before := by
    intro b hb c hc
    obtain ⟨hcmask, hcnew⟩ := Finset.mem_sdiff.mp hc
    rw [Finset.mem_insert, not_or] at hcnew
    have hcold : c ∈ mask \ wound := Finset.mem_sdiff.mpr ⟨hcmask, hcnew.2⟩
    rcases Finset.mem_insert.mp hb with rfl | hb
    · refine lt_of_le_of_ne (hleast c hcold) fun heq => hcnew.1 ?_
      exact (turn_inj hfirst (hmask b (Finset.mem_sdiff.mp hi).1) (hmask c hcmask) heq).symm
    · exact h.before b hb c hcold

/-- **`ec_child_next` from a wound brick**: it finds nothing only when nothing remains,
and what it finds joins the wound bricks. -/
theorem Leading.next (h : Leading nodes first mask wound) (hfirst : first < nodes)
    (hmask : ∀ b ∈ mask, b < nodes) {idx : ℕ} (hidx : idx ≤ nodes)
    (hbefore : ∀ c ∈ mask \ wound, turn nodes first idx ≤ turn nodes first c) :
    (ecChildNext nodes (mask \ wound) first idx = none → mask \ wound = ∅) ∧
      ∀ i, ecChildNext nodes (mask \ wound) first idx = some i →
        i ∈ mask \ wound ∧ Leading nodes first mask (insert i wound) := by
  have result : ScanResult nodes first (mask \ wound) (turn nodes first idx)
      (ecChildNext nodes (mask \ wound) first idx) :=
    ecChildNext_result hfirst (fun b hb => hmask b (Finset.mem_sdiff.mp hb).1) hidx
  constructor
  · intro hnone
    rw [hnone] at result
    refine Finset.eq_empty_of_forall_notMem fun c hc => ?_
    exact absurd (result c hc) (Nat.not_lt.mpr (hbefore c hc))
  · intro i hi
    rw [hi] at result
    obtain ⟨hmem, -, hleast⟩ := result
    exact ⟨hmem, h.extend hfirst hmask hmem fun c hc => hleast c hc (hbefore c hc)⟩

/-- **The loop of `ec_dispatch_min`** picks the first bricks of the mask, as many as it
is told.  `idx` separates the picked bricks from the others. -/
theorem pickBricks_leading (hfirst : first < nodes) (hmask : ∀ b ∈ mask, b < nodes)
    {count idx : ℕ} {picked : Finset ℕ} (h : Leading nodes first mask picked)
    (hcard : picked.card + count ≤ mask.card)
    (hidx : 0 < count → idx ≤ nodes ∧
      ∀ c ∈ mask, c ∈ picked ↔ turn nodes first c < turn nodes first idx) :
    ∃ wound, pickBricks nodes mask first count idx picked = some wound ∧
      Leading nodes first mask wound ∧ wound.card = picked.card + count := by
  induction count generalizing idx picked with
  | zero => exact ⟨picked, rfl, h, rfl⟩
  | succ count ih =>
      obtain ⟨hle, hpicked⟩ := hidx (Nat.succ_pos _)
      have result : ScanResult nodes first mask (turn nodes first idx)
          (ecChildNext nodes mask first idx) := ecChildNext_result hfirst hmask hle
      obtain ⟨c, hc, hcnew⟩ : ∃ c ∈ mask, c ∉ picked :=
        Finset.exists_mem_notMem_of_card_lt_card (by omega)
      rw [pickBricks]
      cases hnext : ecChildNext nodes mask first idx with
      | none =>
          rw [hnext] at result
          exact absurd ((hpicked c hc).mpr (result c hc)) hcnew
      | some i =>
          rw [hnext] at result
          obtain ⟨hi, hturn, hleast⟩ := result
          have hinew : i ∉ picked := fun hmem =>
            absurd ((hpicked i hi).mp hmem) (Nat.not_lt.mpr hturn)
          have hcard' : (insert i picked).card = picked.card + 1 :=
            Finset.card_insert_of_notMem hinew
          have extended : Leading nodes first mask (insert i picked) := by
            refine h.extend hfirst hmask (Finset.mem_sdiff.mpr ⟨hi, hinew⟩) fun c hc => ?_
            obtain ⟨hc, hcnew⟩ := Finset.mem_sdiff.mp hc
            exact hleast c hc (Nat.not_lt.mp fun hlt => hcnew ((hpicked c hc).mpr hlt))
          have hidx' : 0 < count → i + 1 ≤ nodes ∧ ∀ c ∈ mask,
              c ∈ insert i picked ↔ turn nodes first c < turn nodes first (i + 1) := by
            intro hmore
            -- some brick is left, so `i` is not the last one before `first`
            obtain ⟨c, hc, hcnew⟩ : ∃ c ∈ mask, c ∉ insert i picked :=
              Finset.exists_mem_notMem_of_card_lt_card (by omega)
            have hlast := extended.before i (Finset.mem_insert_self _ _) c
              (Finset.mem_sdiff.mpr ⟨hc, hcnew⟩)
            have hbound := turn_lt hfirst (hmask c hc)
            rw [turn_succ hfirst (by omega)]
            refine ⟨hmask i hi, fun c hc => ?_⟩
            rw [Finset.mem_insert, hpicked c hc]
            constructor
            · rintro (rfl | hlt) <;> omega
            · intro hlt
              by_cases hbelow : turn nodes first c < turn nodes first idx
              · exact Or.inr hbelow
              · have := hleast c hc (Nat.not_lt.mp hbelow)
                exact Or.inl (turn_inj hfirst (hmask c hc) (hmask i hi) (by omega))
          obtain ⟨wound, hwound, hleading, hlength⟩ := ih extended (by omega) hidx'
          exact ⟨wound, hwound, hleading, by omega⟩

/-! ## Runs of `ec_dispatch_next` -/

/-- A dispatch, and `ec_dispatch_next` called with any brick that is wound. -/
def dispatchRun (r : Request) (mask : Finset ℕ) (minimum : ℤ) (idx stale : ℕ) :
    Machine Fop ℕ where
  start := fun s => ecDispatch r mask minimum idx stale = some s
  step := fun s idx => if s.phase idx = .wound then some (ecDispatchNext r idx s) else none

/-- The state of a fop that was wound to the bricks of `wound`, once to each, and whose
other bricks are idle. -/
structure WoundTo (r : Request) (mask : Finset ℕ) (stale : ℕ) (wound : Finset ℕ) (s : Fop) :
    Prop where
  first_lt : s.first < r.nodes
  leading : Leading r.nodes s.first mask wound
  remaining : s.remaining = mask \ wound
  phase : ∀ b, s.phase b = if b ∈ wound then .wound else .idle
  winds : s.winds = stale + wound.card

variable {r : Request} {minimum : ℤ} {stale : ℕ} {s : Fop}

theorem WoundTo.phase_wound (h : WoundTo r mask stale wound s) {b : ℕ} :
    s.phase b = .wound ↔ b ∈ wound := by
  rw [h.phase b]
  split_ifs with hb
  · exact iff_of_true rfl hb
  · exact iff_of_false (by rintro ⟨⟩) hb

/-- The state before anything is wound. -/
theorem dispatchStart_woundTo {expected : ℕ} (hfirst : first < r.nodes) :
    WoundTo r mask stale ∅ (dispatchStart mask minimum stale expected first) where
  first_lt := hfirst
  leading := leading_empty
  remaining := Finset.sdiff_empty.symm
  phase := fun b => (if_neg (Finset.notMem_empty b)).symm
  winds := rfl

/-- `ec_dispatch_mask` on a fop that is not wound yet. -/
theorem ecDispatchMask_woundTo {expected : ℕ} (hfirst : first < r.nodes)
    (hleading : Leading r.nodes first mask wound) :
    WoundTo r mask stale wound
      (ecDispatchMask wound (dispatchStart mask minimum stale expected first)) where
  first_lt := hfirst
  leading := hleading
  remaining := rfl
  phase := fun _ => rfl
  winds := rfl

/-- One `ec_dispatch_next`, from a brick that no remaining brick comes before. -/
theorem WoundTo.dispatchNext (h : WoundTo r mask stale wound s) (hmask : ∀ b ∈ mask, b < r.nodes)
    {idx : ℕ} (hidx : idx ≤ r.nodes)
    (hbefore : ∀ c ∈ mask \ wound, turn r.nodes s.first idx ≤ turn r.nodes s.first c) :
    ∃ wound', WoundTo r mask stale wound' (ecDispatchNext r idx s) := by
  have hnext := (h.leading.next h.first_lt hmask hidx hbefore).2
  rw [← h.remaining] at hnext
  unfold ecDispatchNext
  cases hi : ecChildNext r.nodes s.remaining s.first idx with
  | none => exact ⟨wound, h⟩
  | some i =>
      obtain ⟨hmem, hleading⟩ := hnext i hi
      have hnew : i ∉ wound := by
        rw [h.remaining] at hmem
        exact (Finset.mem_sdiff.mp hmem).2
      refine ⟨insert i wound, h.first_lt, hleading, ?_, fun b => ?_, ?_⟩
      · change s.remaining.erase i = _
        rw [h.remaining, Finset.sdiff_insert]
      · change Function.update s.phase i .wound b = _
        by_cases hb : b = i
        · rw [hb, Function.update_self, if_pos (Finset.mem_insert_self _ _)]
        · rw [Function.update_of_ne hb, h.phase b]
          simp [Finset.mem_insert, hb]
      · change s.winds + 1 = _
        rw [Finset.card_insert_of_notMem hnew, h.winds]
        omega

/-- The dispatch itself. -/
theorem ecDispatch_woundTo (minimum : ℤ) (stale : ℕ) (hmask : ∀ b ∈ mask, b < r.nodes)
    {idx : ℕ} (hidx : idx < r.nodes)
    (hmin : r.kind = .min → r.fragments ≤ mask.card) :
    ∃ s, ecDispatch r mask minimum idx stale = some s ∧ ∃ wound, WoundTo r mask stale wound s ∧
      (r.kind = .min → wound.card = r.fragments) := by
  have scanned : ∀ expected first, first < r.nodes → ∃ wound, WoundTo r mask stale wound
      (ecDispatchNext r first (dispatchStart mask minimum stale expected first)) := by
    intro expected first hfirst
    refine (dispatchStart_woundTo hfirst).dispatchNext hmask hfirst.le fun c _ => ?_
    exact (turn_first r.nodes first).le.trans (Nat.zero_le _)
  unfold ecDispatch
  cases hkind : r.kind with
  | one =>
      obtain ⟨wound, hwound⟩ := scanned 1 idx hidx
      exact ⟨_, rfl, wound, hwound, by rintro ⟨⟩⟩
  | inc =>
      obtain ⟨wound, hwound⟩ := scanned mask.card 0 (by omega)
      exact ⟨_, rfl, wound, hwound, by rintro ⟨⟩⟩
  | all =>
      have whole : Leading r.nodes 0 mask mask :=
        ⟨subset_rfl, fun b _ c hc => absurd hc (by simp)⟩
      exact ⟨_, rfl, mask, ecDispatchMask_woundTo (by omega) whole, by rintro ⟨⟩⟩
  | min =>
      have hcount : (∅ : Finset ℕ).card + r.fragments ≤ mask.card := by simpa using hmin hkind
      have hstart : 0 < r.fragments → idx ≤ r.nodes ∧ ∀ c ∈ mask,
          c ∈ (∅ : Finset ℕ) ↔ turn r.nodes idx c < turn r.nodes idx idx :=
        fun _ => ⟨hidx.le, fun c _ => by simp⟩
      obtain ⟨wound, hwound, hleading, hcard⟩ :=
        pickBricks_leading hidx hmask leading_empty hcount hstart
      refine ⟨_, by rw [hwound]; rfl, wound, ecDispatchMask_woundTo hidx hleading, fun _ => ?_⟩
      simpa using hcard

/-- Every state of a run is one in which the wound bricks are the first of the mask. -/
theorem dispatchRun_woundTo (hmask : ∀ b ∈ mask, b < r.nodes) {idx : ℕ} (hidx : idx < r.nodes)
    (hmin : r.kind = .min → r.fragments ≤ mask.card)
    (h : (dispatchRun r mask minimum idx stale).Reachable s) :
    ∃ wound, WoundTo r mask stale wound s := by
  refine h.invariant (fun s => ∃ wound, WoundTo r mask stale wound s) (fun s hs => ?_)
    fun s b s' hs hstep => ?_
  · obtain ⟨s₀, hs₀, wound, hwound, -⟩ :=
      ecDispatch_woundTo minimum stale hmask hidx hmin
    obtain rfl : s₀ = s := Option.some.inj (hs₀.symm.trans hs)
    exact ⟨wound, hwound⟩
  · obtain ⟨wound, hwound⟩ := hs
    change (if s.phase b = .wound then _ else _) = _ at hstep
    split_ifs at hstep with hb
    cases hstep
    have hbwound := hwound.phase_wound.mp hb
    exact hwound.dispatchNext hmask (hmask b (hwound.leading.subset hbwound)).le
      fun c hc => (hwound.leading.before b hbwound c hc).le

/-- The bricks that a fop is wound to. -/
def Fop.woundBricks (r : Request) (s : Fop) : Finset ℕ :=
  (Finset.range r.nodes).filter fun b => s.phase b = .wound

theorem WoundTo.woundBricks_eq (h : WoundTo r mask stale wound s)
    (hmask : ∀ b ∈ mask, b < r.nodes) : s.woundBricks r = wound := by
  ext b
  rw [Fop.woundBricks, Finset.mem_filter, Finset.mem_range, h.phase_wound]
  exact ⟨And.right, fun hb => ⟨hmask b (h.leading.subset hb), hb⟩⟩

/-- **Every dispatch winds to new bricks of the mask and misses none.**  For every mask
and starting brick: the dispatch goes through, to `fragments` bricks for
`ec_dispatch_min`.  After it and any calls of `ec_dispatch_next` from wound bricks,
only bricks of the mask are wound and the requests that were wound are as many as
the bricks; one more call winds to a brick of the mask that was not wound, and
finds none only when none remains. -/
theorem dispatch_winds (r : Request) (mask : Finset ℕ) (minimum : ℤ) (idx stale : ℕ)
    (hmask : ∀ b ∈ mask, b < r.nodes) (hidx : idx < r.nodes)
    (hmin : r.kind = .min → r.fragments ≤ mask.card) :
    (∃ s, ecDispatch r mask minimum idx stale = some s ∧
      (r.kind = .min → (s.woundBricks r).card = r.fragments)) ∧
    ∀ s, (dispatchRun r mask minimum idx stale).Reachable s →
      s.woundBricks r ⊆ mask ∧ s.winds = stale + (s.woundBricks r).card ∧
      ∀ b ∈ s.woundBricks r,
        (ecChildNext r.nodes s.remaining s.first b = none → s.remaining = ∅) ∧
        ∀ i, ecChildNext r.nodes s.remaining s.first b = some i →
          i ∈ mask ∧ i ∉ s.woundBricks r := by
  constructor
  · obtain ⟨s, hs, wound, hwound, hcard⟩ :=
      ecDispatch_woundTo minimum stale hmask hidx hmin
    refine ⟨s, hs, ?_⟩
    rw [hwound.woundBricks_eq hmask]
    exact hcard
  · intro s hs
    obtain ⟨wound, hwound⟩ := dispatchRun_woundTo hmask hidx hmin hs
    rw [hwound.woundBricks_eq hmask, hwound.remaining]
    refine ⟨hwound.leading.subset, hwound.winds, fun b hb => ?_⟩
    obtain ⟨hnone, hsome⟩ := hwound.leading.next hwound.first_lt hmask
      (hmask b (hwound.leading.subset hb)).le
      fun c hc => (hwound.leading.before b hb c hc).le
    exact ⟨hnone, fun i hi => Finset.mem_sdiff.mp (hsome i hi).1⟩

/-- Five bricks of which the third is down, read from three, starting at the fourth. -/
theorem dispatch_winds_five :
    ∃ s, ecDispatch ⟨5, 3, .min, none, false⟩ {0, 1, 3, 4} 3 3 0 = some s ∧
      s.woundBricks ⟨5, 3, .min, none, false⟩ = {0, 3, 4} ∧
      (s.woundBricks ⟨5, 3, .min, none, false⟩).card = 3 ∧
      ecChildNext 5 s.remaining s.first 4 = some 1 := by
  obtain ⟨⟨s, hs, hcard⟩, -⟩ := dispatch_winds ⟨5, 3, .min, none, false⟩ {0, 1, 3, 4} 3 3 0
    (by decide) (by decide) (by decide)
  refine ⟨s, hs, ?_, hcard rfl, ?_⟩
  · cases hs
    decide
  · cases hs
    decide

end GlusterFS.Ec
