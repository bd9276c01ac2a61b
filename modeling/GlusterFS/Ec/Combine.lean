import GlusterFS.Ec.Answer

/-!
# Groups of answers

`fop->cbk_list` holds the answers to one request in groups of compatible ones,
largest group first.  `ec_combine` puts an answer into the first group whose
newest answer it is compatible with: the answer takes over the count and the
mask of that group, the group is unlinked, and the answer is linked in again at
the place found by walking back from there over the smaller groups.  An answer
without a group goes to the end of the list.

`Grouped` is what the list keeps.  `ecCombineGroups_grouped` is the step: one more
answer of a new brick keeps it.  The code relies on one consequence,
`Grouped.count_le_head`: the group that `ec_complete` looks at is a largest one.
-/

namespace GlusterFS.Ec

/-- A group: the newest `ec_cbk_data_t`, with its accumulated `count` and `mask`, and
the answers it chains through `next`.  Each answer comes with its brick. -/
structure Group where
  count : ℕ
  mask : Finset ℕ
  newest : ℕ × Answer
  next : List (ℕ × Answer)

/-- The answers chained in a group, newest first. -/
def Group.chain (g : Group) : List (ℕ × Answer) := g.newest :: g.next

/-- A new `ec_cbk_data_t`, as `ec_cbk_data_allocate` leaves it. -/
def Group.single (idx : ℕ) (a : Answer) : Group := ⟨1, {idx}, (idx, a), []⟩

/-- Link the answer `cbk` into the list in the place of the group `ans`, which stood
between `before` and `after`: `item` walks back from there over the groups that
are now smaller. -/
def relink (cbk : Group) (before after : List Group) : List Group :=
  before.rdropWhile (fun tmp => tmp.count < cbk.count) ++
    cbk :: (before.rtakeWhile (fun tmp => tmp.count < cbk.count) ++ after)

/-- The loop of `ec_combine` over the list; `before` are the groups already passed.
The result is `cbk` as a group and the new list. -/
def combineInto (combine : CombineFn) (idx : ℕ) (a : Answer) :
    List Group → List Group → Group × List Group
  | before, [] => (Group.single idx a, before ++ [Group.single idx a])
  | before, ans :: after =>
      if ecCombineCheck a ans.newest.2 combine then
        let cbk : Group := ⟨1 + ans.count, {idx} ∪ ans.mask, (idx, a), ans.chain⟩
        (cbk, relink cbk before after)
      else
        combineInto combine idx a (before ++ [ans]) after

/-- The part of `ec_combine` that updates `fop->cbk_list`. -/
def ecCombineGroups (combine : CombineFn) (idx : ℕ) (a : Answer) (list : List Group) :
    Group × List Group :=
  combineInto combine idx a [] list

/-! ## What the list keeps -/

/-- One group: its count is the number of its answers and of the bricks in its mask,
which are the bricks of its answers, and every answer was compatible with
every older one. -/
structure Group.Ok (combine : CombineFn) (g : Group) : Prop where
  count_chain : g.count = g.chain.length
  count_mask : g.count = g.mask.card
  mask_chain : ∀ b, b ∈ g.mask ↔ ∃ a, (b, a) ∈ g.chain
  compatible : g.chain.Pairwise fun x y => ecCombineCheck x.2 y.2 combine = true

/-- The whole list, when the bricks of `answered` have answered: sorted by
non-increasing count, with pairwise disjoint masks whose union is `answered`. -/
structure Grouped (combine : CombineFn) (answered : Finset ℕ) (list : List Group) :
    Prop where
  ok : ∀ g ∈ list, g.Ok combine
  sorted : list.Pairwise fun g h => h.count ≤ g.count
  disjoint : list.Pairwise fun g h => Disjoint g.mask h.mask
  union : ∀ b, b ∈ answered ↔ ∃ g ∈ list, b ∈ g.mask

theorem grouped_nil (combine : CombineFn) : Grouped combine ∅ [] where
  ok := fun _ h => absurd h List.not_mem_nil
  sorted := List.Pairwise.nil
  disjoint := List.Pairwise.nil
  union := by simp

/-- **The first group is a largest one.** -/
theorem Grouped.count_le_head {combine : CombineFn} {answered : Finset ℕ} {g : Group}
    {rest : List Group} (h : Grouped combine answered (g :: rest)) :
    ∀ g' ∈ g :: rest, g'.count ≤ g.count := by
  intro g' hg'
  rcases List.mem_cons.mp hg' with rfl | hmem
  · exact le_rfl
  · exact List.rel_of_pairwise_cons h.sorted hmem

theorem single_ok (combine : CombineFn) (idx : ℕ) (a : Answer) :
    (Group.single idx a).Ok combine where
  count_chain := rfl
  count_mask := (Finset.card_singleton idx).symm
  mask_chain b := by simp [Group.single, Group.chain]
  compatible := List.pairwise_singleton _ _

/-- The answer of a new brick extends a group whose newest answer it is compatible
with: by transitivity it is compatible with all of them. -/
theorem extend_ok {combine : CombineFn} (hcombine : combine ∈ combineCallbacks) {idx : ℕ}
    {a : Answer} {ans : Group} (hans : ans.Ok combine)
    (hcheck : ecCombineCheck a ans.newest.2 combine = true) (hnew : idx ∉ ans.mask) :
    Group.Ok combine ⟨1 + ans.count, {idx} ∪ ans.mask, (idx, a), ans.chain⟩ where
  count_chain := by
    change 1 + ans.count = ans.chain.length + 1
    rw [hans.count_chain, add_comm]
  count_mask := by
    change 1 + ans.count = ({idx} ∪ ans.mask).card
    rw [Finset.card_union_of_disjoint (Finset.disjoint_singleton_left.mpr hnew),
      Finset.card_singleton, hans.count_mask]
  mask_chain b := by
    simp only [Finset.mem_union, Finset.mem_singleton, hans.mask_chain, Group.chain,
      List.mem_cons, Prod.mk.injEq]
    constructor
    · rintro (rfl | ⟨a', ha'⟩)
      · exact ⟨a, Or.inl ⟨rfl, rfl⟩⟩
      · exact ⟨a', Or.inr ha'⟩
    · rintro ⟨a', ⟨rfl, rfl⟩ | ha'⟩
      · exact Or.inl rfl
      · exact Or.inr ⟨a', ha'⟩
  compatible := by
    refine List.pairwise_cons.mpr ⟨fun older holder => ?_, hans.compatible⟩
    rcases List.mem_cons.mp holder with rfl | hnext
    · exact hcheck
    · exact ecCombineCheck_trans hcombine hcheck
        (List.rel_of_pairwise_cons hans.compatible hnext)

/-! ## Linking in -/

/-- Linking in only moves the new group. -/
theorem relink_perm (cbk : Group) (before after : List Group) :
    (relink cbk before after).Perm (cbk :: (before ++ after)) := by
  have split : before.rdropWhile (fun tmp => tmp.count < cbk.count) ++
      before.rtakeWhile (fun tmp => tmp.count < cbk.count) = before :=
    List.rdropWhile_append_rtakeWhile
  refine List.perm_middle.trans ?_
  rw [← List.append_assoc, split]

/-- The groups that the walk stops at, and all before them, are not smaller. -/
theorem le_count_of_mem_rdropWhile {n : ℕ} {before : List Group}
    (hsorted : before.Pairwise fun g h => h.count ≤ g.count) {g : Group}
    (hg : g ∈ before.rdropWhile fun tmp => tmp.count < n) : n ≤ g.count := by
  have hne : (before.rdropWhile fun tmp => tmp.count < n) ≠ [] := List.ne_nil_of_mem hg
  have hlast := List.rdropWhile_last_not (fun tmp : Group => tmp.count < n) before hne
  have hprefix : (before.rdropWhile fun tmp => tmp.count < n).Pairwise
      fun g h => h.count ≤ g.count :=
    hsorted.sublist (List.rdropWhile_prefix _ _).sublist
  have hmin : ((before.rdropWhile fun tmp => tmp.count < n).getLast hne).count ≤ g.count := by
    rw [← List.dropLast_append_getLast hne] at hprefix hg
    rcases List.mem_append.mp hg with hin | hin
    · exact (List.pairwise_append.mp hprefix).2.2 g hin _ (List.mem_singleton_self _)
    · rw [List.mem_singleton.mp hin]
  simp only [decide_eq_true_eq, not_lt] at hlast
  exact hlast.trans hmin

/-- **The list stays sorted.**  The group grew past those before it that are now
smaller, and past nothing after it. -/
theorem relink_sorted {cbk ans : Group} {before after : List Group}
    (hsorted : (before ++ ans :: after).Pairwise fun g h => h.count ≤ g.count)
    (hgrown : ans.count ≤ cbk.count) :
    (relink cbk before after).Pairwise fun g h => h.count ≤ g.count := by
  obtain ⟨hbefore, hans, hcross⟩ := List.pairwise_append.mp hsorted
  obtain ⟨hle, hafter⟩ := List.pairwise_cons.mp hans
  have split : before.rdropWhile (fun tmp => tmp.count < cbk.count) ++
      before.rtakeWhile (fun tmp => tmp.count < cbk.count) = before :=
    List.rdropWhile_append_rtakeWhile
  obtain ⟨hkept, hpassed, hkeptPassed⟩ := List.pairwise_append.mp (split.symm ▸ hbefore)
  have mem_kept : ∀ g ∈ before.rdropWhile (fun tmp => tmp.count < cbk.count), g ∈ before :=
    fun g hg => split ▸ List.mem_append_left _ hg
  have mem_passed : ∀ g ∈ before.rtakeWhile (fun tmp => tmp.count < cbk.count), g ∈ before :=
    fun g hg => split ▸ List.mem_append_right _ hg
  have hafterCbk : ∀ h ∈ after, h.count ≤ cbk.count := fun h hh => (hle h hh).trans hgrown
  refine List.pairwise_append.mpr ⟨hkept, List.pairwise_cons.mpr ⟨fun h hh => ?_,
    List.pairwise_append.mpr ⟨hpassed, hafter, fun g hg h hh => ?_⟩⟩, fun g hg h hh => ?_⟩
  · rcases List.mem_append.mp hh with hh | hh
    · have := List.mem_rtakeWhile_imp hh
      simp only [decide_eq_true_eq] at this
      exact this.le
    · exact hafterCbk h hh
  · exact hcross g (mem_passed g hg) h (List.mem_cons_of_mem _ hh)
  · have hcbk : cbk.count ≤ g.count := le_count_of_mem_rdropWhile hbefore hg
    rcases List.mem_cons.mp hh with rfl | hh
    · exact hcbk
    rcases List.mem_append.mp hh with hh | hh
    · exact hkeptPassed g hg h hh
    · exact (hafterCbk h hh).trans hcbk

/-! ## The step -/

/-- Replacing a group by one that also has the brick `idx` keeps the list grouped. -/
theorem grouped_relink {combine : CombineFn} {answered : Finset ℕ} {idx : ℕ}
    {cbk ans : Group} {before after : List Group}
    (h : Grouped combine answered (before ++ ans :: after)) (hnew : idx ∉ answered)
    (hok : cbk.Ok combine) (hmask : cbk.mask = {idx} ∪ ans.mask)
    (hgrown : ans.count ≤ cbk.count) :
    Grouped combine (insert idx answered) (relink cbk before after) := by
  have perm := relink_perm cbk before after
  have outside : ∀ g ∈ before ++ ans :: after, idx ∉ g.mask := fun g hg hidx =>
    hnew ((h.union idx).mpr ⟨g, hg, hidx⟩)
  have symmetric : ∀ {x y : Group}, Disjoint x.mask y.mask → Disjoint y.mask x.mask :=
    fun hxy => hxy.symm
  have sub : ∀ g ∈ before ++ after, g ∈ before ++ ans :: after := by
    intro g hg
    rcases List.mem_append.mp hg with hg | hg
    · exact List.mem_append_left _ hg
    · exact List.mem_append_right _ (List.mem_cons_of_mem _ hg)
  have perm' : (before ++ ans :: after).Perm (ans :: (before ++ after)) := List.perm_middle
  obtain ⟨ansDisjoint, restDisjoint⟩ := List.pairwise_cons.mp
    ((perm'.pairwise_iff symmetric).mp h.disjoint)
  refine ⟨fun g hg => ?_, relink_sorted h.sorted hgrown, ?_, fun b => ?_⟩
  · rcases List.mem_cons.mp (perm.subset hg) with rfl | hg
    · exact hok
    · exact h.ok g (sub g hg)
  · refine (perm.pairwise_iff symmetric).mpr (List.pairwise_cons.mpr
      ⟨fun g hg => ?_, restDisjoint⟩)
    rw [hmask, Finset.disjoint_union_left, Finset.disjoint_singleton_left]
    exact ⟨outside g (sub g hg), ansDisjoint g hg⟩
  · simp only [Finset.mem_insert, h.union, perm.mem_iff, perm'.mem_iff, List.mem_cons,
      exists_eq_or_imp, hmask, Finset.mem_union, Finset.mem_singleton]
    tauto

/-- A group of its own at the end. -/
theorem grouped_append {combine : CombineFn} {answered : Finset ℕ} {list : List Group}
    (h : Grouped combine answered list) {idx : ℕ} (hnew : idx ∉ answered) (a : Answer) :
    Grouped combine (insert idx answered) (list ++ [Group.single idx a]) := by
  have outside : ∀ g ∈ list, idx ∉ g.mask := fun g hg hidx =>
    hnew ((h.union idx).mpr ⟨g, hg, hidx⟩)
  refine ⟨fun g hg => ?_, ?_, ?_, fun b => ?_⟩
  · rcases List.mem_append.mp hg with hg | hg
    · exact h.ok g hg
    · rw [List.mem_singleton.mp hg]
      exact single_ok combine idx a
  · refine List.pairwise_append.mpr ⟨h.sorted, List.pairwise_singleton _ _, ?_⟩
    intro g hg g' hg'
    rw [List.mem_singleton.mp hg', (h.ok g hg).count_chain]
    exact Nat.succ_pos _
  · refine List.pairwise_append.mpr ⟨h.disjoint, List.pairwise_singleton _ _, ?_⟩
    intro g hg g' hg'
    rw [List.mem_singleton.mp hg']
    exact Finset.disjoint_singleton_right.mpr (outside g hg)
  · simp only [Finset.mem_insert, h.union, List.mem_append, List.mem_singleton, or_and_right,
      exists_or, exists_eq_left, Group.single, Finset.mem_singleton]
    exact Or.comm

/-- The loop, after the groups in `before` were passed. -/
theorem combineInto_grouped {combine : CombineFn} (hcombine : combine ∈ combineCallbacks)
    {answered : Finset ℕ} {idx : ℕ} (hnew : idx ∉ answered) (a : Answer)
    (before list : List Group) (h : Grouped combine answered (before ++ list)) :
    Grouped combine (insert idx answered) (combineInto combine idx a before list).2 ∧
      (combineInto combine idx a before list).1 ∈
        (combineInto combine idx a before list).2 := by
  induction list generalizing before with
  | nil =>
      rw [List.append_nil] at h
      refine ⟨grouped_append h hnew a, ?_⟩
      exact List.mem_append_right _ (List.mem_singleton_self _)
  | cons ans after ih =>
      rw [combineInto]
      by_cases hcheck : ecCombineCheck a ans.newest.2 combine = true
      · have hmem : ans ∈ before ++ ans :: after :=
          List.mem_append_right _ List.mem_cons_self
        have hout : idx ∉ ans.mask := fun hidx => hnew ((h.union idx).mpr ⟨ans, hmem, hidx⟩)
        rw [if_pos hcheck]
        refine ⟨grouped_relink h hnew (extend_ok hcombine (h.ok ans hmem) hcheck hout) rfl
          (Nat.le_add_left _ _), ?_⟩
        exact (relink_perm _ _ _).mem_iff.mpr List.mem_cons_self
      · rw [if_neg hcheck]
        refine ih (before ++ [ans]) ?_
        rw [List.append_assoc]
        exact h

/-- **One answer of a new brick keeps the list grouped**, and its own group is on the
list. -/
theorem ecCombineGroups_grouped {combine : CombineFn} (hcombine : combine ∈ combineCallbacks)
    {answered : Finset ℕ} {idx : ℕ} (hnew : idx ∉ answered) (a : Answer) {list : List Group}
    (h : Grouped combine answered list) :
    Grouped combine (insert idx answered) (ecCombineGroups combine idx a list).2 ∧
      (ecCombineGroups combine idx a list).1 ∈ (ecCombineGroups combine idx a list).2 :=
  combineInto_grouped hcombine hnew a [] list h

end GlusterFS.Ec
