import GlusterFS.Lib.Machine

/-!
# The links that quota knows

`features/quota` keeps for every file the list of its links, `ctx->parents`: a limit has to be
checked in all directories in which a file is linked.  The list is filled by `quota_fill_inodectx` on
a lookup and edited in the callbacks of `link`, `unlink` and `rename`.

The module runs these callbacks beside the names on disk, for any sequence of successful operations,
and asks whether the lists are exact (`Exact`): without duplicates, and with the links of the file.

* Lookups, unlinks, links and renames to a free name keep them exact (`Exact.step`).
* `quota_rename_cbk` edits the list of the renamed file only.  A rename onto another file leaves the
  name in the list of the file that is gone from it; and a rename between two names of one file, which
  does nothing on disk, takes the old name out of the list.  So the renames that keep the lists exact
  are those to a free name, and those of a name to itself (`parents_exact`).
* A `link` that carries the key of internal operations is passed on and not recorded.
-/

namespace GlusterFS.Quota.Parents

/-! ## The lists -/

/-- `quota_dentry_t`: the gfid of the directory and the name. -/
structure Dentry where
  par : ℕ
  name : String
  deriving DecidableEq

/-- The loop that looks for a dentry, and `__quota_dentry_new` if it is not found. -/
def addDentry (parents : List Dentry) (loc : Dentry) : List Dentry :=
  if parents.any fun dentry => dentry.name = loc.name ∧ loc.par = dentry.par then parents
  else parents ++ [loc]

/-- `quota_fill_inodectx`; a nameless lookup changes nothing. -/
def quotaFillInodectx (parents : List Dentry) : Option Dentry → List Dentry
  | some loc => addDentry parents loc
  | none => parents

/-- `quota_link_cbk`. -/
def quotaLinkCbk (parents : List Dentry) (loc : Dentry) : List Dentry := addDentry parents loc

/-- `quota_unlink_cbk`: the first dentry with the name is freed. -/
def quotaUnlinkCbk (parents : List Dentry) (loc : Dentry) : List Dentry :=
  parents.eraseP fun dentry => dentry.name = loc.name ∧ loc.par = dentry.par

/-- The loop of `quota_rename_cbk`: the position of `old_dentry`, and `new_dentry_found`. -/
def renameLoop (oldloc newloc : Dentry) : List Dentry → ℕ → Option ℕ → Bool → Option ℕ × Bool
  | [], _, oldDentry, newFound => (oldDentry, newFound)
  | dentry :: rest, i, oldDentry, newFound =>
      if dentry.name = oldloc.name ∧ oldloc.par = dentry.par then
        if newFound then (some i, newFound)
        else renameLoop oldloc newloc rest (i + 1) (some i) newFound
      else if dentry.name = newloc.name ∧ newloc.par = dentry.par then
        if oldDentry.isSome then (oldDentry, true)
        else renameLoop oldloc newloc rest (i + 1) oldDentry true
      else if oldDentry.isSome && newFound then (oldDentry, newFound)
      else renameLoop oldloc newloc rest (i + 1) oldDentry newFound

/-- `quota_rename_cbk`. -/
def quotaRenameCbk (parents : List Dentry) (oldloc newloc : Dentry) : List Dentry :=
  let found := renameLoop oldloc newloc parents 0 none false
  let parents :=
    match found.1 with
    | some i => parents.eraseIdx i
    | none => parents
  if found.2 then parents else parents ++ [newloc]

/-! ## The names -/

/-- The names on disk, and the lists of the files that have a context. -/
structure State where
  names : Dentry → Option ℕ
  ctx : ℕ → Option (List Dentry)

/-- Edit the list of a file that has a context. -/
def State.edit (s : State) (inode : ℕ) (f : List Dentry → List Dentry) : State :=
  { s with ctx := Function.update s.ctx inode ((s.ctx inode).map f) }

/-- The operations on files. -/
inductive Action where
  | lookup (loc : Dentry)
  | namelessLookup (inode : ℕ)
  | unlink (loc : Dentry)
  /-- `internal`: with `GLUSTERFS_INTERNAL_FOP_KEY` -/
  | link (oldloc newloc : Dentry) (internal : Bool)
  | rename (oldloc newloc : Dentry)
  deriving DecidableEq

/-- A lookup creates the context. -/
def lookup (s : State) (inode : ℕ) (loc : Option Dentry) : State :=
  { s with ctx :=
      Function.update s.ctx inode (some (quotaFillInodectx ((s.ctx inode).getD []) loc)) }

/-- What a rename of a name of `inode` does on disk: between two names of one file, nothing. -/
def renameNames (names : Dentry → Option ℕ) (inode : ℕ) (oldloc newloc : Dentry) :
    Dentry → Option ℕ :=
  if names newloc = some inode then names
  else Function.update (Function.update names oldloc none) newloc (some inode)

/-- A successful operation, with its callback. -/
def step (s : State) : Action → Option State
  | .lookup loc => (s.names loc).map fun inode => lookup s inode (some loc)
  | .namelessLookup inode => some (lookup s inode none)
  | .unlink loc =>
      (s.names loc).map fun inode =>
        { s with names := Function.update s.names loc none }.edit inode
          fun parents => quotaUnlinkCbk parents loc
  | .link oldloc newloc internal =>
      (s.names oldloc).bind fun inode =>
        if s.names newloc = none then
          let s := { s with names := Function.update s.names newloc (some inode) }
          some (if internal then s else s.edit inode fun parents => quotaLinkCbk parents newloc)
        else none
  | .rename oldloc newloc =>
      (s.names oldloc).map fun inode =>
        { s with names := renameNames s.names inode oldloc newloc }.edit inode
          fun parents => quotaRenameCbk parents oldloc newloc

/-- **The lists are exact.** -/
structure Exact (s : State) : Prop where
  nodup : ∀ inode parents, s.ctx inode = some parents → parents.Nodup
  mem_iff : ∀ inode parents, s.ctx inode = some parents →
    ∀ loc, loc ∈ parents ↔ s.names loc = some inode
  known : ∀ loc inode, s.names loc = some inode → (s.ctx inode).isSome = true

/-- Quota starts with all names known. -/
def quota : Machine State Action where
  start := Exact
  step := step

/-! ## What the callbacks do to a list -/

theorem same_dentry {dentry loc : Dentry} :
    (dentry.name = loc.name ∧ loc.par = dentry.par) ↔ dentry = loc := by
  cases dentry
  cases loc
  simp only [Dentry.mk.injEq]
  constructor
  · rintro ⟨rfl, rfl⟩
    exact ⟨rfl, rfl⟩
  · rintro ⟨rfl, rfl⟩
    exact ⟨rfl, rfl⟩

variable {parents : List Dentry} {loc oldloc newloc : Dentry}

theorem addDentry_eq (parents : List Dentry) (loc : Dentry) :
    addDentry parents loc = if loc ∈ parents then parents else parents ++ [loc] := by
  have hany : (parents.any fun dentry => dentry.name = loc.name ∧ loc.par = dentry.par) = true
      ↔ loc ∈ parents := by
    simp only [same_dentry, List.any_eq_true, decide_eq_true_eq, exists_eq_right]
  simp only [addDentry, hany]

theorem quotaUnlinkCbk_eq (parents : List Dentry) (loc : Dentry) :
    quotaUnlinkCbk parents loc = parents.erase loc := by
  simp only [quotaUnlinkCbk, same_dentry]
  rw [List.erase_eq_eraseP']
  congr 1

theorem renameLoop_cons (oldloc newloc dentry : Dentry) (rest : List Dentry) (i : ℕ)
    (oldDentry : Option ℕ) (newFound : Bool) :
    renameLoop oldloc newloc (dentry :: rest) i oldDentry newFound =
      if dentry = oldloc then
        if newFound then (some i, newFound)
        else renameLoop oldloc newloc rest (i + 1) (some i) newFound
      else if dentry = newloc then
        if oldDentry.isSome then (oldDentry, true)
        else renameLoop oldloc newloc rest (i + 1) oldDentry true
      else if oldDentry.isSome && newFound then (oldDentry, newFound)
      else renameLoop oldloc newloc rest (i + 1) oldDentry newFound := by
  simp only [renameLoop, same_dentry]

/-- `new_dentry_found`. -/
theorem renameLoop_snd (l : List Dentry) (i : ℕ) (oldDentry : Option ℕ) (newFound : Bool) :
    (renameLoop oldloc newloc l i oldDentry newFound).2 = true
      ↔ newFound = true ∨ (newloc ∈ l ∧ newloc ≠ oldloc) := by
  induction l generalizing i oldDentry newFound with
  | nil => simp [renameLoop]
  | cons dentry rest ih =>
      rw [renameLoop_cons]
      by_cases hold : dentry = oldloc
      · rw [if_pos hold]
        have hmem : (newloc ∈ dentry :: rest ∧ newloc ≠ oldloc)
            ↔ (newloc ∈ rest ∧ newloc ≠ oldloc) := by
          rw [List.mem_cons, hold]
          tauto
        rw [hmem]
        cases newFound with
        | false => exact ih (i + 1) (some i) false
        | true => simp
      · rw [if_neg hold]
        by_cases hnew : dentry = newloc
        · rw [if_pos hnew]
          subst hnew
          cases oldDentry with
          | none => simp [ih, hold]
          | some j => simp [hold]
        · rw [if_neg hnew, List.mem_cons, or_iff_right (Ne.symm hnew)]
          split_ifs with hboth
          · simp [(Bool.and_eq_true_iff.mp hboth).2]
          · exact ih (i + 1) oldDentry newFound

/-- `old_dentry` stays what it is without the old name. -/
theorem renameLoop_fst_of_not_mem {l : List Dentry} (h : oldloc ∉ l) (i : ℕ)
    (oldDentry : Option ℕ) (newFound : Bool) :
    (renameLoop oldloc newloc l i oldDentry newFound).1 = oldDentry := by
  induction l generalizing i newFound with
  | nil => rfl
  | cons dentry rest ih =>
      obtain ⟨hne, hrest⟩ := not_or.mp (mt List.mem_cons.mpr h)
      rw [renameLoop_cons, if_neg (Ne.symm hne)]
      split_ifs
      · rfl
      · exact ih hrest (i + 1) true
      · rfl
      · exact ih hrest (i + 1) newFound

/-- `old_dentry` is the dentry with the old name. -/
theorem renameLoop_fst_of_mem {l : List Dentry} (hnodup : l.Nodup) (h : oldloc ∈ l) (i : ℕ)
    (newFound : Bool) :
    (renameLoop oldloc newloc l i none newFound).1 = some (i + l.idxOf oldloc) := by
  induction l generalizing i newFound with
  | nil => cases h
  | cons dentry rest ih =>
      rw [renameLoop_cons]
      obtain ⟨hfresh, hrest⟩ := List.nodup_cons.mp hnodup
      by_cases hold : dentry = oldloc
      · subst hold
        rw [if_pos rfl, List.idxOf_cons_self]
        split_ifs
        · rfl
        · exact renameLoop_fst_of_not_mem hfresh (i + 1) (some i) newFound
      · have hmem : oldloc ∈ rest := (List.mem_cons.mp h).resolve_left (Ne.symm hold)
        have hidx : i + (dentry :: rest).idxOf oldloc = (i + 1) + rest.idxOf oldloc := by
          rw [List.idxOf_cons_ne _ hold]
          omega
        rw [if_neg hold, hidx]
        simp only [Option.isSome_none, Bool.false_and, Bool.false_eq_true, if_false]
        split_ifs
        · exact ih hrest hmem (i + 1) true
        · exact ih hrest hmem (i + 1) newFound

/-- The list without the old name and with the new one. -/
theorem quotaRenameCbk_eq (hnodup : parents.Nodup) :
    quotaRenameCbk parents oldloc newloc
      = if newloc ∈ parents ∧ newloc ≠ oldloc then parents.erase oldloc
        else parents.erase oldloc ++ [newloc] := by
  have hfound : (renameLoop oldloc newloc parents 0 none false).2 = true
      ↔ newloc ∈ parents ∧ newloc ≠ oldloc := by
    rw [renameLoop_snd]
    simp
  simp only [quotaRenameCbk, hfound]
  by_cases hmem : oldloc ∈ parents
  · rw [renameLoop_fst_of_mem hnodup hmem, Nat.zero_add]
    simp only [List.erase_eq_eraseIdx_of_idxOf rfl]
  · rw [renameLoop_fst_of_not_mem hmem, List.erase_of_not_mem hmem]

theorem mem_quotaRenameCbk (hnodup : parents.Nodup) :
    loc ∈ quotaRenameCbk parents oldloc newloc ↔ (loc ∈ parents ∧ loc ≠ oldloc) ∨ loc = newloc := by
  rw [quotaRenameCbk_eq hnodup]
  split_ifs with h
  · rw [hnodup.mem_erase_iff, and_comm]
    refine (or_iff_left_of_imp ?_).symm
    rintro rfl
    exact h
  · rw [List.mem_append, hnodup.mem_erase_iff, List.mem_singleton, and_comm]

theorem nodup_quotaRenameCbk (hnodup : parents.Nodup) :
    (quotaRenameCbk parents oldloc newloc).Nodup := by
  rw [quotaRenameCbk_eq hnodup]
  split_ifs with h
  · exact hnodup.erase oldloc
  · refine List.Nodup.append (hnodup.erase oldloc) (List.nodup_singleton newloc) ?_
    rw [List.disjoint_singleton, hnodup.mem_erase_iff]
    exact fun hmem => h hmem.symm

theorem mem_addDentry : loc ∈ addDentry parents newloc ↔ loc ∈ parents ∨ loc = newloc := by
  rw [addDentry_eq]
  split_ifs with h
  · refine (or_iff_left_of_imp ?_).symm
    rintro rfl
    exact h
  · rw [List.mem_append, List.mem_singleton]

theorem nodup_addDentry (hnodup : parents.Nodup) : (addDentry parents newloc).Nodup := by
  rw [addDentry_eq]
  split_ifs with h
  · exact hnodup
  · refine List.Nodup.append hnodup (List.nodup_singleton newloc) ?_
    rw [List.disjoint_singleton]
    exact h

/-! ## The operations -/

variable {s s' : State}

/-- **The rule for the operations.**  The names and the list of one file change; the lists stay exact
if that of the file follows its names, and the names of all other files stay. -/
theorem Exact.edit (h : Exact s) {inode : ℕ} {f : List Dentry → List Dentry}
    (hothers : ∀ loc i, i ≠ inode → (s'.names loc = some i ↔ s.names loc = some i))
    (hctx : s'.ctx = Function.update s.ctx inode ((s.ctx inode).map f))
    (hknown : (s.ctx inode).isSome = true)
    (hnodup : ∀ parents, parents.Nodup → (f parents).Nodup)
    (hmem : ∀ parents, s.ctx inode = some parents →
      ∀ loc, loc ∈ f parents ↔ s'.names loc = some inode) : Exact s' := by
  have hctx_ne : ∀ i, i ≠ inode → s'.ctx i = s.ctx i := by
    intro i hi
    rw [hctx, Function.update_of_ne hi]
  have hctx_self : s'.ctx inode = (s.ctx inode).map f := by rw [hctx, Function.update_self]
  refine ⟨fun i parents hi => ?_, fun i parents hi loc => ?_, fun loc i hi => ?_⟩
  · by_cases heq : i = inode
    · rw [heq, hctx_self] at hi
      obtain ⟨old, hold, rfl⟩ := Option.map_eq_some_iff.mp hi
      exact hnodup old (h.nodup inode old hold)
    · rw [hctx_ne i heq] at hi
      exact h.nodup i parents hi
  · by_cases heq : i = inode
    · rw [heq, hctx_self] at hi
      obtain ⟨old, hold, rfl⟩ := Option.map_eq_some_iff.mp hi
      rw [heq]
      exact hmem old hold loc
    · rw [hctx_ne i heq] at hi
      rw [hothers loc i heq]
      exact h.mem_iff i parents hi loc
  · by_cases heq : i = inode
    · rw [heq, hctx_self, Option.isSome_map]
      exact hknown
    · rw [hctx_ne i heq]
      exact h.known loc i ((hothers loc i heq).mp hi)

/-- A name that another file does not get keeps the names of the others. -/
theorem update_names_iff {names : Dentry → Option ℕ} {inode i : ℕ} (hi : i ≠ inode)
    {target : Option ℕ} (hold : names newloc = none ∨ names newloc = some inode)
    (hnew : target = none ∨ target = some inode) (loc : Dentry) :
    Function.update names newloc target loc = some i ↔ names loc = some i := by
  by_cases heq : loc = newloc
  · subst heq
    rw [Function.update_self]
    rcases hold with hold | hold <;> rcases hnew with hnew | hnew <;> simp [hold, hnew, Ne.symm hi]
  · rw [Function.update_of_ne heq]

theorem Exact.lookup (h : Exact s) {inode : ℕ} (hname : s.names loc = some inode) :
    Exact (lookup s inode (some loc)) := by
  obtain ⟨parents, hparents⟩ := Option.isSome_iff_exists.mp (h.known loc inode hname)
  refine @Exact.edit _ _ h inode (fun parents => addDentry parents loc)
    (fun _ _ _ => Iff.rfl) ?_ (h.known loc inode hname) (fun _ => nodup_addDentry) ?_
  · simp [Parents.lookup, quotaFillInodectx, hparents]
  · intro parents hparents x
    rw [mem_addDentry, h.mem_iff inode parents hparents]
    refine or_iff_left_of_imp ?_
    rintro rfl
    exact hname

theorem Exact.namelessLookup (h : Exact s) (inode : ℕ) : Exact (Parents.lookup s inode none) := by
  cases hctx : s.ctx inode with
  | some parents =>
      have hsame : Parents.lookup s inode none = s := by
        simp only [Parents.lookup, quotaFillInodectx, hctx, Option.getD_some]
        rw [← hctx, Function.update_eq_self]
      rw [hsame]
      exact h
  | none =>
      -- a file without a context has no name, so that the empty list is exact
      have hnone : ∀ loc, s.names loc ≠ some inode := by
        intro loc hloc
        have hknown := h.known loc inode hloc
        rw [hctx] at hknown
        cases hknown
      have hself : (Parents.lookup s inode none).ctx inode = some [] := by
        simp [Parents.lookup, quotaFillInodectx, hctx]
      have hne : ∀ i, i ≠ inode → (Parents.lookup s inode none).ctx i = s.ctx i :=
        fun i hi => Function.update_of_ne hi _ _
      refine ⟨fun i parents hi => ?_, fun i parents hi loc => ?_, fun loc i hi => ?_⟩
      · by_cases heq : i = inode
        · rw [heq, hself] at hi
          obtain rfl := Option.some.inj hi
          exact List.nodup_nil
        · exact h.nodup i parents (hne i heq ▸ hi)
      · by_cases heq : i = inode
        · rw [heq, hself] at hi
          obtain rfl := Option.some.inj hi
          rw [heq]
          exact iff_of_false List.not_mem_nil (hnone loc)
        · exact h.mem_iff i parents (hne i heq ▸ hi) loc
      · have heq : i ≠ inode := by
          rintro rfl
          exact hnone loc hi
        rw [hne i heq]
        exact h.known loc i hi

theorem Exact.unlink (h : Exact s) {inode : ℕ} (hname : s.names loc = some inode) :
    Exact ({ s with names := Function.update s.names loc none }.edit inode
      fun parents => quotaUnlinkCbk parents loc) := by
  refine h.edit (fun x i hi => update_names_iff hi (.inr hname) (.inl rfl) x) rfl
    (h.known loc inode hname) (fun parents hnodup => ?_) fun parents hparents x => ?_
  · rw [quotaUnlinkCbk_eq]
    exact hnodup.erase loc
  · rw [quotaUnlinkCbk_eq, (h.nodup inode parents hparents).mem_erase_iff,
      h.mem_iff inode parents hparents]
    change _ ↔ Function.update s.names loc none x = some inode
    by_cases hx : x = loc
    · simp [hx]
    · simp [hx]

theorem Exact.link (h : Exact s) {inode : ℕ} (hname : s.names oldloc = some inode)
    (hfree : s.names newloc = none) :
    Exact ({ s with names := Function.update s.names newloc (some inode) }.edit inode
      fun parents => quotaLinkCbk parents newloc) := by
  refine h.edit (fun x i hi => update_names_iff hi (.inl hfree) (.inr rfl) x) rfl
    (h.known oldloc inode hname) (fun _ => nodup_addDentry) fun parents hparents x => ?_
  rw [quotaLinkCbk, mem_addDentry, h.mem_iff inode parents hparents]
  change _ ↔ Function.update s.names newloc (some inode) x = some inode
  by_cases hx : x = newloc
  · simp [hx]
  · simp [hx]

/-- What a rename of a name of `inode` leads to. -/
def renamed (s : State) (inode : ℕ) (oldloc newloc : Dentry) : State :=
  { s with names := renameNames s.names inode oldloc newloc }.edit inode
    fun parents => quotaRenameCbk parents oldloc newloc

theorem Exact.rename_free (h : Exact s) {inode : ℕ} (hname : s.names oldloc = some inode)
    (hfree : s.names newloc = none) : Exact (renamed s inode oldloc newloc) := by
  have hne : newloc ≠ oldloc := by
    rintro rfl
    rw [hname] at hfree
    cases hfree
  have hnames : (renamed s inode oldloc newloc).names
      = Function.update (Function.update s.names oldloc none) newloc (some inode) := by
    change renameNames s.names inode oldloc newloc = _
    rw [renameNames, if_neg (by simp [hfree])]
  have hfree' : Function.update s.names oldloc none newloc = none := by
    rw [Function.update_of_ne hne, hfree]
  refine @Exact.edit _ _ h inode _ (fun x i hi => ?_) rfl (h.known oldloc inode hname)
    (fun _ => nodup_quotaRenameCbk) fun parents hparents x => ?_
  · rw [hnames, update_names_iff hi (.inl hfree') (.inr rfl)]
    exact update_names_iff hi (.inr hname) (.inl rfl) x
  · rw [mem_quotaRenameCbk (h.nodup inode parents hparents), h.mem_iff inode parents hparents, hnames]
    by_cases hx : x = newloc
    · simp [hx]
    · rw [Function.update_of_ne hx]
      by_cases hold : x = oldloc
      · simp [hold, Ne.symm hne]
      · simp [hx, hold]

theorem Exact.rename_self (h : Exact s) {inode : ℕ} (hname : s.names oldloc = some inode) :
    Exact (renamed s inode oldloc oldloc) := by
  have hnames : (renamed s inode oldloc oldloc).names = s.names := if_pos hname
  refine @Exact.edit _ _ h inode _ (fun x i hi => ?_) rfl (h.known oldloc inode hname)
    (fun _ => nodup_quotaRenameCbk) fun parents hparents x => ?_
  · rw [hnames]
  · rw [mem_quotaRenameCbk (h.nodup inode parents hparents), h.mem_iff inode parents hparents, hnames]
    by_cases hx : x = oldloc
    · simp [hx, hname]
    · simp [hx]

/-- A rename onto another name of the same file loses the old name. -/
theorem not_exact_of_rename_same (h : Exact s) {inode : ℕ} (hname : s.names oldloc = some inode)
    (hsame : s.names newloc = some inode) (hne : newloc ≠ oldloc) :
    ¬ Exact (renamed s inode oldloc newloc) := by
  intro hexact
  obtain ⟨parents, hparents⟩ := Option.isSome_iff_exists.mp (h.known oldloc inode hname)
  have hnames : (renamed s inode oldloc newloc).names = s.names := if_pos hsame
  have hctx : (renamed s inode oldloc newloc).ctx inode
      = some (quotaRenameCbk parents oldloc newloc) := by
    simp [renamed, State.edit, hparents]
  have hmem := (hexact.mem_iff inode _ hctx oldloc).mpr (by rw [hnames, hname])
  rw [mem_quotaRenameCbk (h.nodup inode parents hparents)] at hmem
  rcases hmem with ⟨-, hself⟩ | heq
  · exact hself rfl
  · exact hne heq.symm

/-- A rename onto the name of another file leaves it with the name. -/
theorem not_exact_of_rename_other (h : Exact s) {inode other : ℕ} (hother : other ≠ inode)
    (hused : s.names newloc = some other) : ¬ Exact (renamed s inode oldloc newloc) := by
  intro hexact
  obtain ⟨parents, hparents⟩ := Option.isSome_iff_exists.mp (h.known newloc other hused)
  have hctx : (renamed s inode oldloc newloc).ctx other = some parents := by
    simp [renamed, State.edit, Function.update_of_ne hother, hparents]
  have hmem : newloc ∈ parents := (h.mem_iff other parents hparents newloc).mpr hused
  have hname : (renamed s inode oldloc newloc).names newloc = some other :=
    (hexact.mem_iff other parents hctx newloc).mp hmem
  have hnew : (renamed s inode oldloc newloc).names newloc = some inode := by
    have hne : s.names newloc ≠ some inode := by
      rw [hused]
      exact fun heq => hother (Option.some.inj heq)
    change renameNames s.names inode oldloc newloc newloc = some inode
    rw [renameNames, if_neg hne, Function.update_self]
  rw [hnew] at hname
  exact hother (Option.some.inj hname).symm

/-- **Which renames keep the lists exact.** -/
theorem exact_rename_iff (h : Exact s) {inode : ℕ} (hname : s.names oldloc = some inode) :
    Exact (renamed s inode oldloc newloc) ↔ s.names newloc = none ∨ newloc = oldloc := by
  constructor
  · intro hexact
    cases hused : s.names newloc with
    | none => exact .inl rfl
    | some other =>
        right
        by_contra hne
        by_cases hother : other = inode
        · rw [hother] at hused
          exact not_exact_of_rename_same h hname hused hne hexact
        · exact not_exact_of_rename_other h hother hused hexact
  · rintro (hfree | rfl)
    · exact h.rename_free hname hfree
    · exact h.rename_self hname

/-- Links are recorded, and nothing is renamed onto a name that is in use. -/
def plain (s : State) : Action → Bool
  | .link _ _ internal => !internal
  | .rename oldloc newloc => s.names newloc = none ∨ newloc = oldloc
  | .lookup _ | .namelessLookup _ | .unlink _ => true

/-- **One operation.** -/
theorem Exact.step (h : Exact s) {a : Action} (hplain : plain s a = true)
    (hstep : step s a = some s') : Exact s' := by
  cases a with
  | lookup loc =>
      obtain ⟨inode, hname, rfl⟩ := Option.map_eq_some_iff.mp hstep
      exact h.lookup hname
  | namelessLookup inode =>
      obtain rfl := Option.some.inj hstep
      exact h.namelessLookup inode
  | unlink loc =>
      obtain ⟨inode, hname, rfl⟩ := Option.map_eq_some_iff.mp hstep
      exact h.unlink hname
  | link oldloc newloc internal =>
      obtain rfl : internal = false := by simpa [plain] using hplain
      obtain ⟨inode, hname, hs'⟩ := Option.bind_eq_some_iff.mp hstep
      obtain ⟨hfree, hs'⟩ := Option.ite_none_right_eq_some.mp hs'
      obtain rfl := Option.some.inj hs'
      exact h.link hname hfree
  | rename oldloc newloc =>
      obtain ⟨inode, hname, rfl⟩ := Option.map_eq_some_iff.mp hstep
      exact (exact_rename_iff h hname).mpr (of_decide_eq_true hplain)

/-- **The lists follow the links.**  In every sequence of lookups, links, unlinks and renames in which
links are recorded and no rename goes onto a name in use, the list of every file is exact; and a
rename keeps the lists exact only if the new name is free or is the old one. -/
theorem parents_exact (h : quota.ReachableWhen (fun s a => plain s a = true) s) :
    Exact s ∧ ∀ oldloc newloc s', step s (.rename oldloc newloc) = some s' →
      (Exact s' ↔ s.names newloc = none ∨ newloc = oldloc) := by
  have hexact : Exact s :=
    h.invariant Exact (fun _ hs => hs) fun s a s' hs hplain hstep => hs.step hplain hstep
  refine ⟨hexact, fun oldloc newloc s' hstep => ?_⟩
  obtain ⟨inode, hname, rfl⟩ := Option.map_eq_some_iff.mp hstep
  exact exact_rename_iff hexact hname

/-! ## Runs -/

/-- The file `1` has the names `a` and `b`, and the file `2` has the name `c`. -/
def twoFiles : State where
  names loc :=
    if loc = ⟨0, "a"⟩ ∨ loc = ⟨0, "b"⟩ then some 1 else if loc = ⟨0, "c"⟩ then some 2 else none
  ctx i :=
    if i = 1 then some [⟨0, "a"⟩, ⟨0, "b"⟩] else if i = 2 then some [⟨0, "c"⟩] else none

theorem exact_twoFiles : Exact twoFiles := by
  have hctx : ∀ i parents, twoFiles.ctx i = some parents →
      (i = 1 ∧ parents = [⟨0, "a"⟩, ⟨0, "b"⟩]) ∨ (i = 2 ∧ parents = [⟨0, "c"⟩]) := by
    intro i parents h
    simp only [twoFiles] at h
    split_ifs at h with h1 h2
    · exact .inl ⟨h1, (Option.some.inj h).symm⟩
    · exact .inr ⟨h2, (Option.some.inj h).symm⟩
  refine ⟨fun i parents h => ?_, fun i parents h loc => ?_, fun loc i h => ?_⟩
  · rcases hctx i parents h with ⟨-, rfl⟩ | ⟨-, rfl⟩ <;> decide
  · rcases hctx i parents h with ⟨rfl, rfl⟩ | ⟨rfl, rfl⟩
    · by_cases hab : loc = ⟨0, "a"⟩ ∨ loc = ⟨0, "b"⟩
      · simp [twoFiles, hab]
      · simp only [twoFiles, if_neg hab]
        split_ifs <;> simpa using hab
    · by_cases hab : loc = ⟨0, "a"⟩ ∨ loc = ⟨0, "b"⟩
      · rcases hab with rfl | rfl <;> simp [twoFiles]
      · simp only [twoFiles, if_neg hab]
        split_ifs with hc <;> simp [hc]
  · simp only [twoFiles] at h
    split_ifs at h
    · obtain rfl := Option.some.inj h
      rfl
    · obtain rfl := Option.some.inj h
      rfl

/-- The name `a` is moved to another directory. -/
theorem parents_exact_moved :
    ∃ s, quota.ReachableWhen (fun s a => plain s a = true) s ∧ Exact s
      ∧ s.ctx 1 = some [⟨0, "b"⟩, ⟨7, "d"⟩] := by
  have hrun : (quota.execWhen (fun s a => plain s a = true) twoFiles
      [.rename ⟨0, "a"⟩ ⟨7, "d"⟩]).map (fun s => s.ctx 1)
      = some (some [⟨0, "b"⟩, ⟨7, "d"⟩]) := by decide
  obtain ⟨s, hs, hctx⟩ := Option.map_eq_some_iff.mp hrun
  have hreach : quota.ReachableWhen (fun s a => plain s a = true) s :=
    Machine.ReachableWhen.execWhen (.start exact_twoFiles) _ hs
  exact ⟨s, hreach, (parents_exact hreach).1, hctx⟩

/-- **Lists that are not exact.**  `c` is renamed onto `a`, and the file that was `a` keeps the name
in its list; or `a` is renamed onto `b`, the other name of the file, and the list loses `a`. -/
theorem parents_not_exact :
    Exact twoFiles
      ∧ (∃ s, step twoFiles (.rename ⟨0, "c"⟩ ⟨0, "a"⟩) = some s
        ∧ s.names ⟨0, "a"⟩ = some 2 ∧ s.ctx 1 = some [⟨0, "a"⟩, ⟨0, "b"⟩])
      ∧ ∃ s, step twoFiles (.rename ⟨0, "a"⟩ ⟨0, "b"⟩) = some s
        ∧ s.names ⟨0, "a"⟩ = some 1 ∧ s.ctx 1 = some [⟨0, "b"⟩] :=
  ⟨exact_twoFiles, ⟨_, rfl, by decide, by decide⟩, ⟨_, rfl, by decide, by decide⟩⟩

end GlusterFS.Quota.Parents
