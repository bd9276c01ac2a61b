import GlusterFS.Marker.Quota

/-!
# Skipped quota transactions

A transaction is only started for an inode whose `updation_status` is not set; a transaction that
climbs the tree stops at a directory with the status set.  The status is cleared in the middle of a
transaction, **before** the size is read.

`idle_balanced` shows that nothing is lost by this.  If no operation fails and every file has one
link, then in every state without a transaction each contribution is the size of its child, and each
directory has the sum of the sizes of its children.

The argument is about one child `c` of a directory `d` at a time.  Either the contribution, with what
a transaction has read and not yet added, is the size of `c`; or some transaction is **responsible**
for `c`: it has still to read the size of `c`, or it has changed the size of the directory `c` and has
still to climb to it.  A transaction that is skipped leaves its duty to the one that has set the
status, since that one has not read yet.
-/

namespace GlusterFS.Marker

section Coalesce

variable {ι V : Type*} {tree : Tree ι} {s s' : Quota ι V} {i : ℕ} {t : Txn ι V} {c d : ι}

/-! ## Who is responsible -/

/-- No operation fails, and the process does not stop. -/
def Succeeds (_ : Quota ι V) : Action ι V → Prop
  | .answer _ failed _ => failed = false
  | .initiate .. => True
  | .stop => False

/-- The size of the child is still to be read. -/
def Phase.reads : Phase V → Prop
  | .arrive | .waitLock | .markdirty | .fetch | .lookup => True
  | _ => False

/-- The status of the child is still to be cleared. -/
def Phase.flagged : Phase V → Prop
  | .waitLock | .markdirty | .fetch => True
  | _ => False

theorem Phase.flagged.reads {phase : Phase V} (h : phase.flagged) : phase.reads := by
  cases phase <;> first | exact h.elim | exact trivial

/-- Every file has one link. -/
def Tree.OneLink (tree : Tree ι) : Prop :=
  ∀ c d e, tree.isDir c = false → c ∈ tree.children d → c ∈ tree.children e → d = e

theorem Tree.OneLink.parent_eq {e : ι} (hone : tree.OneLink) (hd : c ∈ tree.children d)
    (he : c ∈ tree.children e) : d = e := by
  cases hdir : tree.isDir c with
  | false => exact hone c d e hdir hd he
  | true => exact Option.some.inj ((tree.up_of_mem hdir hd).symm.trans (tree.up_of_mem hdir he))

variable [AddCommGroup V]

/-- Sizes and contributions agree. -/
def Tree.Balanced (tree : Tree ι) (s : Quota ι V) : Prop :=
  (∀ c d, c ∈ tree.children d → s.contri c d = s.size c) ∧
    ∀ d, tree.isDir d = true → tree.Consistent s d

/-- The size of the directory was changed, and the transaction has still to climb. -/
def Phase.climbs : Phase V → Prop
  | .undirty delta | .release delta false => delta ≠ 0
  | _ => False

/-- The transaction will see to it that the contribution of `c` becomes its size. -/
def Txn.Responsible (t : Txn ι V) (c : ι) : Prop :=
  t.child = c ∧ t.phase.reads ∨ t.parent = c ∧ t.phase.climbs

/-- Some transaction is responsible. -/
def Attended (s : Quota ι V) (c : ι) : Prop := ∃ i t, s.txns i = some t ∧ t.Responsible c

theorem Attended.of_ne {j : ℕ} {u : Txn ι V} (hframe : Frame s s' i d) (hu : s.txns j = some u)
    (hne : j ≠ i) (hresponsible : u.Responsible c) : Attended s' c :=
  ⟨j, u, (hframe.txns j hne).trans hu, hresponsible⟩

variable [DecidableEq ι]

/-- What a transaction has read and has still to add to the contribution of `c`. -/
def Txn.pending (t : Txn ι V) (c : ι) : V :=
  match t.phase with
  | .contribution delta => if t.child = c then delta else 0
  | _ => 0

/-- The same for the transaction that holds the lock of `d`. -/
def Quota.pending (s : Quota ι V) (c d : ι) : V :=
  ((s.lock d).bind s.txns).elim 0 fun t => t.pending c

/-- The contribution will be the size. -/
def Fresh (s : Quota ι V) (c d : ι) : Prop := s.contri c d + s.pending c d = s.size c

/-- What is true of a transaction when nothing fails. -/
def Tree.PhaseFine (tree : Tree ι) (s : Quota ι V) (d : ι) : Phase V → Prop
  | .release _ err => err = false ∧ tree.Consistent s d
  | .stuck => False
  | _ => True

/-- **The invariant of runs without failures.** -/
structure SyncOk (tree : Tree ι) (s : Quota ι V) : Prop where
  marker : MarkerOk tree s
  free : ∀ d, tree.isDir d = true → s.lock d = none → tree.Consistent s d
  phases : ∀ i t, s.txns i = some t → tree.PhaseFine s t.parent t.phase
  fresh : ∀ c d, c ∈ tree.children d → Fresh s c d ∨ Attended s c
  flags : ∀ c, s.status c = true → ∃ i t, s.txns i = some t ∧ t.child = c ∧ t.phase.flagged

theorem pending_of_free (hlock : s.lock d = none) (c : ι) : s.pending c d = 0 := by
  rw [Quota.pending, hlock]
  rfl

theorem pending_of_holder (hlock : s.lock d = some i) (htxn : s.txns i = some t) (c : ι) :
    s.pending c d = t.pending c := by
  rw [Quota.pending, hlock, Option.bind_some, htxn]
  rfl

/-- Another lock, or a lock that another transaction holds. -/
theorem pending_congr (hlock : s'.lock d = s.lock d) (hnot : s.lock d ≠ some i)
    (htxns : ∀ j ≠ i, s'.txns j = s.txns j) (c : ι) : s'.pending c d = s.pending c d := by
  rw [Quota.pending, Quota.pending, hlock]
  cases hj : s.lock d with
  | none => rfl
  | some j =>
      rw [hj] at hnot
      rw [Option.bind_some, Option.bind_some, htxns j fun h => hnot (congrArg some h)]

/-- **The children of all directories** after a step of one transaction. -/
theorem fresh_of_frame (hok : SyncOk tree s) (htxn : s.txns i = some t)
    (hframe : Frame s s' i t.parent)
    (hsum : ∀ c ∈ tree.children t.parent, s'.contri c t.parent + s'.pending c t.parent =
      s.contri c t.parent + s.pending c t.parent ∨ Fresh s' c t.parent)
    (hsize : s'.size t.parent = s.size t.parent ∨ Attended s' t.parent)
    (hself : ∀ c d, c ∈ tree.children d → t.Responsible c → Fresh s' c d ∨ Attended s' c) :
    ∀ c d, c ∈ tree.children d → Fresh s' c d ∨ Attended s' c := by
  intro c d hc
  rcases hok.fresh c d hc with hfresh | ⟨j, u, hu, hresponsible⟩
  swap
  · by_cases hne : j = i
    · subst hne
      rw [htxn] at hu
      obtain rfl := Option.some.inj hu
      exact hself c d hc hresponsible
    · exact Or.inr (.of_ne hframe hu hne hresponsible)
  -- the size of `c` is the same, or the transaction has just changed it
  have hsame : s'.size c = s.size c ∨ Attended s' c := by
    by_cases hcd : c = t.parent
    · exact hcd ▸ hsize
    · exact Or.inl (hframe.size c hcd)
  rcases hsame with hsame | hattended
  swap
  · exact Or.inr hattended
  left
  by_cases hd : d = t.parent
  · subst hd
    rcases hsum c hc with hsum | hfresh'
    · rw [Fresh, hsum, hsame]
      exact hfresh
    · exact hfresh'
  · have hnot : s.lock d ≠ some i := by
      intro hlock
      have hdir := hok.marker.dirs d (tree.isDir_of_mem hc)
      rw [Tree.DirOk, hlock] at hdir
      obtain ⟨u, hu, hparent, -⟩ := hdir
      rw [htxn] at hu
      obtain rfl := Option.some.inj hu
      exact hd hparent.symm
    rw [Fresh, hframe.contri d hd, pending_congr (hframe.lock d hd) hnot hframe.txns, hsame]
    exact hfresh

theorem free_of_frame (hok : SyncOk tree s) (hframe : Frame s s' i t.parent)
    (hparent : s'.lock t.parent = none → tree.Consistent s' t.parent) :
    ∀ d, tree.isDir d = true → s'.lock d = none → tree.Consistent s' d := by
  intro d hd hlock
  by_cases hdp : d = t.parent
  · subst hdp
    exact hparent hlock
  · rw [hframe.lock d hdp] at hlock
    exact Consistent.congr (hframe.size d hdp) (hframe.contri d hdp) (hok.free d hd hlock)

/-- The other transactions: one that releases the lock of the same directory holds it. -/
theorem phases_of_frame (hok : SyncOk tree s) (htxn : s.txns i = some t)
    (hframe : Frame s s' i t.parent)
    (hdisk : t.phase.holds ∨ s'.size t.parent = s.size t.parent ∧
      ∀ c, s'.contri c t.parent = s.contri c t.parent)
    (hself : ∀ u, s'.txns i = some u → tree.PhaseFine s' u.parent u.phase) :
    ∀ j u, s'.txns j = some u → tree.PhaseFine s' u.parent u.phase := by
  intro j u hu
  by_cases hne : j = i
  · subst hne
    exact hself u hu
  rw [hframe.txns j hne] at hu
  have hfine := hok.phases j u hu
  have hlocked := hok.marker.holders j u hu
  cases hphase : u.phase with
  | release delta err =>
      rw [hphase] at hfine hlocked
      refine ⟨hfine.1, ?_⟩
      by_cases hparent : u.parent = t.parent
      · rcases hdisk with hholds | ⟨hsize, hcontri⟩
        · have hmine := hok.marker.holders i t htxn hholds
          rw [← hparent, hlocked trivial] at hmine
          exact absurd (Option.some.inj hmine) hne
        · exact hparent ▸ Consistent.congr hsize hcontri (hparent ▸ hfine.2)
      · exact Consistent.congr (hframe.size _ hparent) (hframe.contri _ hparent) hfine.2
  | stuck =>
      rw [hphase] at hfine
      exact hfine
  | _ => exact trivial

theorem flags_of_frame (hok : SyncOk tree s) (htxn : s.txns i = some t)
    (hframe : Frame s s' i t.parent)
    (hstatus : ∀ c, s'.status c = true → s.status c = true ∧ (t.child = c → ¬ t.phase.flagged) ∨
      ∃ u, s'.txns i = some u ∧ u.child = c ∧ u.phase.flagged) :
    ∀ c, s'.status c = true → ∃ j u, s'.txns j = some u ∧ u.child = c ∧ u.phase.flagged := by
  intro c hc
  rcases hstatus c hc with ⟨hold, hnot⟩ | ⟨u, hu⟩
  · obtain ⟨j, u, hu, hchild, hflagged⟩ := hok.flags c hold
    have hne : j ≠ i := by
      rintro rfl
      rw [htxn] at hu
      obtain rfl := Option.some.inj hu
      exact hnot hchild hflagged
    exact ⟨j, u, (hframe.txns j hne).trans hu, hchild, hflagged⟩
  · exact ⟨i, u, hu⟩

/-- The transaction does not hold the lock. -/
theorem SyncOk.lock_ne (hok : SyncOk tree s) (htxn : s.txns i = some t) (hwaits : ¬ t.phase.holds) :
    s.lock t.parent ≠ some i := by
  intro hlock
  have hdir := hok.marker.dirs t.parent (tree.isDir_of_mem (hok.marker.members i t htxn))
  rw [Tree.DirOk, hlock] at hdir
  obtain ⟨u, hu, -, hholdOk⟩ := hdir
  rw [htxn] at hu
  obtain rfl := Option.some.inj hu
  exact hwaits (HoldOk.holds hholdOk)

/-- **A transaction begins**: it is responsible for the file that has changed. -/
theorem SyncOk.initiate {v : V} (hok : SyncOk tree s) (hfresh : s.txns i = none)
    (hmember : c ∈ tree.children d) (hsize : tree.isDir c = true → v = s.size c) :
    SyncOk tree { s with
      size := Function.update s.size c v
      txns := Function.update s.txns i (some ⟨c, d, .arrive⟩) } := by
  have hothers : ∀ j u, s.txns j = some u →
      Function.update s.txns i (some ⟨c, d, .arrive⟩) j = some u := by
    intro j u hu
    have hne : j ≠ i := by
      rintro rfl
      rw [hfresh] at hu
      cases hu
    exact (Function.update_of_ne hne _ _).trans hu
  have hdirs : ∀ e, tree.isDir e = true → Function.update s.size c v e = s.size e := by
    intro e he
    by_cases hc : e = c
    · subst hc
      rw [Function.update_self, hsize he]
    · rw [Function.update_of_ne hc]
  refine ⟨hok.marker.initiate hfresh hmember hsize, fun e he hlock => ?_, fun j u hu => ?_,
    fun c' e hc' => ?_, fun c' hc' => ?_⟩
  · exact Consistent.congr (hdirs e he) (fun _ => rfl) (hok.free e he hlock)
  · by_cases hne : j = i
    · subst hne
      obtain rfl := Option.some.inj ((Function.update_self j _ s.txns).symm.trans hu)
      exact trivial
    · have hold : s.txns j = some u := (Function.update_of_ne hne _ _).symm.trans hu
      have hfine := hok.phases j u hold
      have hparent := hdirs _ (tree.isDir_of_mem (hok.marker.members j u hold))
      cases hphase : u.phase with
      | release delta err =>
          rw [hphase] at hfine
          exact ⟨hfine.1, Consistent.congr hparent (fun _ => rfl) hfine.2⟩
      | stuck =>
          rw [hphase] at hfine
          exact hfine
      | _ => exact trivial
  · by_cases hchild : c' = c
    · subst hchild
      exact Or.inr ⟨i, _, Function.update_self .., Or.inl ⟨rfl, trivial⟩⟩
    · rcases hok.fresh c' e hc' with hold | ⟨j, u, hu, hresponsible⟩
      · left
        rw [Fresh, Quota.pending]
        dsimp only
        rw [Function.update_of_ne hchild, ← hold, Quota.pending]
        congr 2
        cases hlock : s.lock e with
        | none => rfl
        | some j =>
            have hdir := hok.marker.dirs e (tree.isDir_of_mem hc')
            rw [Tree.DirOk, hlock] at hdir
            obtain ⟨u, hu, -⟩ := hdir
            rw [Option.bind_some, Option.bind_some, hothers j u hu, hu]
      · exact Or.inr ⟨j, u, hothers j u hu, hresponsible⟩
  · obtain ⟨j, u, hu, hflagged⟩ := hok.flags c' hc'
    exact ⟨j, u, hothers j u hu, hflagged⟩

/-! ## One answer -/

variable [DecidableEq V]

/-- **Before the lock**: the disk is not touched. -/
theorem SyncOk.waiting {applied : Bool} (hok : SyncOk tree s) (htxn : s.txns i = some t)
    (hwaits : ¬ t.phase.holds) (hmarker : MarkerOk tree s')
    (hstep : tree.answer s i t false applied = some s') (hsize : s'.size = s.size)
    (hcontri : s'.contri = s.contri) (hlock : s'.lock t.parent = s.lock t.parent ∨
      s.lock t.parent = none ∧ s'.lock t.parent = some i)
    (hphase : ∀ u, s'.txns i = some u → u.phase = .waitLock ∨ u.phase = .markdirty)
    (hself : ∀ c, t.Responsible c → Attended s' c)
    (hstatus : ∀ c, s'.status c = true → s.status c = true ∧ (t.child = c → ¬ t.phase.flagged) ∨
      ∃ u, s'.txns i = some u ∧ u.child = c ∧ u.phase.flagged) : SyncOk tree s' := by
  have hframe := answer_frame hstep
  have hmember := hok.marker.members i t htxn
  have hsizeAt : s'.size t.parent = s.size t.parent := by rw [hsize]
  have hcontriAt : ∀ c, s'.contri c t.parent = s.contri c t.parent := fun c => by rw [hcontri]
  refine ⟨hmarker, ?_, ?_, ?_, flags_of_frame hok htxn hframe hstatus⟩
  · refine free_of_frame hok hframe fun hnone => ?_
    rcases hlock with hsame | ⟨-, hmine⟩
    · rw [hsame] at hnone
      exact Consistent.congr hsizeAt hcontriAt
        (hok.free t.parent (tree.isDir_of_mem hmember) hnone)
    · rw [hmine] at hnone
      cases hnone
  · refine phases_of_frame hok htxn hframe (Or.inr ⟨hsizeAt, hcontriAt⟩) fun u hu => ?_
    rcases hphase u hu with hphase | hphase <;> rw [hphase] <;> exact trivial
  · refine fresh_of_frame hok htxn hframe (fun c hc => Or.inl ?_) (Or.inl hsizeAt)
      fun c d _ hresponsible => Or.inr (hself c hresponsible)
    rw [hcontriAt c]
    congr 1
    rcases hlock with hsame | ⟨hfree, hmine⟩
    · exact pending_congr hsame (hok.lock_ne htxn hwaits) hframe.txns c
    · rw [pending_of_free hfree]
      cases htxn' : s'.txns i with
      | none =>
          rw [Quota.pending, hmine, Option.bind_some, htxn']
          rfl
      | some u =>
          rw [pending_of_holder hmine htxn', Txn.pending]
          rcases hphase u htxn' with hphase | hphase <;> rw [hphase]

/-- **Under the lock**: the transaction goes on to another phase. -/
theorem SyncOk.holding {applied : Bool} {phase : Phase V} (hok : SyncOk tree s)
    (htxn : s.txns i = some t) (hholds : t.phase.holds) (hmarker : MarkerOk tree s')
    (hstep : tree.answer s i t false applied = some s') (hlock : s'.lock t.parent = some i)
    (hself : s'.txns i = some { t with phase := phase })
    (hfine : tree.PhaseFine s' t.parent phase)
    (hsum : ∀ c, s'.contri c t.parent + Txn.pending { t with phase := phase } c =
      s.contri c t.parent + t.pending c ∨
        s'.contri c t.parent + Txn.pending { t with phase := phase } c = s'.size c)
    (hsize : s'.size t.parent = s.size t.parent ∨ phase.climbs)
    (hresponsible : ∀ c, t.Responsible c → Txn.Responsible { t with phase := phase } c ∨
      c = t.child ∧ s'.contri c t.parent + Txn.pending { t with phase := phase } c = s'.size c)
    (hone : tree.OneLink)
    (hstatus : ∀ c, s'.status c = true →
      s.status c = true ∧ (t.child = c → ¬ t.phase.flagged ∨ phase.flagged)) :
    SyncOk tree s' := by
  have hframe := answer_frame hstep
  have hmember := hok.marker.members i t htxn
  have hpending : ∀ c, s'.pending c t.parent = Txn.pending { t with phase := phase } c :=
    pending_of_holder hlock hself
  refine ⟨hmarker, ?_, ?_, ?_, ?_⟩
  · refine free_of_frame hok hframe fun hnone => ?_
    rw [hlock] at hnone
    cases hnone
  · refine phases_of_frame hok htxn hframe (Or.inl hholds) fun u hu => ?_
    rw [hself] at hu
    obtain rfl := Option.some.inj hu
    exact hfine
  · refine fresh_of_frame hok htxn hframe (fun c hc => ?_) ?_ fun c d hc hold => ?_
    · rw [Fresh, hpending, pending_of_holder (hok.marker.holders i t htxn hholds) htxn]
      exact hsum c
    · exact hsize.imp_right fun hclimbs => ⟨i, _, hself, Or.inr ⟨rfl, hclimbs⟩⟩
    · rcases hresponsible c hold with hnew | ⟨rfl, hsame⟩
      · exact Or.inr ⟨i, _, hself, hnew⟩
      · left
        rw [Fresh, hone.parent_eq hc hmember, hpending]
        exact hsame
  · refine flags_of_frame hok htxn hframe fun c hc => ?_
    obtain ⟨hold, hflagged⟩ := hstatus c hc
    by_cases hchild : t.child = c
    · rcases hflagged hchild with hnot | hnew
      · exact Or.inl ⟨hold, fun _ => hnot⟩
      · exact Or.inr ⟨_, hself, hchild, hnew⟩
    · exact Or.inl ⟨hold, fun h => absurd h hchild⟩

/-- **The unlock**, after which a transaction that has changed the size climbs. -/
theorem SyncOk.release {delta : V} {applied : Bool} (hok : SyncOk tree s)
    (htxn : s.txns i = some ⟨c, d, .release delta false⟩)
    (hmarker : MarkerOk tree (tree.climb (s.setLock d none) i d delta))
    (hstep : tree.answer s i ⟨c, d, .release delta false⟩ false applied =
      some (tree.climb (s.setLock d none) i d delta)) :
    SyncOk tree (tree.climb (s.setLock d none) i d delta) := by
  have hframe := answer_frame hstep
  have hmember := hok.marker.members i _ htxn
  have hmine := hok.marker.holders i _ htxn trivial
  have hconsistent := (hok.phases i _ htxn).2
  obtain ⟨x, hclimb, hx⟩ := climb_eq tree (s.setLock d none) i d delta
  rw [hclimb] at hmarker hstep hframe ⊢
  have hfree : (s.setLock d none).lock d = none := Function.update_self ..
  refine ⟨hmarker, ?_, ?_, ?_, ?_⟩
  · exact free_of_frame hok hframe fun _ => hconsistent
  · refine phases_of_frame hok htxn hframe (Or.inl trivial) fun u hu => ?_
    rw [(hx u ((Function.update_self i x (s.setLock d none).txns).symm.trans hu)).2]
    exact trivial
  · refine fresh_of_frame hok htxn hframe (fun c' _ => Or.inl ?_) (Or.inl rfl) fun c' e hc' hold => ?_
    · have hnone : ({ s.setLock d none with
          txns := Function.update (s.setLock d none).txns i x } : Quota ι V).pending c' d = 0 := by
        rw [Quota.pending]
        dsimp only
        rw [hfree]
        rfl
      rw [hnone, pending_of_holder hmine htxn]
      rfl
    · rcases hold with ⟨-, hreads⟩ | ⟨hparent, hdelta⟩
      · exact hreads.elim
      · -- the directory itself is the child now
        dsimp only at hparent
        subst hparent
        have hup := tree.up_of_mem (tree.isDir_of_mem hmember) hc'
        rw [Tree.climb, if_neg hdelta, hup] at hclimb
        have htxns := congrFun (congrArg Quota.txns hclimb) i
        dsimp only at htxns
        rw [Function.update_self, Function.update_self] at htxns
        refine Or.inr ⟨i, ⟨d, e, .arrive⟩, ?_, Or.inl ⟨rfl, trivial⟩⟩
        exact (Function.update_self i x (s.setLock d none).txns).trans htxns.symm
  · exact flags_of_frame hok htxn hframe fun c' hc' => Or.inl ⟨hc', fun _ => id⟩

/-- **One answer** in a run without failures. -/
theorem SyncOk.answer {applied : Bool} (hone : tree.OneLink) (hok : SyncOk tree s)
    (htxn : s.txns i = some t) (hstep : tree.answer s i t false applied = some s') :
    SyncOk tree s' := by
  have hmember := hok.marker.members i t htxn
  have hisDir := tree.isDir_of_mem hmember
  have hrecovered : t.phase = .waitLock → s.dirty t.parent = true → tree.Consistent s t.parent := by
    intro hphase _
    refine hok.free t.parent hisDir ?_
    by_contra hlocked
    simp only [Tree.answer, hphase, Bool.false_eq_true, if_false, if_neg hlocked] at hstep
    cases hstep
  have hmarker := hok.marker.answer htxn hrecovered hstep
  have hlocked := hok.marker.holders i t htxn
  have hfine := hok.phases i t htxn
  have hhold : t.phase.holds → tree.HoldOk s t.parent t.phase := by
    intro hholds
    have hdir := hok.marker.dirs t.parent hisDir
    rw [Tree.DirOk, hlocked hholds] at hdir
    obtain ⟨u, hu, -, hholdOk⟩ := hdir
    rw [htxn] at hu
    obtain rfl := Option.some.inj hu
    exact hholdOk
  obtain ⟨c, d, phase⟩ := t
  have hanswer := hstep
  cases phase with
  | arrive =>
      simp only [Tree.answer] at hstep
      split_ifs at hstep with hstatus <;> obtain rfl := Option.some.inj hstep
      · -- the status is set: its transaction has not read yet
        refine hok.waiting htxn id hmarker hanswer rfl rfl (Or.inl rfl) (fun u hu => ?_)
          (fun c' hold => ?_) fun c' hc' => Or.inl ⟨hc', fun _ => id⟩
        · rw [finish_txns] at hu
          cases hu
        · rcases hold with ⟨rfl, -⟩ | ⟨-, hclimbs⟩
          · obtain ⟨j, u, hu, hchild, hflagged⟩ := hok.flags _ hstatus
            have hne : j ≠ i := by
              rintro rfl
              rw [htxn] at hu
              obtain rfl := Option.some.inj hu
              exact hflagged
            exact .of_ne (answer_frame hanswer) hu hne (Or.inl ⟨hchild, hflagged.reads⟩)
          · exact hclimbs.elim
      · refine hok.waiting htxn id hmarker hanswer rfl rfl (Or.inl rfl) (fun u hu => ?_)
          (fun c' hold => ?_) fun c' hc' => ?_
        · rw [goto_txns] at hu
          obtain rfl := Option.some.inj hu
          exact Or.inl rfl
        · rcases hold with ⟨rfl, -⟩ | ⟨-, hclimbs⟩
          · exact ⟨i, _, goto_txns .., Or.inl ⟨rfl, trivial⟩⟩
          · exact hclimbs.elim
        · by_cases hchild : c' = c
          · exact Or.inr ⟨_, goto_txns .., hchild.symm, trivial⟩
          · exact Or.inl ⟨(Function.update_of_ne hchild _ _).symm.trans hc', fun _ => id⟩
  | waitLock =>
      simp only [Tree.answer, Bool.false_eq_true, if_false] at hstep
      split_ifs at hstep with hfree
      obtain rfl := Option.some.inj hstep
      refine hok.waiting htxn id hmarker hanswer rfl rfl
        (Or.inr ⟨hfree, Function.update_self ..⟩) (fun u hu => ?_) (fun c' hold => ?_)
        fun c' hc' => ?_
      · rw [goto_txns] at hu
        obtain rfl := Option.some.inj hu
        exact Or.inr rfl
      · rcases hold with ⟨rfl, -⟩ | ⟨-, hclimbs⟩
        · exact ⟨i, _, goto_txns .., Or.inl ⟨rfl, trivial⟩⟩
        · exact hclimbs.elim
      · by_cases hchild : c = c'
        · exact Or.inr ⟨_, goto_txns .., hchild, trivial⟩
        · exact Or.inl ⟨hc', fun h => absurd h hchild⟩
  | markdirty =>
      simp only [Tree.answer, Bool.not_false, Bool.true_or, Bool.false_eq_true, if_true,
        if_false] at hstep
      obtain rfl := Option.some.inj hstep
      exact hok.holding htxn trivial hmarker hanswer (hlocked trivial) (goto_txns ..) trivial
        (fun _ => Or.inl rfl) (Or.inl rfl)
        (fun _ hold => Or.inl (hold.imp_right fun h => h.2.elim)) hone
        fun _ hc' => ⟨hc', fun _ => Or.inr trivial⟩
  | fetch =>
      obtain rfl := Option.some.inj hstep
      refine hok.holding htxn trivial hmarker hanswer (hlocked trivial) (goto_txns ..) trivial
        (fun _ => Or.inl rfl) (Or.inl rfl)
        (fun _ hold => Or.inl (hold.imp_right fun h => h.2.elim)) hone fun c' hc' => ?_
      by_cases hchild : c' = c
      · subst hchild
        have hclear : Function.update s.status c' false c' = true := hc'
        rw [Function.update_self] at hclear
        cases hclear
      · exact ⟨(Function.update_of_ne hchild _ _).symm.trans hc', fun h => absurd h.symm hchild⟩
  | lookup =>
      simp only [Tree.answer, Bool.false_eq_true, if_false] at hstep
      split_ifs at hstep with hdelta <;> obtain rfl := Option.some.inj hstep
      · refine hok.holding htxn trivial hmarker hanswer (hlocked trivial) (goto_txns ..) trivial
          (fun _ => Or.inl rfl) (Or.inl rfl) (fun c' hold => Or.inr ?_) hone
          fun _ hc' => ⟨hc', fun _ => Or.inl id⟩
        rcases hold with ⟨rfl, -⟩ | ⟨-, hclimbs⟩
        · exact ⟨rfl, (add_zero _).trans (sub_eq_zero.mp hdelta).symm⟩
        · exact hclimbs.elim
      · have hread : s.contri c d +
            Txn.pending (⟨c, d, .contribution (s.size c - s.contri c d)⟩ : Txn ι V) c = s.size c := by
          rw [Txn.pending]
          dsimp only
          rw [if_pos rfl, add_sub_cancel]
        refine hok.holding htxn trivial hmarker hanswer (hlocked trivial) (goto_txns ..) trivial
          (fun c' => ?_) (Or.inl rfl) (fun c' hold => Or.inr ?_) hone
          fun _ hc' => ⟨hc', fun _ => Or.inl id⟩
        · by_cases hchild : c = c'
          · subst hchild
            exact Or.inr hread
          · left
            exact congrArg (s.contri c' d + ·) (if_neg hchild)
        · rcases hold with ⟨rfl, -⟩ | ⟨-, hclimbs⟩
          · exact ⟨rfl, hread⟩
          · exact hclimbs.elim
  | contribution delta =>
      simp only [Tree.answer, Bool.not_false, Bool.true_or, Bool.false_eq_true, if_true,
        if_false] at hstep
      obtain rfl := Option.some.inj hstep
      refine hok.holding htxn trivial hmarker hanswer (hlocked trivial) (goto_txns ..) trivial
        (fun c' => Or.inl ?_) (Or.inl rfl)
        (fun _ hold => (hold.elim (fun h => h.2.elim) fun h => h.2.elim)) hone
        fun _ hc' => ⟨hc', fun _ => Or.inl id⟩
      refine (add_zero _).trans ((contri_addContri s c d delta c').trans ?_)
      by_cases hchild : c = c'
      · subst hchild
        rw [Function.update_self]
        exact congrArg (s.contri c d + ·) (if_pos rfl).symm
      · rw [Function.update_of_ne (Ne.symm hchild)]
        exact (add_zero _).symm.trans (congrArg (s.contri c' d + ·) (if_neg hchild).symm)
  | parentSize delta =>
      simp only [Tree.answer, Bool.not_false, Bool.true_or, Bool.false_eq_true, if_true,
        if_false] at hstep
      obtain rfl := Option.some.inj hstep
      refine hok.holding htxn trivial hmarker hanswer (hlocked trivial) (goto_txns ..) trivial
        (fun _ => Or.inl rfl) ?_
        (fun _ hold => (hold.elim (fun h => h.2.elim) fun h => h.2.elim)) hone
        fun _ hc' => ⟨hc', fun _ => Or.inl id⟩
      by_cases hdelta : delta = 0
      · left
        refine (Function.update_self ..).trans ?_
        rw [hdelta, add_zero]
      · exact Or.inr hdelta
  | undirty delta =>
      simp only [Tree.answer, Bool.not_false, Bool.true_or, if_true] at hstep
      obtain rfl := Option.some.inj hstep
      exact hok.holding htxn trivial hmarker hanswer (hlocked trivial) (goto_txns ..)
        ⟨rfl, hhold trivial⟩ (fun _ => Or.inl rfl) (Or.inl rfl)
        (fun _ hold => Or.inl (hold.imp_left fun h => h.2.elim)) hone
        fun _ hc' => ⟨hc', fun _ => Or.inl id⟩
  | release delta err =>
      obtain rfl := hfine.1
      simp only [Tree.answer, Bool.not_false, Bool.true_or, Bool.or_false, Bool.false_eq_true,
        if_true, if_false] at hstep
      obtain rfl := Option.some.inj hstep
      exact hok.release htxn hmarker hanswer
  | stuck => cases hstep

/-! ## Whole runs -/

theorem SyncOk.step {a : Action ι V} (hone : tree.OneLink) (hok : SyncOk tree s)
    (hsucceeds : Succeeds s a) (hstep : tree.step s a = some s') : SyncOk tree s' := by
  cases a with
  | initiate i c d size =>
      rw [Tree.step] at hstep
      split_ifs at hstep with hguard
      obtain rfl := Option.some.inj hstep
      obtain ⟨hfresh, hmember, hfile⟩ := hguard
      refine hok.initiate hfresh hmember fun hdir => ?_
      cases size with
      | none => rfl
      | some v => exact Bool.noConfusion (hdir.symm.trans (hfile rfl))
  | answer i failed applied =>
      obtain rfl : failed = false := hsucceeds
      rw [Tree.step] at hstep
      cases htxn : s.txns i with
      | none =>
          rw [htxn] at hstep
          cases hstep
      | some t =>
          rw [htxn] at hstep
          exact hok.answer hone htxn hstep
  | stop => exact hsucceeds.elim

theorem syncOk_of_start (hstart : (marker tree tree.Balanced).start s) : SyncOk tree s := by
  obtain ⟨⟨hcontri, hsums⟩, hstatus, hlock, htxns⟩ := hstart
  refine ⟨MarkerOk.of_start ⟨fun d hd _ => hsums d hd, hstatus, hlock, htxns⟩,
    fun d hd _ => hsums d hd,
    fun i t ht => ?_, fun c d hc => Or.inl ?_, fun c hc => ?_⟩
  · rw [htxns i] at ht
    cases ht
  · rw [Fresh, pending_of_free (hlock d), add_zero]
    exact hcontri c d hc
  · rw [hstatus c] at hc
    cases hc

/-- **No update is lost.**  In every run without failures, from a balanced tree whose files have one
link, whenever no transaction is in progress every contribution is the size of its child, and every
directory has the sum of the sizes of its children. -/
theorem idle_balanced (hone : tree.OneLink)
    (hreach : (marker tree tree.Balanced).ReachableWhen Succeeds s)
    (hidle : ∀ i, s.txns i = none) :
    (∀ c d, c ∈ tree.children d → s.contri c d = s.size c) ∧
      ∀ d, tree.isDir d = true → s.size d = ∑ c ∈ tree.children d, s.size c := by
  have hok : SyncOk tree s := by
    refine Machine.ReachableWhen.invariant (SyncOk tree) (fun _ => syncOk_of_start) ?_ hreach
    intro s a s' hs hsucceeds hstep
    exact hs.step hone hsucceeds hstep
  have hlock : ∀ d, tree.isDir d = true → s.lock d = none := by
    intro d hd
    have hdir := hok.marker.dirs d hd
    rw [Tree.DirOk] at hdir
    cases hlocked : s.lock d with
    | none => rfl
    | some i =>
        rw [hlocked] at hdir
        obtain ⟨t, ht, -⟩ := hdir
        rw [hidle i] at ht
        cases ht
  have hcontri : ∀ c d, c ∈ tree.children d → s.contri c d = s.size c := by
    intro c d hc
    rcases hok.fresh c d hc with hfresh | ⟨i, t, ht, -⟩
    · rwa [Fresh, pending_of_free (hlock d (tree.isDir_of_mem hc)), add_zero] at hfresh
    · rw [hidle i] at ht
      cases ht
  refine ⟨hcontri, fun d hd => ?_⟩
  rw [hok.free d hd (hlock d hd)]
  exact Finset.sum_congr rfl fun c hc => hcontri c d hc

/-- The transaction of an action. -/
def Action.txn : Action ι V → Option ℕ
  | .initiate i .. | .answer i .. => some i
  | .stop => none

/-- A run leaves the transactions alone that it does not name. -/
theorem exec_txns {disk : Quota ι V → Prop} {n : ℕ} (actions : List (Action ι V))
    (hnamed : ∀ a ∈ actions, ∃ j < n, a.txn = some j) (hi : n ≤ i)
    (hrun : (marker tree disk).exec s actions = some s') : s'.txns i = s.txns i := by
  induction actions generalizing s with
  | nil =>
      cases hrun
      rfl
  | cons a actions ih =>
      rw [Machine.exec, List.foldlM_cons] at hrun
      obtain ⟨mid, hmid, hrest⟩ := Option.bind_eq_some_iff.mp hrun
      obtain ⟨j, hj, hname⟩ := hnamed a List.mem_cons_self
      have hne : i ≠ j := (hj.trans_le hi).ne'
      rw [ih (fun b hb => hnamed b (List.mem_cons_of_mem _ hb)) hrest]
      change tree.step s a = some mid at hmid
      cases a with
      | initiate k c d size =>
          obtain rfl := Option.some.inj hname
          rw [Tree.step] at hmid
          split_ifs at hmid with hguard
          obtain rfl := Option.some.inj hmid
          exact Function.update_of_ne hne _ _
      | answer k failed applied =>
          obtain rfl := Option.some.inj hname
          rw [Tree.step] at hmid
          cases htxn : s.txns k with
          | none =>
              rw [htxn] at hmid
              cases hmid
          | some t =>
              rw [htxn] at hmid
              exact (answer_frame hmid).txns i hne
      | stop => cases hname

end Coalesce

/-! ## A run -/

/-- A root `0`, a directory `1` in it and a file `2` in the directory. -/
def oneFile : Tree (Fin 3) where
  children d := if d = 0 then {1} else if d = 1 then {2} else ∅
  isDir d := d ≠ 2
  up d := if d = 1 then some 0 else none
  isDir_of_mem := by decide
  mem_of_up := by decide
  up_of_mem := by decide

theorem oneFile_oneLink : oneFile.OneLink := by
  rw [Tree.OneLink]
  decide

theorem oneFile_start : (marker oneFile oneFile.Balanced).start emptyQuota :=
  ⟨⟨fun _ _ _ => rfl, fun _ _ => Finset.sum_const_zero.symm⟩, fun _ => rfl, fun _ => rfl,
    fun _ => rfl⟩

/-- The file grows again while its first transaction waits for the lock; the second one is skipped,
and the first one climbs to the root. -/
def twoChanges : List (Action (Fin 3) ℤ) :=
  .initiate 0 2 1 (some 512) :: succeed 0 1 ++ .initiate 1 2 1 (some 1024) :: succeed 1 1 ++
    succeed 0 17

instance (s : Quota (Fin 3) ℤ) (a : Action (Fin 3) ℤ) : Decidable (Succeeds s a) :=
  match a with
  | .answer _ failed _ => inferInstanceAs (Decidable (failed = false))
  | .initiate .. => inferInstanceAs (Decidable True)
  | .stop => inferInstanceAs (Decidable False)

theorem idle_balanced_twoChanges :
    ∃ s : Quota (Fin 3) ℤ, (marker oneFile oneFile.Balanced).ReachableWhen Succeeds s ∧
      s.size 0 = 1024 ∧ (∀ i, s.txns i = none) ∧
      (∀ c d, c ∈ oneFile.children d → s.contri c d = s.size c) ∧
      ∀ d, oneFile.isDir d = true → s.size d = ∑ c ∈ oneFile.children d, s.size c := by
  have hresult : ((marker oneFile oneFile.Balanced).exec emptyQuota twoChanges).map
      (fun s => (s.size 0, s.txns 0, s.txns 1)) = some (1024, none, none) := by
    decide +kernel
  obtain ⟨s, hrun, hvalues⟩ := Option.map_eq_some_iff.mp hresult
  obtain ⟨hsize, htxns⟩ := Prod.mk.inj hvalues
  obtain ⟨hfirst, hsecond⟩ := Prod.mk.inj htxns
  have hsucceeds : ∀ a ∈ twoChanges, Succeeds emptyQuota a := by decide
  have hnamed : ∀ a ∈ twoChanges, ∃ j < 2, a.txn = some j := by decide
  have hreach := Machine.ReachableWhen.exec (.start oneFile_start) twoChanges
    (fun a ha _ => hsucceeds a ha) hrun
  have hidle : ∀ i, s.txns i = none := by
    intro i
    match i with
    | 0 => exact hfirst
    | 1 => exact hsecond
    | i + 2 => exact exec_txns twoChanges hnamed (Nat.le_add_left 2 i) hrun
  exact ⟨s, hreach, hsize, hidle, idle_balanced oneFile_oneLink hreach hidle⟩

end GlusterFS.Marker
