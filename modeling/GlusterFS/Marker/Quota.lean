import Mathlib
import GlusterFS.Lib.Machine

/-!
# Quota transactions of the marker

The marker keeps three extended attributes: the **size** of a directory, the **contribution** of an
inode to a directory that it is in, and a **dirty** mark of a directory.  A transaction moves a change
of one child's size one level up: it locks the directory, marks it dirty, compares the child's size
with its contribution, adds the difference to the contribution and then to the size of the directory,
clears the mark and unlocks.  After that it starts again, with the directory as the child.

The two additions are not atomic; the mark is there for what comes between them.  `clean_consistent`
shows what it is worth: a directory that is unlocked and not dirty has as its size the **sum of the
contributions of its children**, in all runs in which no transaction gets the lock of a directory that
has been left half updated (`Recovered`).  Operations may fail, with or without an effect, and the
process may stop anywhere.

Without that condition the mark is worth nothing.  A transaction sets the mark whether or not it is
set already, and **clears it at its end**, also when it has found nothing to add.  It thereby clears
the mark of a transaction that failed between the two additions (`clean_inconsistent`).
-/

namespace GlusterFS.Marker

/-! ## The model -/

/-- A directory tree.  A file can be in several directories; `up` is the directory that a directory is
in, and the root has none. -/
structure Tree (ι : Type*) where
  children : ι → Finset ι
  isDir : ι → Bool
  up : ι → Option ι
  isDir_of_mem : ∀ {c d}, c ∈ children d → isDir d = true
  mem_of_up : ∀ {d e}, up d = some e → d ∈ children e
  up_of_mem : ∀ {d e}, isDir d = true → d ∈ children e → up d = some e

/-- Where a transaction is. -/
inductive Phase (V : Type*) where
  /-- `mq_test_and_set_ctx_updation_status` is to come. -/
  | arrive
  /-- `mq_get_lock_on_parent` has asked for the lock. -/
  | waitLock
  /-- `mq_markdirty`. -/
  | markdirty
  /-- `mq_fetch_child_size_and_contri`, before the status is cleared. -/
  | fetch
  /-- The lookup is to come. -/
  | lookup
  /-- `mq_update_inode_contribution`, with the difference. -/
  | contribution (delta : V)
  /-- `mq_update_parent_size`. -/
  | parentSize (delta : V)
  /-- `mq_mark_undirty`. -/
  | undirty (delta : V)
  /-- `mq_release_parent_lock`, with `local->err`. -/
  | release (delta : V) (err : Bool)
  /-- The unlock has failed, and the frame is gone. -/
  | stuck
  deriving DecidableEq

/-- A transaction: `local->loc` and `local->parent_loc`. -/
structure Txn (ι V : Type*) where
  child : ι
  parent : ι
  phase : Phase V
  deriving DecidableEq

/-- The attributes on disk, the status of the inodes, the locks and the transactions.  The size of a
file is that of its blocks. -/
structure Quota (ι V : Type*) where
  size : ι → V
  contri : ι → ι → V
  dirty : ι → Bool
  status : ι → Bool
  lock : ι → Option ℕ
  txns : ℕ → Option (Txn ι V)

/-- What happens next. -/
inductive Action (ι V : Type*) where
  /-- `mq_initiate_quota_txn` is called for a child of a directory, after a change of its size if it is
  a file. -/
  | initiate (i : ℕ) (child parent : ι) (size : Option V)
  /-- The operation of a transaction is answered.  One that fails may have had its effect. -/
  | answer (i : ℕ) (failed applied : Bool)
  /-- The process stops. -/
  | stop

section Model

variable {ι V : Type*} [DecidableEq ι] [DecidableEq V] [AddCommGroup V]

/-- Put the transaction into a phase. -/
def Quota.goto (s : Quota ι V) (i : ℕ) (t : Txn ι V) (phase : Phase V) : Quota ι V :=
  { s with txns := Function.update s.txns i (some { t with phase := phase }) }

def Quota.finish (s : Quota ι V) (i : ℕ) : Quota ι V :=
  { s with txns := Function.update s.txns i none }

def Quota.setStatus (s : Quota ι V) (c : ι) (status : Bool) : Quota ι V :=
  { s with status := Function.update s.status c status }

def Quota.setDirty (s : Quota ι V) (d : ι) (dirty : Bool) : Quota ι V :=
  { s with dirty := Function.update s.dirty d dirty }

def Quota.setLock (s : Quota ι V) (d : ι) (holder : Option ℕ) : Quota ι V :=
  { s with lock := Function.update s.lock d holder }

def Quota.addContri (s : Quota ι V) (c d : ι) (delta : V) : Quota ι V :=
  { s with contri := Function.update s.contri c (Function.update (s.contri c) d (s.contri c d + delta)) }

def Quota.addSize (s : Quota ι V) (d : ι) (delta : V) : Quota ι V :=
  { s with size := Function.update s.size d (s.size d + delta) }

/-- `mq_inodelk_cbk` after the unlock: the directory becomes the child of its own directory, unless
nothing was added or it is the root. -/
def Tree.climb (tree : Tree ι) (s : Quota ι V) (i : ℕ) (d : ι) (delta : V) : Quota ι V :=
  if delta = 0 then s.finish i
  else
    match tree.up d with
    | some e => { s with txns := Function.update s.txns i (some ⟨d, e, .arrive⟩) }
    | none => s.finish i

/-- The operation of a transaction is answered. -/
def Tree.answer (tree : Tree ι) (s : Quota ι V) (i : ℕ) (t : Txn ι V) (failed applied : Bool) :
    Option (Quota ι V) :=
  let effect := !failed || applied
  match t.phase with
  | .arrive =>
      if s.status t.child then some (s.finish i)
      else some ((s.setStatus t.child true).goto i t .waitLock)
  | .waitLock =>
      if failed then some ((s.setStatus t.child false).finish i)
      else if s.lock t.parent = none then some ((s.setLock t.parent (some i)).goto i t .markdirty)
      else none
  | .markdirty =>
      let s := if effect then s.setDirty t.parent true else s
      if failed then some ((s.setStatus t.child false).goto i t (.release 0 true))
      else some (s.goto i t .fetch)
  | .fetch => some ((s.setStatus t.child false).goto i t .lookup)
  | .lookup =>
      let delta := s.size t.child - s.contri t.child t.parent
      if failed then some (s.goto i t (.release 0 true))
      else if delta = 0 then some (s.goto i t (.undirty 0))
      else some (s.goto i t (.contribution delta))
  | .contribution delta =>
      let s := if effect then s.addContri t.child t.parent delta else s
      if failed then some (s.goto i t (.release delta true))
      else some (s.goto i t (.parentSize delta))
  | .parentSize delta =>
      let s := if effect then s.addSize t.parent delta else s
      if failed then some (s.goto i t (.release delta true))
      else some (s.goto i t (.undirty delta))
  | .undirty delta =>
      -- the answer to this `setxattr` is not looked at
      let s := if effect then s.setDirty t.parent false else s
      some (s.goto i t (.release delta false))
  | .release delta err =>
      if effect then
        let s := s.setLock t.parent none
        if failed || err then some (s.finish i) else some (tree.climb s i t.parent delta)
      else some (s.goto i t .stuck)
  | .stuck => none

/-- One step. -/
def Tree.step (tree : Tree ι) (s : Quota ι V) : Action ι V → Option (Quota ι V)
  | .initiate i c d size =>
      if s.txns i = none ∧ c ∈ tree.children d ∧ (size.isSome → tree.isDir c = false) then
        some { s with
          size := Function.update s.size c (size.getD (s.size c))
          txns := Function.update s.txns i (some ⟨c, d, .arrive⟩) }
      else none
  | .answer i failed applied =>
      match s.txns i with
      | some t => tree.answer s i t failed applied
      | none => none
  | .stop => some { s with status := fun _ => false, lock := fun _ => none, txns := fun _ => none }

/-- The size of a directory is the sum of the contributions of its children. -/
def Tree.Consistent (tree : Tree ι) (s : Quota ι V) (d : ι) : Prop :=
  s.size d = ∑ c ∈ tree.children d, s.contri c d

/-- The marker on what is on disk, when nothing runs yet. -/
def marker (tree : Tree ι) (disk : Quota ι V → Prop) : Machine (Quota ι V) (Action ι V) where
  start s := disk s ∧ (∀ c, s.status c = false) ∧ (∀ d, s.lock d = none) ∧ ∀ i, s.txns i = none
  step := tree.step

/-- What is on disk at first: every directory is consistent or dirty. -/
def Tree.Marked (tree : Tree ι) (s : Quota ι V) : Prop :=
  ∀ d, tree.isDir d = true → s.dirty d = false → tree.Consistent s d

/-- A transaction gets the lock of a dirty directory only if the directory is consistent. -/
def Tree.Recovered (tree : Tree ι) (s : Quota ι V) : Action ι V → Prop
  | .answer i _ _ => ∀ t, s.txns i = some t → t.phase = .waitLock → s.dirty t.parent = true →
      tree.Consistent s t.parent
  | _ => True

end Model

/-! ## What a transaction touches -/

section Frames

variable {ι V : Type*} {tree : Tree ι}
  {s s' : Quota ι V} {i : ℕ} {t : Txn ι V} {d : ι} {failed applied : Bool}

/-- **The frame of a transaction**: it leaves other directories and other transactions alone. -/
structure Frame (s s' : Quota ι V) (i : ℕ) (d : ι) : Prop where
  size : ∀ e ≠ d, s'.size e = s.size e
  contri : ∀ e ≠ d, ∀ c, s'.contri c e = s.contri c e
  dirty : ∀ e ≠ d, s'.dirty e = s.dirty e
  lock : ∀ e ≠ d, s'.lock e = s.lock e
  txns : ∀ j ≠ i, s'.txns j = s.txns j

theorem Frame.refl (s : Quota ι V) (i : ℕ) (d : ι) : Frame s s i d :=
  ⟨fun _ _ => rfl, fun _ _ _ => rfl, fun _ _ => rfl, fun _ _ => rfl, fun _ _ => rfl⟩

theorem Frame.setTxn (h : Frame s s' i d) (t : Option (Txn ι V)) :
    Frame s { s' with txns := Function.update s'.txns i t } i d :=
  ⟨h.size, h.contri, h.dirty, h.lock,
    fun j hj => (Function.update_of_ne hj _ _).trans (h.txns j hj)⟩

theorem goto_txns (s : Quota ι V) (i : ℕ) (t : Txn ι V) (phase : Phase V) :
    (s.goto i t phase).txns i = some { t with phase := phase } := Function.update_self ..

theorem finish_txns (s : Quota ι V) (i : ℕ) : (s.finish i).txns i = none := Function.update_self ..

theorem effect_of_not_failed (h : ¬ failed = true) : (!failed || applied) = true := by
  rw [Bool.not_eq_true] at h
  rw [h]
  rfl

section Fields

variable [DecidableEq ι]

theorem Frame.setStatus (h : Frame s s' i d) (c : ι) (status : Bool) :
    Frame s (s'.setStatus c status) i d := ⟨h.size, h.contri, h.dirty, h.lock, h.txns⟩

theorem Frame.setDirty (h : Frame s s' i d) (dirty : Bool) : Frame s (s'.setDirty d dirty) i d :=
  ⟨h.size, h.contri, fun e he => (Function.update_of_ne he _ _).trans (h.dirty e he), h.lock, h.txns⟩

theorem Frame.setLock (h : Frame s s' i d) (holder : Option ℕ) :
    Frame s (s'.setLock d holder) i d :=
  ⟨h.size, h.contri, h.dirty, fun e he => (Function.update_of_ne he _ _).trans (h.lock e he), h.txns⟩

variable [AddCommGroup V]

theorem Frame.addSize (h : Frame s s' i d) (delta : V) : Frame s (s'.addSize d delta) i d :=
  ⟨fun e he => (Function.update_of_ne he _ _).trans (h.size e he), h.contri, h.dirty, h.lock, h.txns⟩

theorem addContri_of_ne (s : Quota ι V) (c : ι) (delta : V) {e : ι} (he : e ≠ d) (c' : ι) :
    (s.addContri c d delta).contri c' e = s.contri c' e := by
  by_cases hc : c' = c
  · subst hc
    simp only [Quota.addContri, Function.update_self, Function.update_of_ne he]
  · simp only [Quota.addContri, Function.update_of_ne hc]

theorem Frame.addContri (h : Frame s s' i d) (c : ι) (delta : V) :
    Frame s (s'.addContri c d delta) i d :=
  ⟨h.size, fun e he c' => (addContri_of_ne s' c delta he c').trans (h.contri e he c'), h.dirty, h.lock,
    h.txns⟩

theorem contri_addContri (s : Quota ι V) (c d : ι) (delta : V) (c' : ι) :
    (s.addContri c d delta).contri c' d =
      Function.update (fun c => s.contri c d) c (s.contri c d + delta) c' := by
  by_cases hc : c' = c
  · subst hc
    simp only [Quota.addContri, Function.update_self]
  · simp only [Quota.addContri, Function.update_of_ne hc]

/-- The sum grows by what is added to one contribution. -/
theorem sum_addContri (s : Quota ι V) {c : ι} (hc : c ∈ tree.children d) (delta : V) :
    ∑ c' ∈ tree.children d, (s.addContri c d delta).contri c' d =
      ∑ c' ∈ tree.children d, s.contri c' d + delta := by
  rw [Finset.sum_congr rfl fun c' _ => contri_addContri s c d delta c',
    Finset.sum_update_of_mem hc, ← Finset.add_sum_erase _ (fun c' => s.contri c' d) hc,
    Finset.sdiff_singleton_eq_erase]
  abel

end Fields

/-! ## The invariant -/

variable [AddCommGroup V]

/-- The lock is held in this phase. -/
def Phase.holds : Phase V → Prop
  | .arrive | .waitLock => False
  | _ => True

/-- What is true of the directory of a transaction that holds its lock. -/
def Tree.HoldOk (tree : Tree ι) (s : Quota ι V) (d : ι) : Phase V → Prop
  | .arrive | .waitLock => False
  | .markdirty | .undirty _ => tree.Consistent s d
  | .fetch | .lookup | .contribution _ => s.dirty d = true ∧ tree.Consistent s d
  | .parentSize delta =>
      s.dirty d = true ∧ s.size d + delta = ∑ c ∈ tree.children d, s.contri c d
  | .release _ _ | .stuck => s.dirty d = false → tree.Consistent s d

/-- A directory that is free and clean is consistent; one that is locked is as its holder says. -/
def Tree.DirOk (tree : Tree ι) (s : Quota ι V) (d : ι) : Prop :=
  match s.lock d with
  | none => s.dirty d = false → tree.Consistent s d
  | some i => ∃ t, s.txns i = some t ∧ t.parent = d ∧ tree.HoldOk s d t.phase

structure MarkerOk (tree : Tree ι) (s : Quota ι V) : Prop where
  dirs : ∀ d, tree.isDir d = true → tree.DirOk s d
  holders : ∀ i t, s.txns i = some t → t.phase.holds → s.lock t.parent = some i
  members : ∀ i t, s.txns i = some t → t.child ∈ tree.children t.parent

theorem HoldOk.holds {phase : Phase V} (h : tree.HoldOk s d phase) : phase.holds := by
  cases phase <;> first | exact h | exact trivial

theorem Consistent.congr (hsize : s'.size d = s.size d) (hcontri : ∀ c, s'.contri c d = s.contri c d)
    (h : tree.Consistent s d) : tree.Consistent s' d := by
  rw [Tree.Consistent, hsize, Finset.sum_congr rfl fun c _ => hcontri c]
  exact h

theorem HoldOk.congr {phase : Phase V} (hsize : s'.size d = s.size d)
    (hcontri : ∀ c, s'.contri c d = s.contri c d) (hdirty : s'.dirty d = s.dirty d)
    (h : tree.HoldOk s d phase) : tree.HoldOk s' d phase := by
  have hconsistent : tree.Consistent s d → tree.Consistent s' d := Consistent.congr hsize hcontri
  cases phase with
  | arrive => exact h
  | waitLock => exact h
  | markdirty => exact hconsistent h
  | undirty => exact hconsistent h
  | fetch => exact ⟨hdirty.trans h.1, hconsistent h.2⟩
  | lookup => exact ⟨hdirty.trans h.1, hconsistent h.2⟩
  | contribution => exact ⟨hdirty.trans h.1, hconsistent h.2⟩
  | parentSize delta =>
      refine ⟨hdirty.trans h.1, ?_⟩
      rw [hsize, Finset.sum_congr rfl fun c _ => hcontri c]
      exact h.2
  | release => exact fun hclean => hconsistent (h (hdirty.symm.trans hclean))
  | stuck => exact fun hclean => hconsistent (h (hdirty.symm.trans hclean))

/-- **The other directories** stay as they are. -/
theorem MarkerOk.of_frame (hok : MarkerOk tree s) (htxn : s.txns i = some t)
    (hframe : Frame s s' i t.parent) (hdir : tree.DirOk s' t.parent)
    (hlock : s.lock t.parent = s'.lock t.parent ∨ s.lock t.parent = none ∨
      s.lock t.parent = some i)
    (hself : ∀ t', s'.txns i = some t' → t'.child ∈ tree.children t'.parent ∧
      (t'.phase.holds → t'.parent = t.parent ∧ s'.lock t.parent = some i)) :
    MarkerOk tree s' := by
  refine ⟨fun e he => ?_, fun j u hu hholds => ?_, fun j u hu => ?_⟩
  · by_cases hparent : e = t.parent
    · exact hparent ▸ hdir
    · have hold := hok.dirs e he
      rw [Tree.DirOk, hframe.lock e hparent]
      rw [Tree.DirOk] at hold
      cases hlocked : s.lock e with
      | none =>
          rw [hlocked] at hold
          intro hclean
          rw [hframe.dirty e hparent] at hclean
          exact Consistent.congr (hframe.size e hparent) (hframe.contri e hparent) (hold hclean)
      | some j =>
          rw [hlocked] at hold
          obtain ⟨u, hu, hue, hholdOk⟩ := hold
          have hne : j ≠ i := by
            rintro rfl
            rw [htxn] at hu
            cases hu
            exact hparent hue.symm
          exact ⟨u, (hframe.txns j hne).trans hu, hue, HoldOk.congr (hframe.size e hparent)
            (hframe.contri e hparent) (hframe.dirty e hparent) hholdOk⟩
  · by_cases hne : j = i
    · subst hne
      obtain ⟨hparent, hlocked⟩ := (hself u hu).2 hholds
      rw [hparent, hlocked]
    · rw [hframe.txns j hne] at hu
      have hlocked := hok.holders j u hu hholds
      by_cases hparent : u.parent = t.parent
      · rw [hparent] at hlocked ⊢
        rcases hlock with heq | hnone | hmine
        · rw [← heq, hlocked]
        · rw [hnone] at hlocked
          cases hlocked
        · rw [hmine] at hlocked
          exact absurd (Option.some.inj hlocked).symm hne
      · rw [hframe.lock _ hparent, hlocked]
  · by_cases hne : j = i
    · subst hne
      exact (hself u hu).1
    · rw [hframe.txns j hne] at hu
      exact hok.members j u hu

/-- **The process stops.**  A directory that was locked is dirty, or consistent. -/
theorem MarkerOk.stop (hok : MarkerOk tree s) :
    MarkerOk tree
      { s with status := fun _ => false, lock := fun _ => none, txns := fun _ => none } := by
  refine ⟨fun e he hclean => ?_, fun j u hu => ?_, fun j u hu => ?_⟩
  rotate_left
  · cases hu
  · cases hu
  have hold := hok.dirs e he
  rw [Tree.DirOk] at hold
  cases hlocked : s.lock e with
  | none =>
      rw [hlocked] at hold
      exact hold hclean
  | some j =>
      rw [hlocked] at hold
      obtain ⟨u, -, -, hholdOk⟩ := hold
      cases hphase : u.phase <;> rw [hphase] at hholdOk
      case arrive => exact hholdOk.elim
      case waitLock => exact hholdOk.elim
      case markdirty => exact hholdOk
      case undirty => exact hholdOk
      case fetch => exact hholdOk.2
      case lookup => exact hholdOk.2
      case contribution => exact hholdOk.2
      case parentSize => exact Bool.noConfusion (hholdOk.1.symm.trans hclean)
      case release => exact hholdOk hclean
      case stuck => exact hholdOk hclean

section Begin

variable [DecidableEq ι]

/-- A transaction begins, after the size of a file has changed. -/
theorem MarkerOk.initiate {c : ι} {v : V} (hok : MarkerOk tree s) (hfresh : s.txns i = none)
    (hmember : c ∈ tree.children d) (hsize : tree.isDir c = true → v = s.size c) :
    MarkerOk tree { s with
      size := Function.update s.size c v
      txns := Function.update s.txns i (some ⟨c, d, .arrive⟩) } := by
  refine ⟨fun e he => ?_, fun j u hu hholds => ?_, fun j u hu => ?_⟩
  · have hold := hok.dirs e he
    have hsame : Function.update s.size c v e = s.size e := by
      by_cases hc : e = c
      · subst hc
        rw [Function.update_self, hsize he]
      · rw [Function.update_of_ne hc]
    rw [Tree.DirOk] at hold ⊢
    dsimp only
    cases hlocked : s.lock e with
    | none =>
        rw [hlocked] at hold
        exact fun hclean => Consistent.congr hsame (fun _ => rfl) (hold hclean)
    | some j =>
        rw [hlocked] at hold
        obtain ⟨u, hu, hparent, hholdOk⟩ := hold
        have hne : j ≠ i := by
          rintro rfl
          rw [hfresh] at hu
          cases hu
        exact ⟨u, (Function.update_of_ne hne _ _).trans hu, hparent,
          HoldOk.congr hsame (fun _ => rfl) rfl hholdOk⟩
  · by_cases hne : j = i
    · subst hne
      obtain rfl := Option.some.inj ((Function.update_self j _ s.txns).symm.trans hu)
      exact hholds.elim
    · exact hok.holders j u ((Function.update_of_ne hne _ _).symm.trans hu) hholds
  · by_cases hne : j = i
    · subst hne
      obtain rfl := Option.some.inj ((Function.update_self j _ s.txns).symm.trans hu)
      exact hmember
    · exact hok.members j u ((Function.update_of_ne hne _ _).symm.trans hu)

end Begin

/-! ## One answer -/

variable [DecidableEq V]

theorem Frame.climb (h : Frame s s' i d) (delta : V) : Frame s (tree.climb s' i d delta) i d := by
  rw [Tree.climb]
  split_ifs with hdelta
  · exact h.setTxn none
  · cases tree.up d with
    | none => exact h.setTxn none
    | some e => exact h.setTxn _

/-- The transaction has ended, or begins one level up. -/
theorem climb_eq (tree : Tree ι) (s : Quota ι V) (i : ℕ) (d : ι) (delta : V) :
    ∃ x, tree.climb s i d delta = { s with txns := Function.update s.txns i x } ∧
      ∀ t, x = some t → t.child ∈ tree.children t.parent ∧ t.phase = .arrive := by
  rw [Tree.climb]
  split_ifs with hdelta
  · exact ⟨none, rfl, fun _ ht => by cases ht⟩
  · cases hup : tree.up d with
    | none => exact ⟨none, rfl, fun _ ht => by cases ht⟩
    | some e =>
        refine ⟨_, rfl, fun t ht => ?_⟩
        obtain rfl := Option.some.inj ht
        exact ⟨tree.mem_of_up hup, rfl⟩

variable [DecidableEq ι]

/-- **An answer** is within the frame. -/
theorem answer_frame (hstep : tree.answer s i t failed applied = some s') :
    Frame s s' i t.parent := by
  have hrefl := Frame.refl s i t.parent
  obtain ⟨c, d, phase⟩ := t
  cases phase with
  | arrive =>
      simp only [Tree.answer] at hstep
      split_ifs at hstep <;> obtain rfl := Option.some.inj hstep
      · exact hrefl.setTxn none
      · exact (hrefl.setStatus c true).setTxn _
  | waitLock =>
      simp only [Tree.answer] at hstep
      split_ifs at hstep <;> obtain rfl := Option.some.inj hstep
      · exact (hrefl.setStatus c false).setTxn none
      · exact (hrefl.setLock (some i)).setTxn _
  | markdirty =>
      simp only [Tree.answer] at hstep
      split_ifs at hstep <;> obtain rfl := Option.some.inj hstep
      · exact ((hrefl.setDirty true).setStatus c false).setTxn _
      · exact (hrefl.setStatus c false).setTxn _
      · exact (hrefl.setDirty true).setTxn _
      · exact hrefl.setTxn _
  | fetch =>
      obtain rfl := Option.some.inj hstep
      exact (hrefl.setStatus c false).setTxn _
  | lookup =>
      simp only [Tree.answer] at hstep
      split_ifs at hstep <;> obtain rfl := Option.some.inj hstep <;> exact hrefl.setTxn _
  | contribution delta =>
      simp only [Tree.answer] at hstep
      split_ifs at hstep <;> obtain rfl := Option.some.inj hstep
      · exact (hrefl.addContri c delta).setTxn _
      · exact hrefl.setTxn _
      · exact (hrefl.addContri c delta).setTxn _
      · exact hrefl.setTxn _
  | parentSize delta =>
      simp only [Tree.answer] at hstep
      split_ifs at hstep <;> obtain rfl := Option.some.inj hstep
      · exact (hrefl.addSize delta).setTxn _
      · exact hrefl.setTxn _
      · exact (hrefl.addSize delta).setTxn _
      · exact hrefl.setTxn _
  | undirty delta =>
      simp only [Tree.answer] at hstep
      split_ifs at hstep <;> obtain rfl := Option.some.inj hstep
      · exact (hrefl.setDirty false).setTxn _
      · exact hrefl.setTxn _
  | release delta err =>
      simp only [Tree.answer] at hstep
      split_ifs at hstep <;> obtain rfl := Option.some.inj hstep
      · exact (hrefl.setLock none).setTxn none
      · exact (hrefl.setLock none).climb delta
      · exact hrefl.setTxn _
  | stuck => cases hstep

/-- The transaction keeps the lock and goes on to a phase. -/
theorem MarkerOk.goto (hok : MarkerOk tree s) (htxn : s.txns i = some t) {phase : Phase V}
    {u : Quota ι V} (hstep : tree.answer s i t failed applied = some (u.goto i t phase))
    (hlock : s.lock t.parent = some i ∨ s.lock t.parent = none) (hnow : u.lock t.parent = some i)
    (hholdOk : tree.HoldOk (u.goto i t phase) t.parent phase) :
    MarkerOk tree (u.goto i t phase) := by
  have hself : (u.goto i t phase).txns i = some { t with phase := phase } := Function.update_self ..
  refine hok.of_frame htxn (answer_frame hstep) ?_ (Or.inr hlock.symm) ?_
  · rw [Tree.DirOk]
    have hlocked : (u.goto i t phase).lock t.parent = some i := hnow
    rw [hlocked]
    exact ⟨_, hself, rfl, hholdOk⟩
  · intro t' ht'
    rw [hself] at ht'
    obtain rfl := Option.some.inj ht'
    exact ⟨hok.members i t htxn, fun _ => ⟨rfl, hnow⟩⟩

/-- The lock is free, and the transaction has ended or begins one level up. -/
theorem MarkerOk.free (hok : MarkerOk tree s) (htxn : s.txns i = some t)
    (hstep : tree.answer s i t failed applied = some s') (hlock : s.lock t.parent = some i)
    (hnow : s'.lock t.parent = none) (hclean : s'.dirty t.parent = false →
      tree.Consistent s' t.parent)
    (hself : ∀ t', s'.txns i = some t' → t'.child ∈ tree.children t'.parent ∧ t'.phase = .arrive) :
    MarkerOk tree s' := by
  refine hok.of_frame htxn (answer_frame hstep) ?_ (Or.inr (Or.inr hlock)) ?_
  · rw [Tree.DirOk, hnow]
    exact hclean
  · intro t' ht'
    obtain ⟨hmem, harrive⟩ := hself t' ht'
    refine ⟨hmem, fun hholds => ?_⟩
    rw [harrive] at hholds
    exact hholds.elim

/-- A transaction that does not hold the lock does not touch the directory. -/
theorem MarkerOk.waiting (hok : MarkerOk tree s) (htxn : s.txns i = some t)
    (hwaits : ¬ t.phase.holds) (hstep : tree.answer s i t failed applied = some s')
    (hsize : s'.size = s.size) (hcontri : s'.contri = s.contri) (hdirty : s'.dirty = s.dirty)
    (hlock : s'.lock = s.lock)
    (hself : ∀ t', s'.txns i = some t' → t'.child = t.child ∧ t'.parent = t.parent ∧
      ¬ t'.phase.holds) : MarkerOk tree s' := by
  have hmember := hok.members i t htxn
  refine hok.of_frame htxn (answer_frame hstep) ?_ (Or.inl (by rw [hlock])) ?_
  · have hold := hok.dirs t.parent (tree.isDir_of_mem hmember)
    rw [Tree.DirOk] at hold ⊢
    rw [hlock]
    cases hlocked : s.lock t.parent with
    | none =>
        rw [hlocked] at hold
        intro hclean
        rw [hdirty] at hclean
        exact Consistent.congr (by rw [hsize]) (fun c => by rw [hcontri]) (hold hclean)
    | some j =>
        rw [hlocked] at hold
        obtain ⟨u, hu, hparent, hholdOk⟩ := hold
        have hne : j ≠ i := by
          rintro rfl
          rw [htxn] at hu
          obtain rfl := Option.some.inj hu
          exact hwaits (HoldOk.holds hholdOk)
        exact ⟨u, ((answer_frame hstep).txns j hne).trans hu, hparent, HoldOk.congr (by rw [hsize])
          (fun c => by rw [hcontri]) (by rw [hdirty]) hholdOk⟩
  · intro t' ht'
    obtain ⟨hchild, hparent, hnot⟩ := hself t' ht'
    rw [hchild, hparent]
    exact ⟨hmember, fun hholds => absurd hholds hnot⟩

/-- **One answer** keeps the invariant, if the lock of a dirty directory is only given away when the
directory is consistent. -/
theorem MarkerOk.answer (hok : MarkerOk tree s) (htxn : s.txns i = some t)
    (hrecovered : t.phase = .waitLock → s.dirty t.parent = true → tree.Consistent s t.parent)
    (hstep : tree.answer s i t failed applied = some s') : MarkerOk tree s' := by
  have hmember := hok.members i t htxn
  have hdir := hok.dirs t.parent (tree.isDir_of_mem hmember)
  have hlocked := hok.holders i t htxn
  -- what the directory looks like while this transaction holds its lock
  have hhold : t.phase.holds → s.lock t.parent = some i ∧ tree.HoldOk s t.parent t.phase := by
    intro hholds
    rw [Tree.DirOk, hlocked hholds] at hdir
    obtain ⟨u, hu, -, hholdOk⟩ := hdir
    rw [htxn] at hu
    obtain rfl := Option.some.inj hu
    exact ⟨hlocked hholds, hholdOk⟩
  obtain ⟨c, d, phase⟩ := t
  cases phase with
  | arrive =>
      have hanswer := hstep
      simp only [Tree.answer] at hstep
      split_ifs at hstep with hstatus <;> obtain rfl := Option.some.inj hstep
      · refine hok.waiting htxn id hanswer rfl rfl rfl rfl fun t' ht' => ?_
        rw [finish_txns] at ht'
        cases ht'
      · refine hok.waiting htxn id hanswer rfl rfl rfl rfl fun t' ht' => ?_
        rw [goto_txns] at ht'
        obtain rfl := Option.some.inj ht'
        exact ⟨rfl, rfl, id⟩
  | waitLock =>
      have hanswer := hstep
      simp only [Tree.answer] at hstep
      split_ifs at hstep with hfailed hfree <;> obtain rfl := Option.some.inj hstep
      · refine hok.waiting htxn id hanswer rfl rfl rfl rfl fun t' ht' => ?_
        rw [finish_txns] at ht'
        cases ht'
      · rw [Tree.DirOk, hfree] at hdir
        refine hok.goto htxn hanswer (Or.inr hfree) (Function.update_self ..) ?_
        cases hdirty : s.dirty d with
        | false => exact hdir hdirty
        | true => exact hrecovered rfl hdirty
  | markdirty =>
      obtain ⟨hmine, hconsistent⟩ := hhold trivial
      have hanswer := hstep
      simp only [Tree.answer] at hstep
      split_ifs at hstep with hfailed heffect heffect <;> obtain rfl := Option.some.inj hstep
      · exact hok.goto htxn hanswer (Or.inl hmine) hmine fun _ => hconsistent
      · exact hok.goto htxn hanswer (Or.inl hmine) hmine fun _ => hconsistent
      · exact hok.goto htxn hanswer (Or.inl hmine) hmine ⟨Function.update_self .., hconsistent⟩
      · exact absurd (effect_of_not_failed hfailed) heffect
  | fetch =>
      obtain ⟨hmine, hholdOk⟩ := hhold trivial
      have hanswer := hstep
      obtain rfl := Option.some.inj hstep
      exact hok.goto htxn hanswer (Or.inl hmine) hmine hholdOk
  | lookup =>
      obtain ⟨hmine, hholdOk⟩ := hhold trivial
      have hanswer := hstep
      simp only [Tree.answer] at hstep
      split_ifs at hstep <;> obtain rfl := Option.some.inj hstep
      · exact hok.goto htxn hanswer (Or.inl hmine) hmine fun _ => hholdOk.2
      · exact hok.goto htxn hanswer (Or.inl hmine) hmine hholdOk.2
      · exact hok.goto htxn hanswer (Or.inl hmine) hmine hholdOk
  | contribution delta =>
      obtain ⟨hmine, hdirty, hconsistent⟩ := hhold trivial
      have hanswer := hstep
      simp only [Tree.answer] at hstep
      split_ifs at hstep with hfailed heffect heffect <;> obtain rfl := Option.some.inj hstep
      · exact hok.goto htxn hanswer (Or.inl hmine) hmine fun hclean =>
          Bool.noConfusion (hdirty.symm.trans hclean)
      · exact hok.goto htxn hanswer (Or.inl hmine) hmine fun _ => hconsistent
      · refine hok.goto htxn hanswer (Or.inl hmine) hmine ⟨hdirty, ?_⟩
        exact (congrArg (· + delta) hconsistent).trans (sum_addContri s hmember delta).symm
      · exact absurd (effect_of_not_failed hfailed) heffect
  | parentSize delta =>
      obtain ⟨hmine, hdirty, hsum⟩ := hhold trivial
      have hanswer := hstep
      simp only [Tree.answer] at hstep
      split_ifs at hstep with hfailed heffect heffect <;> obtain rfl := Option.some.inj hstep
      · exact hok.goto htxn hanswer (Or.inl hmine) hmine fun hclean =>
          Bool.noConfusion (hdirty.symm.trans hclean)
      · exact hok.goto htxn hanswer (Or.inl hmine) hmine fun hclean =>
          Bool.noConfusion (hdirty.symm.trans hclean)
      · refine hok.goto htxn hanswer (Or.inl hmine) hmine ?_
        exact (Function.update_self ..).trans hsum
      · exact absurd (effect_of_not_failed hfailed) heffect
  | undirty delta =>
      obtain ⟨hmine, hconsistent⟩ := hhold trivial
      have hanswer := hstep
      simp only [Tree.answer] at hstep
      split_ifs at hstep <;> obtain rfl := Option.some.inj hstep
      · exact hok.goto htxn hanswer (Or.inl hmine) hmine fun _ => hconsistent
      · exact hok.goto htxn hanswer (Or.inl hmine) hmine fun _ => hconsistent
  | release delta err =>
      obtain ⟨hmine, hclean⟩ := hhold trivial
      have hanswer := hstep
      simp only [Tree.answer] at hstep
      split_ifs at hstep <;> obtain rfl := Option.some.inj hstep
      · refine hok.free htxn hanswer hmine (Function.update_self ..) hclean fun t' ht' => ?_
        rw [finish_txns] at ht'
        cases ht'
      · obtain ⟨x, hclimb, hx⟩ := climb_eq tree (s.setLock d none) i d delta
        rw [hclimb] at hanswer ⊢
        refine hok.free htxn hanswer hmine (Function.update_self ..) hclean fun t' ht' => ?_
        exact hx t' ((Function.update_self i x (s.setLock d none).txns).symm.trans ht')
      · exact hok.goto htxn hanswer (Or.inl hmine) hmine hclean
  | stuck => cases hstep

/-! ## Whole runs -/

theorem MarkerOk.step {a : Action ι V} (hok : MarkerOk tree s) (hrecovered : tree.Recovered s a)
    (hstep : tree.step s a = some s') : MarkerOk tree s' := by
  cases a with
  | initiate i c d size =>
      rw [Tree.step] at hstep
      split_ifs at hstep with hguard
      obtain rfl := Option.some.inj hstep
      obtain ⟨hfresh, hmember, hfile⟩ := hguard
      refine hok.initiate hfresh hmember fun hdir => ?_
      cases size with
      | none => rfl
      | some v => exact Bool.noConfusion (hdir.symm.trans (hfile rfl))
  | answer i failed applied =>
      rw [Tree.step] at hstep
      cases htxn : s.txns i with
      | none =>
          rw [htxn] at hstep
          cases hstep
      | some t =>
          rw [htxn] at hstep
          exact hok.answer htxn (hrecovered t htxn) hstep
  | stop =>
      obtain rfl := Option.some.inj hstep
      exact hok.stop

theorem MarkerOk.of_start (hstart : (marker tree tree.Marked).start s) : MarkerOk tree s := by
  obtain ⟨hmarked, -, hlock, htxns⟩ := hstart
  refine ⟨fun d hd => ?_, fun i t ht => ?_, fun i t ht => ?_⟩
  · rw [Tree.DirOk, hlock d]
    exact hmarked d hd
  · rw [htxns i] at ht
    cases ht
  · rw [htxns i] at ht
    cases ht

/-- **A clean directory is consistent.**  In every run in which no transaction gets the lock of a
directory that was left half updated, a directory that is unlocked and not dirty has as its size the
sum of the contributions of its children. -/
theorem clean_consistent (hreach : (marker tree tree.Marked).ReachableWhen tree.Recovered s)
    (hd : tree.isDir d = true) (hlock : s.lock d = none) (hclean : s.dirty d = false) :
    s.size d = ∑ c ∈ tree.children d, s.contri c d := by
  have hok : MarkerOk tree s := by
    refine Machine.ReachableWhen.invariant (MarkerOk tree) (fun _ => MarkerOk.of_start) ?_ hreach
    intro s a s' hs hrecovered hstep
    exact hs.step hrecovered hstep
  have hdir := hok.dirs d hd
  rw [Tree.DirOk, hlock] at hdir
  exact hdir hclean

end Frames

/-! ## Runs -/

/-- The instance behind the literals. -/
scoped instance neZero_three : NeZero 3 := ⟨by decide⟩

/-- A root `0` with two files. -/
def twoFiles : Tree (Fin 3) where
  children d := if d = 0 then {1, 2} else ∅
  isDir d := d = 0
  up _ := none
  isDir_of_mem := by decide
  mem_of_up := fun h => by cases h
  up_of_mem := by decide

/-- Everything is empty. -/
def emptyQuota : Quota (Fin 3) ℤ where
  size _ := 0
  contri _ _ := 0
  dirty _ := false
  status _ := false
  lock _ := none
  txns _ := none

theorem emptyQuota_start : (marker twoFiles twoFiles.Marked).start emptyQuota := by
  refine ⟨fun d hd _ => ?_, fun _ => rfl, fun _ => rfl, fun _ => rfl⟩
  exact Finset.sum_const_zero.symm

/-- All operations of the transaction `i` succeed, `n` of them. -/
def succeed (i n : ℕ) : List (Action (Fin 3) ℤ) := List.replicate n (.answer i false true)

instance (s : Quota (Fin 3) ℤ) (d : Fin 3) : Decidable (twoFiles.Consistent s d) :=
  inferInstanceAs (Decidable (s.size d = _))

instance (s : Quota (Fin 3) ℤ) (a : Action (Fin 3) ℤ) : Decidable (twoFiles.Recovered s a) :=
  match a with
  | .answer i _ _ => inferInstanceAs (Decidable
      (∀ t ∈ s.txns i, t.phase = .waitLock → s.dirty t.parent = true →
        twoFiles.Consistent s t.parent))
  | .initiate .. => inferInstanceAs (Decidable True)
  | .stop => inferInstanceAs (Decidable True)

/-- One file grows, and its transaction ends. -/
theorem clean_consistent_oneTxn :
    ∃ s : Quota (Fin 3) ℤ,
      (marker twoFiles twoFiles.Marked).ReachableWhen twoFiles.Recovered s ∧
        s.lock 0 = none ∧ s.dirty 0 = false ∧ s.size 0 = 512 ∧
        s.size 0 = ∑ c ∈ twoFiles.children 0, s.contri c 0 := by
  have hresult : ((marker twoFiles twoFiles.Marked).execWhen twoFiles.Recovered emptyQuota
      (.initiate 0 1 0 (some 512) :: succeed 0 9)).map (fun s => (s.lock 0, s.dirty 0, s.size 0)) =
        some (none, false, 512) := by
    decide +kernel
  obtain ⟨s, hrun, hvalues⟩ := Option.map_eq_some_iff.mp hresult
  obtain ⟨hlock, hvalues⟩ := Prod.mk.inj hvalues
  obtain ⟨hdirty, hsize⟩ := Prod.mk.inj hvalues
  have hreach := (Machine.ReachableWhen.start emptyQuota_start).execWhen _ hrun
  exact ⟨s, hreach, hlock, hdirty, hsize, clean_consistent hreach (by decide) hlock hdirty⟩

/-- **A clean directory that is not consistent.**  The transaction of file `1` fails between the two
additions, and that of file `2`, which has not changed, clears the mark. -/
theorem clean_inconsistent :
    ∃ s : Quota (Fin 3) ℤ, (marker twoFiles twoFiles.Marked).Reachable s ∧ s.lock 0 = none ∧
      s.dirty 0 = false ∧ s.size 0 ≠ ∑ c ∈ twoFiles.children 0, s.contri c 0 := by
  have hresult : ((marker twoFiles twoFiles.Marked).exec emptyQuota
      (.initiate 0 1 0 (some 512) :: succeed 0 6 ++ .answer 0 true false :: succeed 0 1 ++
        .initiate 1 2 0 none :: succeed 1 7)).map (fun s => (s.lock 0, s.dirty 0, s.size 0,
          ∑ c ∈ twoFiles.children 0, s.contri c 0)) = some (none, false, 0, 512) := by
    decide +kernel
  obtain ⟨s, hrun, hvalues⟩ := Option.map_eq_some_iff.mp hresult
  obtain ⟨hlock, hvalues⟩ := Prod.mk.inj hvalues
  obtain ⟨hdirty, hvalues⟩ := Prod.mk.inj hvalues
  obtain ⟨hsize, hsum⟩ := Prod.mk.inj hvalues
  refine ⟨s, Machine.Reachable.exec (.start emptyQuota_start) _ hrun, hlock, hdirty, ?_⟩
  rw [hsize, hsum]
  decide

end GlusterFS.Marker
