import GlusterFS.Lib.Machine

/-!
# Suppressed updates of the changelog

The changelog translator writes at most one record of an inode and a type into each changelog file.
It compares the **version of the inode** with the **version of the slice**, which a rollover
increments, and writes a record when they differ.  The check, the dispatch of the record and the
update of the inode's version are three critical sections of `changelog_update`, and a rollover can
fall between any two of them.

The module runs any number of updates and rollovers one critical section at a time.  A rollover has
two: the dispatcher switches files, and the slice version is incremented; `priv->lock` is held over
both, the dispatcher's own lock only over the first, so that a record can still be dispatched in
between.  An update is **covered** when a record of its inode and type is in a file that had not been
rolled over when it was called.

`update_covered` shows this for all runs in which no rollover switches files while an update is
between its dispatch and `INODE_VERSION_UPDATE` (`Undisturbed`).  The long comment in the source
leaves that case out, and it loses changes: the inode gets the version of the **new** slice for a
record in the **old** file, and the next change of the inode is suppressed (`update_lost`).
-/

namespace GlusterFS.Changelog

/-! ## The model -/

/-- The types of changes with a version check. -/
inductive ChangeType where
  | data
  | metadata
  deriving DecidableEq

/-- Where a call of `changelog_update` is. -/
inductive Pc where
  | called
  /-- `changelog_inode_ctx_get` has returned this version. -/
  | read (version : ℕ)
  /-- `INODE_VERSION_EQUALS_SLICE` has set `need_upd`. -/
  | needUpdate
  /-- `dispatchfn` has returned, `INODE_VERSION_UPDATE` is to come. -/
  | dispatched
  | returned
  deriving DecidableEq

/-- A call of `changelog_update`, and the file that was current when it was made. -/
structure Update where
  inode : ℕ
  type : ChangeType
  start : ℕ
  pc : Pc
  deriving DecidableEq

/-- A record, with the number of the file that it is in. -/
structure Record where
  file : ℕ
  inode : ℕ
  type : ChangeType
  deriving DecidableEq

/-- The current file is `file`, those before it have been rolled over. -/
structure State where
  slice : ChangeType → ℕ
  iver : ℕ → ChangeType → ℕ
  file : ℕ
  records : List Record
  /-- A rollover holds `priv->lock`. -/
  rolling : Bool
  updates : ℕ → Option Update

/-- The next critical section of a call. -/
def runUpdate (s : State) (id : ℕ) (u : Update) : Option State :=
  let next (pc : Pc) : ℕ → Option Update := Function.update s.updates id (some { u with pc := pc })
  match u.pc with
  | .called => some { s with updates := next (.read (s.iver u.inode u.type)) }
  | .read version =>
      if s.rolling then none
      else if version = s.slice u.type then some { s with updates := next .returned }
      else some { s with updates := next .needUpdate }
  | .needUpdate =>
      some { s with
        records := ⟨s.file, u.inode, u.type⟩ :: s.records
        updates := next .dispatched }
  | .dispatched =>
      if s.rolling then none
      else some { s with
        iver := Function.update s.iver u.inode
          (Function.update (s.iver u.inode) u.type (s.slice u.type))
        updates := next .returned }
  | .returned => none

inductive Action where
  /-- A new call of `changelog_update`. -/
  | update (id inode : ℕ) (type : ChangeType)
  | run (id : ℕ)
  /-- `changelog_rollover` takes `priv->lock` and dispatches the rollover event. -/
  | rollover
  /-- `SLICE_VERSION_UPDATE`, and `priv->lock` is released. -/
  | sliceVersionUpdate

def step (s : State) : Action → Option State
  | .update id inode type =>
      if s.updates id = none then
        some { s with updates := Function.update s.updates id (some ⟨inode, type, s.file, .called⟩) }
      else none
  | .run id => (s.updates id).bind (runUpdate s id)
  | .rollover => if s.rolling then none else some { s with file := s.file + 1, rolling := true }
  | .sliceVersionUpdate =>
      if s.rolling then some { s with slice := fun type => s.slice type + 1, rolling := false }
      else none

/-- `changelog_init` sets the slice versions to `1`; the versions of an inode are `0`. -/
def initial : State := ⟨fun _ => 1, fun _ _ => 0, 0, [], false, fun _ => none⟩

def changelog : Machine State Action where
  start s := s = initial
  step := step

/-- **Covered**: some record is in a file that had not been rolled over at the call. -/
def Covered (s : State) (u : Update) : Prop :=
  ∃ record ∈ s.records, record.inode = u.inode ∧ record.type = u.type ∧ u.start ≤ record.file

/-- A rollover finds no call between its dispatch and the update of the inode's version. -/
def Undisturbed (s : State) : Action → Prop
  | .rollover => ∀ id u, s.updates id = some u → u.pc ≠ .dispatched
  | _ => True

/-! ## The invariant -/

/-- What holds of a call at each place. -/
def UpdateOk (s : State) (u : Update) : Prop :=
  match u.pc with
  | .called => True
  | .read version => ∀ file, version = file + 1 → ⟨file, u.inode, u.type⟩ ∈ s.records
  | .needUpdate => True
  | .dispatched => ⟨s.file, u.inode, u.type⟩ ∈ s.records
  | .returned => Covered s u

/-- **The invariant**: an inode has a version only if it has a record in the file of that version. -/
structure Inv (s : State) : Prop where
  slice : ∀ type, s.slice type + s.rolling.toNat = s.file + 1
  iver : ∀ inode type file, s.iver inode type = file + 1 → ⟨file, inode, type⟩ ∈ s.records
  started : ∀ id u, s.updates id = some u → u.start ≤ s.file
  updates : ∀ id u, s.updates id = some u → UpdateOk s u

theorem initial_inv : Inv initial := by
  refine ⟨fun _ => rfl, fun inode type file h => ?_, fun id u hu => ?_, fun id u hu => ?_⟩
  · cases h
  · cases hu
  · cases hu

/-- More records in the same file do no harm. -/
theorem UpdateOk.mono {s s' : State} {u : Update} (h : UpdateOk s u) (hfile : s'.file = s.file)
    (hrecords : s.records ⊆ s'.records) : UpdateOk s' u := by
  obtain ⟨inode, type, start, pc⟩ := u
  cases pc with
  | called => trivial
  | read version => exact fun file hversion => hrecords (h file hversion)
  | needUpdate => trivial
  | dispatched =>
      refine hrecords ?_
      rw [hfile]
      exact h
  | returned =>
      obtain ⟨record, hrecord, hmatch⟩ := h
      exact ⟨record, hrecords hrecord, hmatch⟩

/-- One call moves, and the others stay where they are. -/
theorem Inv.advance {s s' : State} (h : Inv s) {id : ℕ} {u' : Update}
    (hslice : s'.slice = s.slice) (hrolling : s'.rolling = s.rolling) (hfile : s'.file = s.file)
    (hrecords : s.records ⊆ s'.records)
    (hupdates : s'.updates = Function.update s.updates id (some u'))
    (hiver : ∀ inode type file, s'.iver inode type = file + 1 → ⟨file, inode, type⟩ ∈ s'.records)
    (hstart : u'.start ≤ s.file) (hu' : UpdateOk s' u') : Inv s' := by
  refine ⟨fun type => ?_, hiver, fun other v hv => ?_, fun other v hv => ?_⟩
  · rw [hslice, hrolling, hfile]
    exact h.slice type
  · rw [hupdates] at hv
    rw [hfile]
    by_cases hother : other = id
    · rw [hother, Function.update_self] at hv
      exact Option.some.inj hv ▸ hstart
    · rw [Function.update_of_ne hother] at hv
      exact h.started other v hv
  · rw [hupdates] at hv
    by_cases hother : other = id
    · rw [hother, Function.update_self] at hv
      exact Option.some.inj hv ▸ hu'
    · rw [Function.update_of_ne hother] at hv
      exact (h.updates other v hv).mono hfile hrecords

/-- **One critical section of a call.** -/
theorem Inv.runUpdate {s s' : State} (h : Inv s) {id : ℕ} {u : Update} (hu : s.updates id = some u)
    (hrun : runUpdate s id u = some s') : Inv s' := by
  have hstart := h.started id u hu
  have hok := h.updates id u hu
  have hcurrent : s.rolling = false → ∀ type, s.slice type = s.file + 1 := by
    intro hrolling type
    have := h.slice type
    rwa [hrolling] at this
  obtain ⟨inode, type, start, pc⟩ := u
  cases pc with
  | called =>
      obtain rfl := Option.some.inj hrun
      exact h.advance rfl rfl rfl (List.Subset.refl _) rfl h.iver hstart fun file hversion =>
        h.iver inode type file hversion
  | read version =>
      cases hrolling : s.rolling with
      | true =>
          rw [Changelog.runUpdate, hrolling] at hrun
          cases hrun
      | false =>
          simp only [Changelog.runUpdate, hrolling] at hrun
          by_cases hequal : version = s.slice type
          · -- the version is that of the current file, so there is a record in it
            simp only [if_pos hequal] at hrun
            obtain rfl := Option.some.inj hrun
            refine h.advance rfl hrolling.symm rfl (List.Subset.refl _) rfl h.iver hstart ?_
            exact ⟨_, hok s.file (hequal.trans (hcurrent hrolling type)), rfl, rfl, hstart⟩
          · simp only [if_neg hequal] at hrun
            obtain rfl := Option.some.inj hrun
            exact h.advance rfl hrolling.symm rfl (List.Subset.refl _) rfl h.iver hstart trivial
  | needUpdate =>
      obtain rfl := Option.some.inj hrun
      exact h.advance rfl rfl rfl (List.subset_cons_self _ _) rfl
        (fun i t file hversion => List.mem_cons_of_mem _ (h.iver i t file hversion)) hstart
        List.mem_cons_self
  | dispatched =>
      cases hrolling : s.rolling with
      | true =>
          rw [Changelog.runUpdate, hrolling] at hrun
          cases hrun
      | false =>
          simp only [Changelog.runUpdate, hrolling] at hrun
          obtain rfl := Option.some.inj hrun
          refine h.advance rfl hrolling.symm rfl (List.Subset.refl _) rfl (fun i t file hversion => ?_)
            hstart ⟨_, hok, rfl, rfl, hstart⟩
          by_cases hi : i = inode
          · subst hi
            by_cases ht : t = type
            · subst ht
              simp only [Function.update_self] at hversion
              have hfile : s.file = file := by
                have := hcurrent hrolling t
                omega
              exact hfile ▸ hok
            · simp only [Function.update_self, Function.update_of_ne ht] at hversion
              exact h.iver i t file hversion
          · simp only [Function.update_of_ne hi] at hversion
            exact h.iver i t file hversion
  | returned => cases hrun

/-- A rollover that disturbs no call. -/
theorem Inv.rollover {s : State} (h : Inv s) (hok : Undisturbed s .rollover)
    (hrolling : s.rolling = false) : Inv { s with file := s.file + 1, rolling := true } := by
  refine ⟨fun type => ?_, h.iver, fun id u hu => (h.started id u hu).trans (Nat.le_succ _),
    fun id u hu => ?_⟩
  · have := h.slice type
    rw [hrolling] at this
    exact congrArg (· + 1) this
  · have hu' := h.updates id u hu
    have hnot := hok id u hu
    obtain ⟨inode, type, start, pc⟩ := u
    cases pc with
    | dispatched => exact absurd rfl hnot
    | called => trivial
    | needUpdate => trivial
    | read version => exact hu'
    | returned => exact hu'

theorem Inv.step {s s' : State} {a : Action} (h : Inv s) (hok : Undisturbed s a)
    (hstep : Changelog.step s a = some s') : Inv s' := by
  cases a with
  | update id inode type =>
      by_cases hnew : s.updates id = none
      · rw [Changelog.step, if_pos hnew] at hstep
        obtain rfl := Option.some.inj hstep
        exact h.advance rfl rfl rfl (List.Subset.refl _) rfl h.iver le_rfl trivial
      · rw [Changelog.step, if_neg hnew] at hstep
        cases hstep
  | run id =>
      obtain ⟨u, hu, hrun⟩ := Option.bind_eq_some_iff.mp hstep
      exact h.runUpdate hu hrun
  | rollover =>
      cases hrolling : s.rolling with
      | true =>
          rw [Changelog.step, hrolling] at hstep
          cases hstep
      | false =>
          rw [Changelog.step, hrolling] at hstep
          exact Option.some.inj hstep ▸ h.rollover hok hrolling
  | sliceVersionUpdate =>
      cases hrolling : s.rolling with
      | false =>
          rw [Changelog.step, hrolling] at hstep
          cases hstep
      | true =>
          rw [Changelog.step, hrolling] at hstep
          obtain rfl := Option.some.inj hstep
          refine ⟨fun type => ?_, h.iver, h.started, fun id u hu =>
            (h.updates id u hu).mono rfl (List.Subset.refl _)⟩
          have := h.slice type
          rw [hrolling] at this
          exact this

/-! ## Covered updates -/

/-- **No update is lost** in a run whose rollovers disturb no call: every call that has returned is
covered. -/
theorem update_covered {s : State} (h : changelog.ReachableWhen Undisturbed s) {id : ℕ} {u : Update}
    (hu : s.updates id = some u) (hreturned : u.pc = .returned) : Covered s u := by
  have hinv : Inv s := by
    refine Machine.ReachableWhen.invariant Inv ?_ ?_ h
    · rintro s rfl
      exact initial_inv
    · intro s a s' hs hok hstep
      exact hs.step hok hstep
  have hok := hinv.updates id u hu
  rw [UpdateOk, hreturned] at hok
  exact hok

/-- One call, from its start to its end. -/
def wholeUpdate (id inode : ℕ) (type : ChangeType) : List Action :=
  [.update id inode type, .run id, .run id, .run id, .run id]

/-- Two updates of one inode in one file: the second returns without a record of its own. -/
theorem update_covered_twice :
    ∃ s u, changelog.ReachableWhen Undisturbed s ∧ s.updates 1 = some u ∧ u.pc = .returned ∧
      s.records.length = 1 ∧ Covered s u := by
  have hresult : (changelog.exec initial (wholeUpdate 0 7 .data
      ++ [.update 1 7 .data, .run 1, .run 1])).map (fun s => (s.updates 1, s.records))
        = some (some ⟨7, .data, 0, .returned⟩, [⟨0, 7, .data⟩]) := by decide
  obtain ⟨s, hrun, heq⟩ := Option.map_eq_some_iff.mp hresult
  rw [Prod.mk.injEq] at heq
  have hreach : changelog.ReachableWhen Undisturbed s :=
    Machine.ReachableWhen.exec (.start rfl) _ (fun a ha t => by
      simp only [wholeUpdate, List.cons_append, List.nil_append, List.mem_cons, List.not_mem_nil,
        or_false] at ha
      rcases ha with rfl | rfl | rfl | rfl | rfl | rfl | rfl | rfl <;> trivial) hrun
  exact ⟨s, _, hreach, heq.1, rfl, by rw [heq.2]; rfl, update_covered hreach heq.1 rfl⟩

/-- **A lost update.**  A rollover falls between the dispatch and `INODE_VERSION_UPDATE` of the first
call.  The second call starts after it and returns without a record: the only one is in the file that
has been rolled over. -/
theorem update_lost :
    ∃ s u, changelog.Reachable s ∧ s.updates 1 = some u ∧ u.pc = .returned ∧ u.start = 1 ∧
      s.records = [⟨0, 7, .data⟩] ∧ ¬ Covered s u := by
  have hresult : (changelog.exec initial [.update 0 7 .data, .run 0, .run 0, .run 0, .rollover,
      .sliceVersionUpdate, .run 0, .update 1 7 .data, .run 1, .run 1]).map
        (fun s => (s.updates 1, s.records))
      = some (some ⟨7, .data, 1, .returned⟩, [⟨0, 7, .data⟩]) := by decide
  obtain ⟨s, hrun, heq⟩ := Option.map_eq_some_iff.mp hresult
  rw [Prod.mk.injEq] at heq
  refine ⟨s, _, Machine.Reachable.exec (.start rfl) _ hrun, heq.1, rfl, rfl, heq.2, ?_⟩
  rintro ⟨record, hrecord, -, -, hfile⟩
  rw [heq.2, List.mem_singleton] at hrecord
  rw [hrecord] at hfile
  exact absurd hfile (by decide)

end GlusterFS.Changelog
