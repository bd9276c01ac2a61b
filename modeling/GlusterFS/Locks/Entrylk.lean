import GlusterFS.Lib.LockQueue
import GlusterFS.Lib.Machine

/-!
# The entry locks of a directory

An entrylk locks one name of a directory, or all of them when its `basename` is null.
Granted locks and the queue are kept as for inodelks (`LockQueue`), but two locks of the
same owner conflict too, and so do read locks: `__entrylk_grantable` looks at the names
only.  This module embeds `names_conflict`, `names_equal`, `__entrylk_grantable`,
`__blocked_entrylk_conflict`, `__owner_has_lock`, `__lock_entrylk`,
`__find_most_matching_lock`, `__unlock_entrylk`, `__grant_blocked_entry_locks`,
`pl_common_entrylk` and the loop of `pl_entrylk_client_cleanup`.

`__unlock_entrylk` looks its lock up by name and compares the type.  It does not compare
the owner: an unlock that another client sends releases the lock.  `OwnUnlock` is the
condition on a request that leaves this out, and a step releases nobody else's lock
exactly when it meets the condition.
-/

namespace GlusterFS.Locks

open LockQueue

/-! ## The locks -/

/-- `entrylk_type`. -/
inductive EntrylkType
  | rdlck
  | wrlck
  deriving DecidableEq, Repr

/-- `pl_entry_lock_t`; `addr` stands for the address of the lock, and no name for all
names. -/
structure PlEntryLock where
  basename : Option String
  type : EntrylkType
  client : ℕ
  owner : ℕ
  addr : ℕ
  deriving DecidableEq, Repr

/-- `all_names`. -/
def allNames (basename : Option String) : Bool := basename.isNone

/-- `names_conflict`. -/
def namesConflict (n₁ n₂ : Option String) : Bool :=
  allNames n₁ || allNames n₂ || decide (n₁ = n₂)

/-- `names_equal`. -/
def namesEqual (n₁ n₂ : Option String) : Bool := decide (n₁ = n₂)

/-- `__same_entrylk_owner`. -/
def sameEntrylkOwner (l₁ l₂ : PlEntryLock) : Bool :=
  decide (l₁.owner = l₂.owner) && decide (l₁.client = l₂.client)

/-- `__entrylk_grantable` and `__blocked_entrylk_conflict` compare names only. -/
def entrylkRules : Rules PlEntryLock where
  conflict lock tmp := namesConflict tmp.basename lock.basename
  queueConflict lock tmp := namesConflict tmp.basename lock.basename
  sameOwner l lock := sameEntrylkOwner l lock

/-- The lists `entrylk_list` and `blocked_entrylks` of a `pl_dom_list_t`. -/
abbrev EntrylkDom := Queue PlEntryLock

/-! ## Requests -/

/-- `__lock_entrylk`. -/
def lockEntrylk (dom : EntrylkDom) (lock : PlEntryLock) (nonblock : Bool) :
    EntrylkDom × Outcome :=
  tryLock entrylkRules dom lock !nonblock

/-- The last lock of a list with a property, as a loop that overwrites its variable finds
it. -/
def lastMatching (p : PlEntryLock → Bool) (locks : List PlEntryLock) : Option PlEntryLock :=
  locks.foldl (fun found lock => if p lock then some lock else found) none

/-- `__find_most_matching_lock`: a lock on the name or else one on all names. -/
def findMostMatchingLock (dom : EntrylkDom) (basename : Option String) : Option PlEntryLock :=
  let all := lastMatching (fun lock => allNames lock.basename) dom.granted
  let exact := lastMatching
    (fun lock => !allNames lock.basename && namesEqual lock.basename basename) dom.granted
  exact.or all

/-- `__unlock_entrylk`. -/
def unlockEntrylk (dom : EntrylkDom) (basename : Option String) (type : EntrylkType) :
    Option EntrylkDom :=
  match findMostMatchingLock dom basename with
  | none => none
  | some tmp =>
      if namesEqual tmp.basename basename ∧ tmp.type = type then
        some { dom with granted := dom.granted.erase tmp }
      else none

/-- `__grant_blocked_entry_locks`. -/
def grantBlockedEntryLocks (dom : EntrylkDom) : EntrylkDom × List PlEntryLock :=
  regrant entrylkRules dom

/-- The loop body of `pl_entrylk_client_cleanup`, for one lock of the client. -/
def entrylkCleanup (dom : EntrylkDom) (client addr : ℕ) : EntrylkDom :=
  LockQueue.discard (fun l => decide (l.client = client) && decide (l.addr = addr)) dom

/-! ## Runs -/

/-- `lock` and `unlock` are the requests of `pl_common_entrylk`, up to the end of their
critical section; `cleanup` is the removal of one lock of a client that has disconnected and
`grant` the pass that follows an unlock or a removal. -/
inductive EntrylkAct
  | lock (basename : Option String) (type : EntrylkType) (client owner addr : ℕ)
      (nonblock : Bool)
  | unlock (basename : Option String) (type : EntrylkType) (client owner : ℕ)
  | cleanup (client addr : ℕ)
  | grant
  deriving DecidableEq, Repr

/-- One step; a new lock has an address of its own. -/
def entrylkStep (dom : EntrylkDom) : EntrylkAct → Option EntrylkDom
  | .lock basename type client owner addr nonblock =>
      if ∀ l ∈ dom.granted ++ dom.blocked, l.addr ≠ addr then
        some (lockEntrylk dom ⟨basename, type, client, owner, addr⟩ nonblock).1
      else none
  -- a failing unlock answers `EINVAL` and leaves the lists alone
  | .unlock basename type _ _ => some ((unlockEntrylk dom basename type).getD dom)
  | .cleanup client addr =>
      if ∃ l ∈ dom.granted ++ dom.blocked, l.client = client ∧ l.addr = addr then
        some (entrylkCleanup dom client addr)
      else none
  | .grant => some (grantBlockedEntryLocks dom).1

/-- The entry locks of a domain; a pass can come at any time. -/
def entryLocks : Machine EntrylkDom EntrylkAct where
  start dom := dom = ⟨[], []⟩
  step := entrylkStep

variable {dom dom' : EntrylkDom}

/-! ## Finding the lock of a name -/

theorem lastMatching_eq (p : PlEntryLock → Bool) (locks : List PlEntryLock) :
    lastMatching p locks = locks.reverse.find? p := by
  have loop : ∀ (locks : List PlEntryLock) (found : Option PlEntryLock),
      locks.foldl (fun found lock => if p lock then some lock else found) found =
        (locks.reverse.find? p).or found := by
    intro locks
    induction locks with
    | nil => exact fun _ => rfl
    | cons l locks ih =>
        intro found
        rw [List.foldl_cons, ih, List.reverse_cons, List.find?_append, Option.or_assoc]
        congr 1
        cases h : p l with
        | true => simp [h]
        | false => simp [h]
  rw [lastMatching, loop, Option.or_none]

/-- What is found is granted. -/
theorem mem_of_findMostMatchingLock {basename : Option String} {tmp : PlEntryLock}
    (h : findMostMatchingLock dom basename = some tmp) : tmp ∈ dom.granted := by
  simp only [findMostMatchingLock, lastMatching_eq, Option.or_eq_some_iff] at h
  rcases h with h | ⟨_, h⟩
  · exact List.mem_reverse.mp (List.mem_of_find?_eq_some h)
  · exact List.mem_reverse.mp (List.mem_of_find?_eq_some h)

/-- A name that is locked is found, by a lock of the same name. -/
theorem findMostMatchingLock_of_mem {lock : PlEntryLock} (h : lock ∈ dom.granted) :
    ∃ tmp ∈ dom.granted, findMostMatchingLock dom lock.basename = some tmp ∧
      namesConflict tmp.basename lock.basename = true := by
  -- whatever the search returns conflicts: it has the name or all names
  have conflicts : ∀ tmp, findMostMatchingLock dom lock.basename = some tmp →
      namesConflict tmp.basename lock.basename = true := by
    intro tmp htmp
    simp only [findMostMatchingLock, lastMatching_eq, Option.or_eq_some_iff] at htmp
    rcases htmp with htmp | ⟨_, htmp⟩
    · have := List.find?_some htmp
      simp only [Bool.and_eq_true] at this
      simp [namesConflict, of_decide_eq_true this.2]
    · simp [namesConflict, List.find?_some htmp]
  cases hfind : findMostMatchingLock dom lock.basename with
  | some tmp => exact ⟨tmp, mem_of_findMostMatchingLock hfind, rfl, conflicts tmp hfind⟩
  | none =>
      -- the lock itself is a candidate of one of the two searches
      simp only [findMostMatchingLock, lastMatching_eq, Option.or_eq_none_iff,
        List.find?_eq_none, List.mem_reverse] at hfind
      have hexact := hfind.1 lock h
      have hall := hfind.2 lock h
      simp [namesEqual, hall] at hexact

/-! ## Exclusion -/

/-- No two granted locks have conflicting names. -/
def EntrylkDom.Exclusive (dom : EntrylkDom) : Prop :=
  dom.granted.Pairwise fun l₁ l₂ => namesConflict l₁.basename l₂.basename = false

theorem namesConflict_comm (n₁ n₂ : Option String) :
    namesConflict n₁ n₂ = namesConflict n₂ n₁ := by
  simp only [namesConflict, Bool.or_comm (allNames n₁), eq_comm]

theorem EntrylkDom.exclusive_iff :
    EntrylkDom.Exclusive dom ↔ LockQueue.Exclusive entrylkRules dom := by
  simp only [EntrylkDom.Exclusive, LockQueue.Exclusive, entrylkRules]
  refine iff_of_eq (congrArg (List.Pairwise · dom.granted) ?_)
  funext l₁ l₂
  rw [namesConflict_comm]

/-- Two granted locks with conflicting names are one lock. -/
theorem EntrylkDom.Exclusive.unique (h : EntrylkDom.Exclusive dom) {l₁ l₂ : PlEntryLock}
    (h₁ : l₁ ∈ dom.granted) (h₂ : l₂ ∈ dom.granted)
    (hconflict : namesConflict l₁.basename l₂.basename = true) : l₁ = l₂ := by
  by_contra hne
  have hsymm : Std.Symm fun l₁ l₂ : PlEntryLock =>
      namesConflict l₁.basename l₂.basename = false := by
    constructor
    intro x y hxy
    rw [namesConflict_comm]
    exact hxy
  have happart := List.Pairwise.forall h h₁ h₂ hne
  rw [hconflict] at happart
  cases happart

theorem EntrylkDom.Exclusive.nodup (h : EntrylkDom.Exclusive dom) : dom.granted.Nodup := by
  refine List.Pairwise.imp ?_ h
  rintro l₁ l₂ hconflict rfl
  simp [namesConflict] at hconflict

theorem unlockEntrylk_sublist (basename : Option String) (type : EntrylkType) :
    ((unlockEntrylk dom basename type).getD dom).granted.Sublist dom.granted := by
  unfold unlockEntrylk
  split
  · exact List.Sublist.refl _
  · split
    · exact List.erase_sublist
    · exact List.Sublist.refl _

theorem entrylkStep_exclusive {a : EntrylkAct} (h : entrylkStep dom a = some dom')
    (hexclusive : LockQueue.Exclusive entrylkRules dom) :
    LockQueue.Exclusive entrylkRules dom' := by
  cases a with
  | lock basename type client owner addr nonblock =>
      simp only [entrylkStep] at h
      split at h
      · cases h
        exact hexclusive.tryLock _ _
      · cases h
  | unlock basename type client owner =>
      cases h
      exact hexclusive.sublist (unlockEntrylk_sublist basename type)
  | cleanup client addr =>
      simp only [entrylkStep] at h
      split at h
      · cases h
        exact hexclusive.sublist (discard_granted_sublist _ _)
      · cases h
  | grant =>
      cases h
      exact hexclusive.regrant

theorem reachable_exclusive (h : entryLocks.Reachable dom) : EntrylkDom.Exclusive dom := by
  refine EntrylkDom.exclusive_iff.mpr ?_
  refine h.invariant (LockQueue.Exclusive entrylkRules) ?_
    fun dom a dom' hexclusive hstep => entrylkStep_exclusive hstep hexclusive
  rintro dom rfl
  exact List.Pairwise.nil

/-! ## Who releases a lock -/

/-- The step is an unlock of the name of the lock by its own client and owner, or the cleanup
of its client. -/
def EntrylkAct.Entitled (lock : PlEntryLock) : EntrylkAct → Prop
  | .unlock basename _ client owner =>
      lock.basename = basename ∧ lock.client = client ∧ lock.owner = owner
  | .cleanup client _ => lock.client = client
  | .lock .. | .grant => False

/-- An unlock comes from the client and the owner that hold the granted lock of this name and
this type, if there is one. -/
def OwnUnlock (dom : EntrylkDom) : EntrylkAct → Prop
  | .unlock basename type client owner =>
      ∀ lock ∈ dom.granted, lock.basename = basename → lock.type = type →
        lock.client = client ∧ lock.owner = owner
  | _ => True

/-- Every granted lock that the step takes away is taken by somebody who may. -/
def KeepsOthers (dom : EntrylkDom) (a : EntrylkAct) (dom' : EntrylkDom) : Prop :=
  ∀ lock ∈ dom.granted, lock ∉ dom'.granted → a.Entitled lock

/-- A lock that an unlock takes away has the name and the type of the request. -/
theorem unlockEntrylk_removed {basename : Option String} {type : EntrylkType}
    {lock : PlEntryLock} (hlock : lock ∈ dom.granted)
    (hgone : lock ∉ ((unlockEntrylk dom basename type).getD dom).granted) :
    lock.basename = basename ∧ lock.type = type := by
  unfold unlockEntrylk at hgone
  split at hgone
  · exact absurd hlock hgone
  · next tmp _ =>
    split at hgone
    · next hmatch =>
      by_cases heq : lock = tmp
      · subst heq
        exact ⟨of_decide_eq_true hmatch.1, hmatch.2⟩
      · exact absurd ((List.mem_erase_of_ne heq).mpr hlock) hgone
    · exact absurd hlock hgone

/-- An unlock takes away the granted lock of its name and type. -/
theorem unlockEntrylk_removes (hexclusive : EntrylkDom.Exclusive dom) {lock : PlEntryLock}
    (hlock : lock ∈ dom.granted) :
    lock ∉ ((unlockEntrylk dom lock.basename lock.type).getD dom).granted := by
  obtain ⟨tmp, htmp, hfind, hconflict⟩ := findMostMatchingLock_of_mem hlock
  obtain rfl := hexclusive.unique htmp hlock hconflict
  simp only [unlockEntrylk, hfind, namesEqual, decide_true, and_self, if_true,
    Option.getD_some]
  exact fun hmem => (List.Nodup.mem_erase_iff hexclusive.nodup).mp hmem |>.1 rfl

/-- The cleanup of a client takes away its own locks. -/
theorem entrylkCleanup_removed {client addr : ℕ} {lock : PlEntryLock}
    (hlock : lock ∈ dom.granted) (hgone : lock ∉ (entrylkCleanup dom client addr).granted) :
    lock.client = client := by
  unfold entrylkCleanup LockQueue.discard at hgone
  split at hgone
  · by_contra hother
    refine hgone (List.mem_filter.mpr ⟨hlock, ?_⟩)
    simp [hother]
  · exact absurd hlock hgone

/-- A step takes away nobody else's lock exactly when an unlock is the holder's own. -/
theorem keepsOthers_iff (hexclusive : EntrylkDom.Exclusive dom) {a : EntrylkAct}
    (h : entrylkStep dom a = some dom') : KeepsOthers dom a dom' ↔ OwnUnlock dom a := by
  cases a with
  | lock basename type client owner addr nonblock =>
      refine iff_of_true (fun lock hlock hgone => ?_) trivial
      simp only [entrylkStep] at h
      split at h
      · cases h
        exact absurd (mem_tryLock_granted hlock _ _) hgone
      · cases h
  | unlock basename type client owner =>
      cases h
      constructor
      · rintro hkeeps lock hlock rfl rfl
        exact (hkeeps lock hlock (unlockEntrylk_removes hexclusive hlock)).2
      · intro hown lock hlock hgone
        obtain ⟨hname, htype⟩ := unlockEntrylk_removed hlock hgone
        exact ⟨hname, hown lock hlock hname htype⟩
  | cleanup client addr =>
      refine iff_of_true (fun lock hlock hgone => ?_) trivial
      simp only [entrylkStep] at h
      split at h
      · cases h
        exact entrylkCleanup_removed hlock hgone
      · cases h
  | grant =>
      refine iff_of_true (fun lock hlock hgone => ?_) trivial
      cases h
      exact absurd (mem_regrant_granted hlock) hgone

/-- **In every run of the entry locks of a domain no two granted locks have conflicting
names; and a step takes a granted lock away only by an unlock of its name by its own client
and owner or by the cleanup of its client, exactly when the step meets `OwnUnlock`.** -/
theorem entrylk_kept_iff_own_unlock (h : entryLocks.Reachable dom) :
    EntrylkDom.Exclusive dom ∧
    ∀ a dom', entrylkStep dom a = some dom' → (KeepsOthers dom a dom' ↔ OwnUnlock dom a) := by
  have hexclusive := reachable_exclusive h
  exact ⟨hexclusive, fun a dom' hstep => keepsOthers_iff hexclusive hstep⟩

/-- A client locks a name, another one waits for all names, and the first one unlocks. -/
theorem entrylk_kept_iff_own_unlock_waiter :
    ∃ dom dom', entryLocks.Reachable dom ∧
      dom = ⟨[⟨some "a", .wrlck, 1, 7, 1⟩], [⟨none, .wrlck, 2, 7, 2⟩]⟩ ∧
      entrylkStep dom (.unlock (some "a") .wrlck 1 7) = some dom' ∧ dom'.granted = [] ∧
      KeepsOthers dom (.unlock (some "a") .wrlck 1 7) dom' := by
  have h := Machine.Reachable.exec (M := entryLocks) (.start rfl)
    [.lock (some "a") .wrlck 1 7 1 false, .lock none .wrlck 2 7 2 false] rfl
  refine ⟨_, _, h, rfl, rfl, by decide, ?_⟩
  refine ((entrylk_kept_iff_own_unlock h).2 _ _ rfl).mpr ?_
  intro lock hlock _ _
  obtain rfl := List.mem_singleton.mp hlock
  exact ⟨rfl, rfl⟩

/-- **A client locks a name, another client unlocks it, and a third one is granted the name
although the first one has neither unlocked it nor disconnected.** -/
theorem unlock_of_another_client : ∃ dom dom' dom'', entryLocks.Reachable dom ∧
    dom.granted = [⟨some "a", .wrlck, 1, 7, 1⟩] ∧
    entrylkStep dom (.unlock (some "a") .wrlck 2 8) = some dom' ∧ dom'.granted = [] ∧
    entrylkStep dom' (.lock (some "a") .wrlck 3 9 3 true) = some dom'' ∧
    dom''.granted = [⟨some "a", .wrlck, 3, 9, 3⟩] ∧
    ¬ KeepsOthers dom (.unlock (some "a") .wrlck 2 8) dom' := by
  have h := Machine.Reachable.exec (M := entryLocks) (.start rfl)
    [.lock (some "a") .wrlck 1 7 1 false] rfl
  refine ⟨_, _, _, h, rfl, rfl, by decide, rfl, by decide, fun hkeeps => ?_⟩
  have hentitled := hkeeps ⟨some "a", .wrlck, 1, 7, 1⟩ List.mem_cons_self (by decide)
  exact absurd hentitled.2.1 (by decide)

end GlusterFS.Locks
