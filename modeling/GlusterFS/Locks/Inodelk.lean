import GlusterFS.Lib.LockQueue
import GlusterFS.Locks.Posix

/-!
# The inode locks of a domain

The translators above `features/locks` lock ranges of a file against each other with
inodelks.  Unlike posix locks they are kept as they were asked for, in two lists of their
domain: `inodelk_list` with the granted ones and the queue `blocked_inodelks`.  This
module embeds `new_inode_lock`, `__inodelk_grantable`, `__blocked_lock_conflict`,
`__owner_has_lock`, `__lock_inodelk`, `__inode_unlock_lock`,
`__grant_blocked_inode_locks`, `pl_inode_setlk` and the loop of
`pl_inodelk_client_cleanup`; the two lists and the way a lock takes are those of
`LockQueue`, with the conflicts of `inodelkRules`.

`pl_inode_setlk` removes a lock under the mutex of the inode and calls
`grant_blocked_inode_locks` after it has let the mutex go, and the cleanup of a client
takes its locks out one by one, each under the mutex, before it grants once for each of
them.  Requests of other clients come in between.  `pending` counts the passes that are
still to come: the operations that have not completed.
-/

namespace GlusterFS.Locks

open LockQueue

/-! ## The locks -/

/-- `pl_inode_lock_t`; `addr` stands for the address of the lock. -/
structure PlInodeLock where
  flType : LockType
  flStart : ℤ
  flEnd : ℤ
  client : ℕ
  owner : ℕ
  addr : ℕ
  deriving DecidableEq, Repr

/-- `new_inode_lock`; the sum is one of 64 bits. -/
def newInodeLock (flock : Flock) (addr : ℕ) : PlInodeLock where
  flType := flock.lType
  flStart := flock.lStart
  flEnd := if flock.lLen = 0 then llongMax else (flock.lStart + flock.lLen - 1).bmod (2 ^ 64)
  client := flock.client
  owner := flock.owner
  addr := addr

/-- `inodelk_overlap`. -/
def inodelkOverlap (l₁ l₂ : PlInodeLock) : Bool :=
  decide (l₂.flStart ≤ l₁.flEnd) && decide (l₁.flStart ≤ l₂.flEnd)

/-- `same_inodelk_owner`. -/
def sameInodelkOwner (l₁ l₂ : PlInodeLock) : Bool :=
  decide (l₁.owner = l₂.owner) && decide (l₁.client = l₂.client)

/-- `inodelk_type_conflict`. -/
def inodelkTypeConflict (l₁ l₂ : PlInodeLock) : Bool :=
  decide (l₂.flType = .wrlck) || decide (l₁.flType = .wrlck)

/-- `inodelk_conflict`. -/
def inodelkConflict (l₁ l₂ : PlInodeLock) : Bool :=
  inodelkOverlap l₁ l₂ && inodelkTypeConflict l₁ l₂

/-- A granted lock of the same owner is no conflict (`__inodelk_grantable`), one that waits
is (`__blocked_lock_conflict`). -/
def inodelkRules : Rules PlInodeLock where
  conflict lock l := inodelkConflict lock l && !sameInodelkOwner lock l
  queueConflict lock l := inodelkConflict lock l
  sameOwner l lock := sameInodelkOwner l lock

/-- The lists `inodelk_list` and `blocked_inodelks` of a `pl_dom_list_t`. -/
abbrev InodelkDom := Queue PlInodeLock

/-! ## Requests -/

/-- `__lock_inodelk`. -/
def lockInodelk (dom : InodelkDom) (lock : PlInodeLock) (canBlock : Bool) :
    InodelkDom × Outcome :=
  tryLock inodelkRules dom lock canBlock

/-- `inodelks_equal`. -/
def inodelksEqual (l₁ l₂ : PlInodeLock) : Bool :=
  decide (l₁.flStart = l₂.flStart) && decide (l₁.flEnd = l₂.flEnd)

/-- `find_matching_inodelk`. -/
def findMatchingInodelk (lock : PlInodeLock) (dom : InodelkDom) : Option PlInodeLock :=
  dom.granted.find? fun l => inodelksEqual l lock && sameInodelkOwner l lock

/-- `__inode_unlock_lock`. -/
def inodeUnlockLock (lock : PlInodeLock) (dom : InodelkDom) : Option InodelkDom :=
  match findMatchingInodelk lock dom with
  | none => none
  | some conf => some { dom with granted := dom.granted.erase conf }

/-- `__grant_blocked_inode_locks`. -/
def grantBlockedInodeLocks (dom : InodelkDom) : InodelkDom × List PlInodeLock :=
  regrant inodelkRules dom

/-- What `pl_inode_setlk` returns. -/
inductive InodeSetlkRet
  | ok
  | eagain
  | einval
  deriving DecidableEq, Repr

/-- `pl_inode_setlk`, up to the end of its critical section. -/
def plInodeSetlk (dom : InodelkDom) (lock : PlInodeLock) (canBlock : Bool) :
    InodelkDom × InodeSetlkRet :=
  if lock.flType ≠ .unlck then
    let result := lockInodelk dom lock canBlock
    (result.1, if result.2 = .granted then .ok else .eagain)
  else
    match inodeUnlockLock lock dom with
    | none => (dom, .einval)
    | some dom' => (dom', .ok)

/-- The loop body of `pl_inodelk_client_cleanup`, for one lock of the client. -/
def inodelkCleanup (dom : InodelkDom) (client addr : ℕ) : InodelkDom :=
  LockQueue.discard (fun l => decide (l.client = client) && decide (l.addr = addr)) dom

/-! ## Runs -/

/-- A domain, with the number of passes that are still to come. -/
structure InodelkState where
  dom : InodelkDom
  pending : ℕ
  deriving DecidableEq, Repr

/-- `setlk` is a request of a client, `cleanup` the removal of one lock of a client that has
disconnected, and `grant` the pass that completes an operation. -/
inductive InodelkAct
  | setlk (flock : Flock) (addr : ℕ) (canBlock : Bool)
  | cleanup (client addr : ℕ)
  | grant
  deriving DecidableEq, Repr

/-- One step.  `pl_common_inodelk` refuses negative offsets and lengths; a new lock has an
address of its own. -/
def inodelkStep (s : InodelkState) : InodelkAct → Option InodelkState
  | .setlk flock addr canBlock =>
      if (0 ≤ flock.lStart ∧ flock.lStart < 2 ^ 63 ∧ 0 ≤ flock.lLen ∧ flock.lLen < 2 ^ 63) ∧
          (∀ l ∈ s.dom.granted ++ s.dom.blocked, l.addr ≠ addr) then
        let result := plInodeSetlk s.dom (newInodeLock flock addr) canBlock
        -- only an unlock that has succeeded is followed by a pass
        some ⟨result.1,
          if flock.lType = .unlck ∧ result.2 = .ok then s.pending + 1 else s.pending⟩
      else none
  | .cleanup client addr =>
      if ∃ l ∈ s.dom.granted ++ s.dom.blocked, l.client = client ∧ l.addr = addr then
        some ⟨inodelkCleanup s.dom client addr, s.pending + 1⟩
      else none
  | .grant =>
      if 0 < s.pending then some ⟨(grantBlockedInodeLocks s.dom).1, s.pending - 1⟩ else none

/-- The inode locks of a domain. -/
def inodeLocks : Machine InodelkState InodelkAct where
  start s := s = ⟨⟨[], []⟩, 0⟩
  step := inodelkStep

/-! ## The invariant -/

/-- Granted locks do not conflict, all locks are as they were asked for, and when no operation is
under way every lock that waits is held up. -/
structure InodelkState.Ok (P : PlInodeLock → Prop) (s : InodelkState) : Prop where
  exclusive : Exclusive inodelkRules s.dom
  asked : All P s.dom
  justified : s.pending = 0 → Justified inodelkRules s.dom

variable {s s' : InodelkState} {P : PlInodeLock → Prop}

theorem initial_inodelk_ok : InodelkState.Ok P ⟨⟨[], []⟩, 0⟩ where
  exclusive := List.Pairwise.nil
  asked := by rintro l (hl | hl) <;> cases hl
  justified _ before lock after hsplit := absurd hsplit.symm (by simp)

/-- A lock leaves the granted ones, and a pass is to come. -/
theorem InodelkState.Ok.remove (hok : s.Ok P) {dom : InodelkDom}
    (hgranted : dom.granted.Sublist s.dom.granted) (hasked : All P dom) :
    InodelkState.Ok P ⟨dom, s.pending + 1⟩ where
  exclusive := hok.exclusive.sublist hgranted
  asked := hasked
  justified h := absurd h (Nat.succ_ne_zero _)

theorem InodelkState.Ok.lock (hok : s.Ok P) {lock : PlInodeLock} (hlock : P lock)
    (canBlock : Bool) : InodelkState.Ok P ⟨(lockInodelk s.dom lock canBlock).1, s.pending⟩ where
  exclusive := hok.exclusive.tryLock lock canBlock
  asked := hok.asked.tryLock hlock canBlock
  justified h := (hok.justified h).tryLock lock canBlock

theorem InodelkState.Ok.unlock (hok : s.Ok P) {lock : PlInodeLock} {dom : InodelkDom}
    (h : inodeUnlockLock lock s.dom = some dom) : InodelkState.Ok P ⟨dom, s.pending + 1⟩ := by
  unfold inodeUnlockLock at h
  split at h
  · cases h
  · cases h
    refine hok.remove List.erase_sublist fun l hl => ?_
    rcases hl with hl | hl
    · exact hok.asked l (.inl (List.mem_of_mem_erase hl))
    · exact hok.asked l (.inr hl)

/-- What a request asks for has the property. -/
def InodelkAct.Asks (P : PlInodeLock → Prop) : InodelkAct → Prop
  | .setlk flock addr _ => flock.Admitted → flock.lType ≠ .unlck → P (newInodeLock flock addr)
  | _ => True

theorem inodelkStep_ok {a : InodelkAct} (h : inodelkStep s a = some s') (hasks : a.Asks P)
    (hok : s.Ok P) : s'.Ok P := by
  cases a with
  | setlk flock addr canBlock =>
      simp only [inodelkStep] at h
      split at h
      · next hrange =>
        cases h
        by_cases htype : flock.lType = .unlck
        · have hnew : (newInodeLock flock addr).flType = .unlck := htype
          cases hunlock : inodeUnlockLock (newInodeLock flock addr) s.dom with
          | none => simpa [plInodeSetlk, hnew, htype, hunlock] using hok
          | some dom => simpa [plInodeSetlk, hnew, htype, hunlock] using hok.unlock hunlock
        · have hnew : (newInodeLock flock addr).flType ≠ .unlck := htype
          simpa [plInodeSetlk, hnew, htype] using hok.lock (hasks hrange.1 htype) canBlock
      · cases h
  | cleanup client addr =>
      simp only [inodelkStep] at h
      split at h
      · cases h
        exact hok.remove (discard_granted_sublist _ _) (hok.asked.discard _)
      · cases h
  | grant =>
      simp only [inodelkStep] at h
      split at h
      · cases h
        exact ⟨hok.exclusive.regrant, hok.asked.regrant, fun _ => regrant_justified _ _⟩
      · cases h

/-- The requests that can take a lock away: an unlock of its owner, and the cleanup of its
client. -/
def InodelkAct.Releases (l : PlInodeLock) : InodelkAct → Prop
  | .setlk flock _ _ => flock.lType = .unlck ∧ flock.owner = l.owner ∧ flock.client = l.client
  | .cleanup client _ => client = l.client
  | .grant => False

/-- An unlock leaves the granted locks of other owners alone. -/
theorem inodeUnlockLock_keeps {lock l : PlInodeLock} {dom dom' : InodelkDom}
    (h : inodeUnlockLock lock dom = some dom') (hl : l ∈ dom.granted)
    (hother : ¬ (lock.owner = l.owner ∧ lock.client = l.client)) : l ∈ dom'.granted := by
  unfold inodeUnlockLock at h
  split at h
  · cases h
  · next conf hfind =>
    cases h
    refine (List.mem_erase_of_ne ?_).mpr hl
    rintro rfl
    have hmatch := List.find?_some hfind
    simp only [sameInodelkOwner, Bool.and_eq_true, decide_eq_true_eq] at hmatch
    exact hother ⟨hmatch.2.1.symm, hmatch.2.2.symm⟩

/-- A granted lock stays until it is released. -/
theorem inodelkStep_keeps {a : InodelkAct} {l : PlInodeLock} (h : inodelkStep s a = some s')
    (hl : l ∈ s.dom.granted) (hkeep : ¬ a.Releases l) : l ∈ s'.dom.granted := by
  cases a with
  | setlk flock addr canBlock =>
      simp only [inodelkStep] at h
      split at h
      · cases h
        by_cases htype : flock.lType = .unlck
        · have hnew : (newInodeLock flock addr).flType = .unlck := htype
          cases hunlock : inodeUnlockLock (newInodeLock flock addr) s.dom with
          | none => simpa [plInodeSetlk, hnew, hunlock] using hl
          | some dom =>
              have hkept := inodeUnlockLock_keeps hunlock hl fun hsame => hkeep ⟨htype, hsame⟩
              simpa [plInodeSetlk, hnew, hunlock] using hkept
        · have hnew : (newInodeLock flock addr).flType ≠ .unlck := htype
          have hkept : l ∈ (lockInodelk s.dom (newInodeLock flock addr) canBlock).1.granted :=
            mem_tryLock_granted hl _ _
          simpa [plInodeSetlk, hnew] using hkept
      · cases h
  | cleanup client addr =>
      simp only [inodelkStep] at h
      split at h
      · cases h
        unfold inodelkCleanup LockQueue.discard
        split
        · refine List.mem_filter.mpr ⟨hl, ?_⟩
          have hne : l.client ≠ client := fun heq => hkeep heq.symm
          simp [hne]
        · exact hl
      · cases h
  | grant =>
      simp only [inodelkStep] at h
      split at h
      · cases h
        exact mem_regrant_granted hl
      · cases h

theorem inodelkStep_setlk_dom {flock : Flock} {addr : ℕ} {canBlock : Bool}
    (h : inodelkStep s (.setlk flock addr canBlock) = some s') :
    s'.dom = (plInodeSetlk s.dom (newInodeLock flock addr) canBlock).1 := by
  simp only [inodelkStep] at h
  split at h
  · cases h
    rfl
  · cases h

/-- A lock that `pl_inode_setlk` grants is in the list. -/
theorem mem_granted_of_plInodeSetlk {dom : InodelkDom} {lock : PlInodeLock} {canBlock : Bool}
    (htype : lock.flType ≠ .unlck) (h : (plInodeSetlk dom lock canBlock).2 = .ok) :
    lock ∈ (plInodeSetlk dom lock canBlock).1.granted := by
  simp only [plInodeSetlk, if_pos htype] at h ⊢
  have htried := tryLock_tried inodelkRules dom lock canBlock
  rw [lockInodelk] at h ⊢
  generalize tryLock inodelkRules dom lock canBlock = result at htried h ⊢
  cases htried with
  | granted => exact List.mem_cons_self
  | blocked | refused => cases h

theorem inodelkConflict_comm (l₁ l₂ : PlInodeLock) :
    inodelkConflict l₁ l₂ = inodelkConflict l₂ l₁ := by
  simp only [inodelkConflict, inodelkOverlap, inodelkTypeConflict]
  rw [Bool.and_comm (decide (l₂.flStart ≤ l₁.flEnd)), Bool.or_comm]

theorem sameInodelkOwner_comm (l₁ l₂ : PlInodeLock) :
    sameInodelkOwner l₁ l₂ = sameInodelkOwner l₂ l₁ := by
  simp only [sameInodelkOwner, eq_comm]

/-- Granted locks of different owners do not conflict, whichever of them came first. -/
theorem InodelkState.Ok.apart (hok : s.Ok P) {l₁ l₂ : PlInodeLock} (h₁ : l₁ ∈ s.dom.granted)
    (h₂ : l₂ ∈ s.dom.granted) (howner : sameInodelkOwner l₁ l₂ = false) :
    inodelkConflict l₁ l₂ = false := by
  have hne : l₁ ≠ l₂ := by
    rintro rfl
    simp [sameInodelkOwner] at howner
  have hsymm : Std.Symm fun new old : PlInodeLock => inodelkRules.conflict new old = false := by
    constructor
    intro x y hxy
    simp only [inodelkRules] at hxy ⊢
    rw [inodelkConflict_comm, sameInodelkOwner_comm]
    exact hxy
  have happart := List.Pairwise.forall hok.exclusive h₁ h₂ hne
  simpa [inodelkRules, howner] using happart

/-- Every lock that waits conflicts with a granted lock of another owner or with a lock that
waits before it. -/
def InodelkDom.HeldUp (dom : InodelkDom) : Prop :=
  ∀ before lock after, dom.blocked = before ++ lock :: after →
    (∃ g ∈ dom.granted, inodelkConflict lock g = true ∧ sameInodelkOwner lock g = false) ∨
    ∃ b ∈ before, inodelkConflict lock b = true

theorem InodelkDom.heldUp_iff {dom : InodelkDom} :
    InodelkDom.HeldUp dom ↔ Justified inodelkRules dom := by
  simp [InodelkDom.HeldUp, Justified, inodelkRules]

/-- The bytes of a file that a lock is for. -/
def PlInodeLock.bytes (l : PlInodeLock) : Set ℤ := rangeBytes l.flStart l.flEnd

theorem bytes_newInodeLock {flock : Flock} (h : flock.Admitted) (addr : ℕ) :
    (newInodeLock flock addr).bytes = flock.bytes ∩ Set.Iio (2 ^ 63) :=
  bytes_newPosixLock h

/-- The range of a request does not overflow. -/
def InodelkAct.InRange : InodelkAct → Prop
  | .setlk flock _ _ => flock.InRange
  | _ => True

instance (a : InodelkAct) : Decidable a.InRange :=
  match a with
  | .setlk flock _ _ => inferInstanceAs (Decidable (flock.lLen = 0 ∨ _))
  | .cleanup .. | .grant => isTrue trivial

/-- A lock to read or to write, whose end has not overflowed. -/
def PlInodeLock.Ordered (l : PlInodeLock) : Prop := l.flType ≠ .unlck ∧ l.flStart ≤ l.flEnd

theorem InodelkAct.InRange.asks {a : InodelkAct} (h : a.InRange) : a.Asks PlInodeLock.Ordered := by
  cases a with
  | setlk flock addr canBlock =>
      intro hadmitted htype
      exact ⟨htype, (newPosixLock_proper hadmitted (.inl h)).ordered⟩
  | cleanup | grant => trivial

theorem InodelkState.Ok.readers (hok : s.Ok PlInodeLock.Ordered) {l₁ l₂ : PlInodeLock}
    (h₁ : l₁ ∈ s.dom.granted) (h₂ : l₂ ∈ s.dom.granted) (howner : sameInodelkOwner l₁ l₂ = false)
    (hbytes : (l₁.bytes ∩ l₂.bytes).Nonempty) : l₁.flType = .rdlck ∧ l₂.flType = .rdlck := by
  have hfree := hok.apart h₁ h₂ howner
  obtain ⟨ht₁, hrange₁⟩ := hok.asked l₁ (.inl h₁)
  obtain ⟨ht₂, hrange₂⟩ := hok.asked l₂ (.inl h₂)
  have hoverlap : inodelkOverlap l₁ l₂ = true := by
    simpa [inodelkOverlap] using overlap_of_rangeBytes hrange₁ hrange₂ hbytes
  cases htype₁ : l₁.flType <;> cases htype₂ : l₂.flType <;>
    simp_all [inodelkConflict, inodelkTypeConflict]

/-- **In every run of the inode locks of a domain whose requests do not overflow, two granted locks
of different owners that are for a byte in common are both read locks; and in every run every lock
that waits is held up, when all operations have completed and after every pass that completes
one.**  The bytes of a lock are those that were asked for. -/
theorem inodelk_exclusive_and_justified (h : inodeLocks.Reachable s) :
    (inodeLocks.ReachableWhen (fun _ a => a.InRange) s →
      ∀ l₁ ∈ s.dom.granted, ∀ l₂ ∈ s.dom.granted, sameInodelkOwner l₁ l₂ = false →
        (l₁.bytes ∩ l₂.bytes).Nonempty → l₁.flType = .rdlck ∧ l₂.flType = .rdlck) ∧
    (∀ flock : Flock, flock.Admitted → ∀ addr,
      (newInodeLock flock addr).bytes = flock.bytes ∩ Set.Iio (2 ^ 63)) ∧
    (s.pending = 0 → InodelkDom.HeldUp s.dom) ∧
    ∀ s', inodelkStep s .grant = some s' → InodelkDom.HeldUp s'.dom := by
  refine ⟨fun hrange l₁ h₁ l₂ h₂ howner hbytes => ?_, fun _ => bytes_newInodeLock,
    fun hdone => ?_, fun s' hgrant => ?_⟩
  · have hok : s.Ok PlInodeLock.Ordered := by
      refine hrange.invariant (InodelkState.Ok PlInodeLock.Ordered) ?_
        fun s a s' hok hrange hstep => inodelkStep_ok hstep hrange.asks hok
      rintro s rfl
      exact initial_inodelk_ok
    exact hok.readers h₁ h₂ howner hbytes
  · have hok : s.Ok fun _ => True := by
      refine h.invariant (InodelkState.Ok fun _ => True) ?_ fun s a s' hok hstep =>
        inodelkStep_ok hstep (by cases a <;> simp [InodelkAct.Asks]) hok
      rintro s rfl
      exact initial_inodelk_ok
    exact InodelkDom.heldUp_iff.mpr (hok.justified hdone)
  · simp only [inodelkStep] at hgrant
    split at hgrant
    · cases hgrant
      exact InodelkDom.heldUp_iff.mpr (regrant_justified _ _)
    · cases hgrant

/-- A reader waits behind a writer that waits for another reader; the client of the writer
disconnects, and the reader is granted. -/
def readerBehindWriter : List InodelkAct :=
  [.setlk ⟨.rdlck, 0, 10, 1, 1, 1⟩ 1 true, .setlk ⟨.wrlck, 5, 0, 2, 1, 1⟩ 2 true,
    .setlk ⟨.rdlck, 8, 4, 3, 1, 1⟩ 3 true, .setlk ⟨.wrlck, 0, 4, 4, 1, 1⟩ 4 true,
    .cleanup 2 2, .grant]

theorem inodelk_exclusive_and_justified_disconnect :
    ∃ s, inodeLocks.ReachableWhen (fun _ a => a.InRange) s ∧ inodeLocks.Reachable s ∧
      s.pending = 0 ∧
      s.dom = ⟨[⟨.rdlck, 8, 11, 3, 1, 3⟩, ⟨.rdlck, 0, 9, 1, 1, 1⟩], [⟨.wrlck, 0, 3, 4, 1, 4⟩]⟩ ∧
      (∀ l₁ ∈ s.dom.granted, ∀ l₂ ∈ s.dom.granted, sameInodelkOwner l₁ l₂ = false →
        (l₁.bytes ∩ l₂.bytes).Nonempty → l₁.flType = .rdlck ∧ l₂.flType = .rdlck) ∧
      ∃ g ∈ s.dom.granted, inodelkConflict ⟨.wrlck, 0, 3, 4, 1, 4⟩ g = true := by
  obtain ⟨s, hrun, hwhen, hpending, hdom⟩ :
      ∃ s, inodeLocks.exec ⟨⟨[], []⟩, 0⟩ readerBehindWriter = some s ∧
        inodeLocks.execWhen (fun _ a => a.InRange) ⟨⟨[], []⟩, 0⟩ readerBehindWriter = some s ∧
        s.pending = 0 ∧ s.dom = ⟨[⟨.rdlck, 8, 11, 3, 1, 3⟩, ⟨.rdlck, 0, 9, 1, 1, 1⟩],
          [⟨.wrlck, 0, 3, 4, 1, 4⟩]⟩ :=
    ⟨_, rfl, rfl, by decide, by decide⟩
  have h := Machine.Reachable.exec (.start rfl) readerBehindWriter hrun
  have hrange := Machine.ReachableWhen.execWhen (.start rfl) readerBehindWriter hwhen
  obtain ⟨hreaders, -, hheld, -⟩ := inodelk_exclusive_and_justified h
  refine ⟨s, hrange, h, hpending, hdom, hreaders hrange, ?_⟩
  rcases hheld hpending [] _ [] (by rw [hdom]; rfl) with ⟨g, hg, hconflict, _⟩ | ⟨b, hb, _⟩
  · exact ⟨g, hg, hconflict⟩
  · cases hb

/-- **Two writers on the same bytes**, since the last byte of the request overflows. -/
theorem long_inodelks_granted : ∃ s, inodeLocks.Reachable s ∧
    s.dom.granted = [newInodeLock (longRequest 2) 2, newInodeLock (longRequest 1) 1] ∧
    sameInodelkOwner (newInodeLock (longRequest 1) 1) (newInodeLock (longRequest 2) 2) = false ∧
    200 ∈ (longRequest 1).bytes ∩ (longRequest 2).bytes ∧
    200 ∈ (newInodeLock (longRequest 1) 1).bytes ∩ (newInodeLock (longRequest 2) 2).bytes := by
  obtain ⟨s, hrun, hdom⟩ :
      ∃ s, inodeLocks.exec ⟨⟨[], []⟩, 0⟩
          [.setlk (longRequest 1) 1 true, .setlk (longRequest 2) 2 true] = some s ∧
        s.dom.granted = [newInodeLock (longRequest 2) 2, newInodeLock (longRequest 1) 1] :=
    ⟨_, rfl, by decide⟩
  exact ⟨s, Machine.Reachable.exec (.start rfl) _ hrun, hdom, by decide,
    ⟨mem_bytes_longRequest 1, mem_bytes_longRequest 2⟩, mem_bytes_longLock 1, mem_bytes_longLock 2⟩

end GlusterFS.Locks
