import GlusterFS.Lib.Machine
import GlusterFS.Locks.Inodelk

/-!
# Lock requests of the distribute translator

`dht_nonblocking_inodelk` and `dht_blocking_inodelk` take several inode locks on several
subvolumes, all at once or one after the other, and tell their caller whether all of them
are held.  When one fails, `dht_inodelk_cleanup` unlocks those that were acquired.  This
module embeds `dht_lock_frame`, `dht_nonblocking_inodelk`, `dht_nonblocking_inodelk_cbk`,
`dht_blocking_inodelk_rec`, `dht_blocking_inodelk_cbk`, `dht_lock_count`,
`dht_inodelk_cleanup`, `dht_unlock_inodelk`, `dht_unlock_inodelk_cbk` and
`dht_inodelk_done`, over bricks that are those of `Locks.Inodelk`.

A brick knows a lock by its client and its lk-owner.  `dht_lock_frame` copies a frame and
makes the address of the *parent's* stack the lk-owner of the copy.  The locks are wound in
a copy of the caller's frame, so that their owner is the caller's stack; the unlocks of the
cleanup are wound in a copy of that copy, so that their owner is the stack of the first
copy.  Both stacks are alive: the owners differ, and the bricks find no lock to release.

So after a request that has failed everything that was granted is still held
(`RequestState.Ok.held`).
-/

namespace GlusterFS.Dht

open GlusterFS.Locks

/-! ## The model -/

/-- Where a lock is: a subvolume, an inode and a domain. -/
structure Place where
  xl : ℕ
  gfid : ℕ
  domain : ℕ
  deriving DecidableEq, Repr

/-- `dht_lock_t`, without `locked`; it is no unlock. -/
structure DhtLock where
  place : Place
  type : LockType
  typed : type ≠ .unlck

/-- The stack of a frame: its address and its lk-owner. -/
structure Stack where
  root : ℕ
  lkOwner : ℕ
  deriving DecidableEq, Repr

/-- `dht_lock_frame`; the new stack is at the address `newRoot`. -/
def dhtLockFrame (parent : Stack) (newRoot : ℕ) : Stack := ⟨newRoot, parent.root⟩

/-- A call of `dht_nonblocking_inodelk` or `dht_blocking_inodelk`.  The stacks of the caller
and of its lock frame are alive together, so that they have different addresses. -/
structure Request where
  locks : List DhtLock
  blocking : Bool
  client : ℕ
  frame : Stack
  lockRoot : ℕ
  unlockRoot : ℕ
  nonempty : locks ≠ []
  distinct : frame.root ≠ lockRoot

namespace Request

variable (r : Request)

/-- The frame in which the locks are wound. -/
def lockFrame : Stack := dhtLockFrame r.frame r.lockRoot

/-- The frame in which `dht_inodelk_cleanup` winds the unlocks. -/
def unlockFrame : Stack := dhtLockFrame r.lockFrame r.unlockRoot

/-- What is wound for a lock. -/
def lockFlock (lock : DhtLock) : Flock := ⟨lock.type, 0, 0, r.client, r.lockFrame.lkOwner, 0⟩

/-- What is wound for an unlock. -/
def unlockFlock : Flock := ⟨.unlck, 0, 0, r.client, r.unlockFrame.lkOwner, 0⟩

end Request

/-- Where a call is. -/
inductive Call
  | idle
  | wound
  /-- It waits in the queue of the brick. -/
  | queued (addr : ℕ)
  | answered (ok : Bool)
  | returned
  deriving DecidableEq, Repr

/-- The bricks, and the `lock` of the frame's `local`.  `acquired` records which locks a brick
has granted to the request, and at which address. -/
structure RequestState where
  bricks : Place → InodelkState
  calls : ℕ → Call
  acquired : ℕ → Option ℕ
  locked : ℕ → Bool
  opFailed : Bool
  callCnt : ℕ
  unlocks : ℕ → Call
  unlockCnt : ℕ
  report : Option Bool

/-- `serve`, `lost` and `granted` are what can happen to a lock request on its way, `reply` is
its callback; `unlockServe`, `unlockLost` and `unlockReply` the same for the unlocks of the
cleanup.  `other` is anything that others do on a brick. -/
inductive RequestAct
  | serve (i addr : ℕ)
  | lost (i : ℕ)
  | granted (i : ℕ)
  | reply (i : ℕ)
  | unlockServe (i addr : ℕ)
  | unlockLost (i : ℕ)
  | unlockReply (i : ℕ)
  | other (place : Place) (a : InodelkAct)
  deriving DecidableEq, Repr

section Step

variable (r : Request)

/-- `dht_lock_count`. -/
def dhtLockCount (s : RequestState) : ℕ :=
  (List.range r.locks.length).countP s.locked

/-- `dht_inodelk_done`. -/
def dhtInodelkDone (s : RequestState) : RequestState := { s with report := some !s.opFailed }

/-- `dht_inodelk_cleanup`, with `dht_unlock_inodelk`. -/
def dhtInodelkCleanup (s : RequestState) : RequestState :=
  if dhtLockCount r s ≠ 0 then
    { s with
      unlocks := fun i => if i < r.locks.length ∧ s.locked i then .wound else .idle
      unlockCnt := dhtLockCount r s }
  else dhtInodelkDone s

/-- `dht_nonblocking_inodelk_cbk`. -/
def dhtNonblockingInodelkCbk (s : RequestState) (i : ℕ) (ok : Bool) : RequestState :=
  let s' : RequestState := { s with
    calls := Function.update s.calls i .returned
    locked := if ok then Function.update s.locked i true else s.locked
    opFailed := s.opFailed || !ok
    callCnt := s.callCnt - 1 }
  if s'.callCnt = 0 then
    if s'.opFailed then dhtInodelkCleanup r s' else dhtInodelkDone s'
  else s'

/-- `dht_blocking_inodelk_cbk`, with `dht_blocking_inodelk_rec`. -/
def dhtBlockingInodelkCbk (s : RequestState) (i : ℕ) (ok : Bool) : RequestState :=
  let s' : RequestState := { s with
    calls := Function.update s.calls i .returned
    locked := if ok then Function.update s.locked i true else s.locked
    opFailed := s.opFailed || !ok }
  if ok then
    if i = r.locks.length - 1 then dhtInodelkDone s'
    else { s' with calls := Function.update s'.calls (i + 1) .wound }
  else dhtInodelkCleanup r s'

/-- `dht_unlock_inodelk_cbk`. -/
def dhtUnlockInodelkCbk (s : RequestState) (i : ℕ) (ok : Bool) : RequestState :=
  let s' : RequestState := { s with
    unlocks := Function.update s.unlocks i .returned
    locked := if ok then Function.update s.locked i false else s.locked
    unlockCnt := s.unlockCnt - 1 }
  if s'.unlockCnt = 0 then dhtInodelkDone s' else s'

/-- Others do not unlock with the owner of the request, and its client does not disconnect. -/
def Request.foreign : InodelkAct → Bool
  | .setlk flock _ _ =>
      !(decide (flock.lType = .unlck) && decide (flock.owner = r.lockFrame.lkOwner) &&
        decide (flock.client = r.client))
  | .cleanup client _ => decide (client ≠ r.client)
  | .grant => true

/-- One step. -/
def requestStep (s : RequestState) : RequestAct → Option RequestState
  | .serve i addr =>
      match r.locks[i]?, s.calls i with
      | some lock, .wound =>
          let flock := r.lockFlock lock
          (inodelkStep (s.bricks lock.place) (.setlk flock addr r.blocking)).map fun brick =>
            let s' := { s with bricks := Function.update s.bricks lock.place brick }
            if (plInodeSetlk (s.bricks lock.place).dom (newInodeLock flock addr) r.blocking).2 = .ok then
              { s' with
                calls := Function.update s.calls i (.answered true)
                acquired := Function.update s.acquired i (some addr) }
            else
              { s' with calls :=
                  Function.update s.calls i (if r.blocking then .queued addr else .answered false) }
      | _, _ => none
  | .lost i =>
      if s.calls i = .wound then
        some { s with calls := Function.update s.calls i (.answered false) }
      else none
  | .granted i =>
      match r.locks[i]?, s.calls i with
      | some lock, .queued addr =>
          if newInodeLock (r.lockFlock lock) addr ∈ (s.bricks lock.place).dom.granted then
            some { s with
              calls := Function.update s.calls i (.answered true)
              acquired := Function.update s.acquired i (some addr) }
          else none
      | _, _ => none
  | .reply i =>
      match s.calls i with
      | .answered ok =>
          some (if r.blocking then dhtBlockingInodelkCbk r s i ok
            else dhtNonblockingInodelkCbk r s i ok)
      | _ => none
  | .unlockServe i addr =>
      match r.locks[i]?, s.unlocks i with
      | some lock, .wound =>
          (inodelkStep (s.bricks lock.place) (.setlk r.unlockFlock addr false)).map fun brick =>
            { s with
              bricks := Function.update s.bricks lock.place brick
              unlocks := Function.update s.unlocks i (.answered (decide
                ((plInodeSetlk (s.bricks lock.place).dom (newInodeLock r.unlockFlock addr) false).2
                  = .ok))) }
      | _, _ => none
  | .unlockLost i =>
      if s.unlocks i = .wound then
        some { s with unlocks := Function.update s.unlocks i (.answered false) }
      else none
  | .unlockReply i =>
      match s.unlocks i with
      | .answered ok => some (dhtUnlockInodelkCbk s i ok)
      | _ => none
  | .other place a =>
      if r.foreign a then
        (inodelkStep (s.bricks place) a).map fun brick =>
          { s with bricks := Function.update s.bricks place brick }
      else none

/-- The state in which the request has wound its first calls: all of them, or one. -/
def Request.begun (bricks : Place → InodelkState) : RequestState where
  bricks := bricks
  calls := fun i =>
    if i < r.locks.length ∧ (r.blocking = true → i = 0) then .wound else .idle
  acquired := fun _ => none
  locked := fun _ => false
  opFailed := false
  callCnt := r.locks.length
  unlocks := fun _ => .idle
  unlockCnt := 0
  report := none

/-- A lock request over bricks in any state. -/
def lockRequest : Machine RequestState RequestAct where
  start s := ∃ bricks, s = r.begun bricks
  step := requestStep r

end Step

/-! ## The locks that are granted stay -/

section Owners

variable (r : Request)

theorem unlockFrame_lkOwner_ne : r.unlockFrame.lkOwner ≠ r.lockFrame.lkOwner := by
  intro h
  exact r.distinct h.symm

/-- A lock of the request on a brick. -/
def Request.Owns (l : PlInodeLock) : Prop := l.owner = r.lockFrame.lkOwner ∧ l.client = r.client

theorem owns_newInodeLock (lock : DhtLock) (addr : ℕ) :
    r.Owns (newInodeLock (r.lockFlock lock) addr) :=
  ⟨rfl, rfl⟩

/-- A lock that the request winds releases none. -/
theorem lockFlock_not_releases (lock : DhtLock) (addr : ℕ) (canBlock : Bool) (l : PlInodeLock) :
    ¬ (InodelkAct.setlk (r.lockFlock lock) addr canBlock).Releases l :=
  fun h => lock.typed h.1

/-- **An unlock of the cleanup releases no lock of the request: it has another owner.** -/
theorem unlockFlock_not_releases {l : PlInodeLock} (hl : r.Owns l) (addr : ℕ) (canBlock : Bool) :
    ¬ (InodelkAct.setlk r.unlockFlock addr canBlock).Releases l :=
  fun h => unlockFrame_lkOwner_ne r (h.2.1.trans hl.1)

theorem foreign_not_releases {l : PlInodeLock} (hl : r.Owns l) {a : InodelkAct}
    (ha : r.foreign a = true) : ¬ a.Releases l := by
  cases a with
  | setlk flock addr canBlock =>
      rintro ⟨htype, howner, hclient⟩
      simp [Request.foreign, htype, howner.trans hl.1, hclient.trans hl.2] at ha
  | cleanup client addr =>
      intro h
      have hne : client ≠ r.client := by simpa [Request.foreign] using ha
      exact hne (h.trans hl.2)
  | grant => exact fun h => h

end Owners

/-! ## The invariant -/

/-- What holds in every state of a request. -/
structure RequestState.Ok (r : Request) (s : RequestState) : Prop where
  held : ∀ i lock addr, r.locks[i]? = some lock → s.acquired i = some addr →
    newInodeLock (r.lockFlock lock) addr ∈ (s.bricks lock.place).dom.granted
  inside : ∀ i, s.calls i ≠ .idle → i < r.locks.length
  answered : ∀ i, s.calls i = .answered true → s.acquired i ≠ none
  returned : s.opFailed = false → ∀ i, s.calls i = .returned → s.acquired i ≠ none
  ordered : r.blocking = true → ∀ i, s.calls i ≠ .idle → ∀ j < i, s.acquired j ≠ none
  counted : r.blocking = false →
    s.callCnt = tally (Finset.range r.locks.length) (· ≠ Call.returned) s.calls
  rollback : ∀ i, s.unlocks i ≠ .idle → s.opFailed = true
  reported : s.report = some true → ∀ i < r.locks.length, s.acquired i ≠ none

namespace RequestState.Ok

variable {r : Request} {s : RequestState} {i : ℕ}

theorem begun (r : Request) (bricks : Place → InodelkState) : (r.begun bricks).Ok r where
  held i lock addr _ h := by cases h
  inside i h := by
    by_contra hi
    simp [Request.begun, hi] at h
  answered i h := by
    simp only [Request.begun] at h
    split at h <;> cases h
  returned _ i h := by
    simp only [Request.begun] at h
    split at h <;> cases h
  ordered hblocking i h j hj := by
    have hzero : i = 0 := by
      by_contra hne
      simp [Request.begun, hblocking, hne] at h
    omega
  counted hblocking := by
    have hall : ∀ j ∈ Finset.range r.locks.length, (r.begun bricks).calls j ≠ .returned := by
      intro j _ h
      simp only [Request.begun] at h
      split at h <;> cases h
    rw [tally, Finset.filter_true_of_mem hall, Finset.card_range]
    rfl
  rollback i h := by cases h rfl
  reported h := by cases h

/-- A brick takes a step that keeps the locks of the request. -/
theorem brick (h : s.Ok r) {place : Place} {brick : InodelkState}
    (hkeep : ∀ l, l ∈ (s.bricks place).dom.granted → r.Owns l → l ∈ brick.dom.granted) :
    Ok r { s with bricks := Function.update s.bricks place brick } where
  held j lock addr hlock haddr := by
    have hheld := h.held j lock addr hlock haddr
    by_cases hplace : lock.place = place
    · subst hplace
      simp only [Function.update_self]
      exact hkeep _ hheld (owns_newInodeLock r lock addr)
    · simp only [Function.update_of_ne hplace]
      exact hheld
  inside := h.inside
  answered := h.answered
  returned := h.returned
  ordered := h.ordered
  counted := h.counted
  rollback := h.rollback
  reported := h.reported

/-- A brick has granted a lock. -/
theorem acquire (h : s.Ok r) {lock : DhtLock} {addr : ℕ} (hlock : r.locks[i]? = some lock)
    (hgranted : newInodeLock (r.lockFlock lock) addr ∈ (s.bricks lock.place).dom.granted) :
    Ok r { s with acquired := Function.update s.acquired i (some addr) } := by
  have hmono : ∀ j, s.acquired j ≠ none →
      Function.update s.acquired i (some addr) j ≠ none := by
    intro j hj
    by_cases hji : j = i
    · subst hji
      rw [Function.update_self]
      exact Option.some_ne_none _
    · rwa [Function.update_of_ne hji]
  refine ⟨fun j lock' addr' hlock' haddr' => ?_, h.inside, fun j hj => hmono j (h.answered j hj),
    fun hok j hj => hmono j (h.returned hok j hj),
    fun hb j hj k hk => hmono k (h.ordered hb j hj k hk), h.counted, h.rollback,
    fun hr j hj => hmono j (h.reported hr j hj)⟩
  by_cases hji : j = i
  · subst hji
    obtain rfl : lock = lock' := Option.some.inj (hlock.symm.trans hlock')
    simp only [Function.update_self] at haddr'
    cases haddr'
    exact hgranted
  · simp only [Function.update_of_ne hji] at haddr'
    exact h.held j lock' addr' hlock' haddr'

/-- A call goes on, but does not return. -/
theorem call (h : s.Ok r) {c : Call} (hidle : s.calls i ≠ .idle) (hreturned : s.calls i ≠ .returned)
    (hc : c ≠ .returned) (hans : c = .answered true → s.acquired i ≠ none) :
    Ok r { s with calls := Function.update s.calls i c } := by
  have hbefore : ∀ j, Function.update s.calls i c j ≠ .idle → s.calls j ≠ .idle := by
    intro j hj
    by_cases hji : j = i
    · rwa [hji]
    · rwa [Function.update_of_ne hji] at hj
  refine ⟨h.held, fun j hj => h.inside j (hbefore j hj), fun j hj => ?_, fun hok j hj => ?_,
    fun hb j hj => h.ordered hb j (hbefore j hj), fun hb => ?_, h.rollback, h.reported⟩
  · by_cases hji : j = i
    · subst hji
      simp only [Function.update_self] at hj
      exact hans hj
    · simp only [Function.update_of_ne hji] at hj
      exact h.answered j hj
  · by_cases hji : j = i
    · subst hji
      simp only [Function.update_self] at hj
      exact absurd hj hc
    · simp only [Function.update_of_ne hji] at hj
      exact h.returned hok j hj
  · have hmem : i ∈ Finset.range r.locks.length := Finset.mem_range.mpr (h.inside i hidle)
    have hupdate := tally_update (p := (· ≠ Call.returned)) s.calls hmem c
    rw [if_pos hreturned, if_pos hc] at hupdate
    have := h.counted hb
    simp only
    omega

theorem done (h : s.Ok r)
    (hall : s.opFailed = false → ∀ i < r.locks.length, s.acquired i ≠ none) :
    (dhtInodelkDone s).Ok r := by
  refine ⟨h.held, h.inside, h.answered, h.returned, h.ordered, h.counted, h.rollback,
    fun hreport => hall ?_⟩
  simpa [dhtInodelkDone] using hreport

theorem cleanup (h : s.Ok r) (hfailed : s.opFailed = true) : (dhtInodelkCleanup r s).Ok r := by
  unfold dhtInodelkCleanup
  split
  · exact ⟨h.held, h.inside, h.answered, h.returned, h.ordered, h.counted, fun _ _ => hfailed,
      h.reported⟩
  · exact h.done fun hok => absurd (hfailed.symm.trans hok) (by decide)

/-- A callback has been called: the common part of both. -/
theorem back (h : s.Ok r) {ok : Bool} (hans : s.calls i = .answered ok) (locked : ℕ → Bool)
    (callCnt : ℕ) (hcnt : r.blocking = false → callCnt = s.callCnt - 1) :
    Ok r { s with
      calls := Function.update s.calls i .returned
      locked := locked
      opFailed := s.opFailed || !ok
      callCnt := callCnt } := by
  have hidle : s.calls i ≠ .idle := by
    rw [hans]
    nofun
  have hbefore : ∀ j, Function.update s.calls i .returned j ≠ .idle → s.calls j ≠ .idle := by
    intro j hj
    by_cases hji : j = i
    · rwa [hji]
    · rwa [Function.update_of_ne hji] at hj
  refine ⟨h.held, fun j hj => h.inside j (hbefore j hj), fun j hj => ?_, fun hfailed j hj => ?_,
    fun hb j hj => h.ordered hb j (hbefore j hj), fun hb => ?_, fun j hj => ?_, h.reported⟩
  · by_cases hji : j = i
    · subst hji
      simp only [Function.update_self] at hj
      cases hj
    · simp only [Function.update_of_ne hji] at hj
      exact h.answered j hj
  · obtain ⟨hfailed, hok⟩ : s.opFailed = false ∧ ok = true := by simpa using hfailed
    by_cases hji : j = i
    · subst hji
      exact h.answered j (hok ▸ hans)
    · simp only [Function.update_of_ne hji] at hj
      exact h.returned hfailed j hj
  · have hmem : i ∈ Finset.range r.locks.length := Finset.mem_range.mpr (h.inside i hidle)
    have hupdate := tally_update (p := (· ≠ Call.returned)) s.calls hmem .returned
    have hne : s.calls i ≠ .returned := by
      rw [hans]
      nofun
    rw [if_pos hne, if_neg (not_not.mpr rfl)] at hupdate
    have hbefore := h.counted hb
    have hafter := hcnt hb
    simp only
    omega
  · simp [h.rollback j hj]

/-- The next lock is asked for when all before it have been granted. -/
theorem wind (h : s.Ok r) (hb : r.blocking = true) (hi : i < r.locks.length)
    (hupto : ∀ j < i, s.acquired j ≠ none) :
    Ok r { s with calls := Function.update s.calls i .wound } := by
  refine ⟨h.held, fun j hj => ?_, fun j hj => ?_, fun hok j hj => ?_, fun _ j hj => ?_,
    fun hnb => absurd (hb.symm.trans hnb) (by decide), h.rollback, h.reported⟩ <;>
    by_cases hji : j = i
  · exact hji ▸ hi
  · simp only [Function.update_of_ne hji] at hj
    exact h.inside j hj
  · simp only [hji, Function.update_self] at hj
    cases hj
  · simp only [Function.update_of_ne hji] at hj
    exact h.answered j hj
  · simp only [hji, Function.update_self] at hj
    cases hj
  · simp only [Function.update_of_ne hji] at hj
    exact h.returned hok j hj
  · exact hji ▸ hupto
  · simp only [Function.update_of_ne hji] at hj
    exact h.ordered hb j hj

/-- The callback of a lock that was asked for without blocking. -/
theorem nonblockingCbk (h : s.Ok r) (hb : r.blocking = false) {ok : Bool}
    (hans : s.calls i = .answered ok) : (dhtNonblockingInodelkCbk r s i ok).Ok r := by
  have hback := h.back hans (if ok then Function.update s.locked i true else s.locked)
    (s.callCnt - 1) fun _ => rfl
  unfold dhtNonblockingInodelkCbk
  simp only
  split
  · next hlast =>
    split
    · next hfailed => exact hback.cleanup hfailed
    · refine hback.done fun hfailed j hj => hback.returned hfailed j ?_
      -- the last call has returned, and so have all others
      have hzero := (hback.counted hb).symm.trans hlast
      by_contra hne
      exact absurd (tally_pos_of_mem (p := (· ≠ Call.returned)) (Finset.mem_range.mpr hj) hne)
        (by omega)
  · exact hback

/-- The callback of a lock that was asked for with blocking. -/
theorem blockingCbk (h : s.Ok r) (hb : r.blocking = true) {ok : Bool}
    (hans : s.calls i = .answered ok) : (dhtBlockingInodelkCbk r s i ok).Ok r := by
  have hidle : s.calls i ≠ .idle := by
    rw [hans]
    nofun
  have hinside := h.inside i hidle
  have hback := h.back hans (if ok then Function.update s.locked i true else s.locked) s.callCnt
    fun hnb => absurd (hb.symm.trans hnb) (by decide)
  unfold dhtBlockingInodelkCbk
  simp only
  cases ok with
  | false => exact hback.cleanup (by simp)
  | true =>
      -- this lock has been granted, and those before it
      have hupto : ∀ j < i + 1, s.acquired j ≠ none := by
        intro j hj
        rcases Nat.lt_succ_iff_lt_or_eq.mp hj with hj | rfl
        · exact h.ordered hb i hidle j hj
        · exact h.answered j hans
      simp only [if_true]
      split
      · next hlast => exact hback.done fun _ j hj => hupto j (by omega)
      · next hmore => exact hback.wind hb (by omega) hupto

/-- Only the unlocks of the cleanup change. -/
theorem unlocked (h : s.Ok r) {unlocks : ℕ → Call} (locked : ℕ → Bool) (unlockCnt : ℕ)
    (hunlocks : ∀ j, unlocks j ≠ .idle → s.opFailed = true) :
    Ok r { s with unlocks := unlocks, locked := locked, unlockCnt := unlockCnt } :=
  ⟨h.held, h.inside, h.answered, h.returned, h.ordered, h.counted, hunlocks, h.reported⟩

/-- An unlock that is under way moves on. -/
theorem rollback_update (h : s.Ok r) (hidle : s.unlocks i ≠ .idle) (c : Call) :
    ∀ j, Function.update s.unlocks i c j ≠ .idle → s.opFailed = true :=
  fun _ _ => h.rollback i hidle

theorem unlockCbk (h : s.Ok r) {ok : Bool} (hans : s.unlocks i = .answered ok) :
    (dhtUnlockInodelkCbk s i ok).Ok r := by
  have hidle : s.unlocks i ≠ .idle := by
    rw [hans]
    nofun
  have hback := h.unlocked (if ok then Function.update s.locked i false else s.locked)
    (s.unlockCnt - 1) (h.rollback_update hidle .returned)
  unfold dhtUnlockInodelkCbk
  simp only
  split
  · exact hback.done fun hfailed => absurd ((h.rollback i hidle).symm.trans hfailed) (by decide)
  · exact hback

end RequestState.Ok

variable {r : Request} {s s' : RequestState}

theorem requestStep_ok {a : RequestAct} (h : requestStep r s a = some s') (hok : s.Ok r) :
    s'.Ok r := by
  cases a with
  | serve i addr =>
      simp only [requestStep] at h
      split at h
      · next lock hlock hwound =>
        obtain ⟨brick, hbrick, rfl⟩ := Option.map_eq_some_iff.mp h
        have hkeep : ∀ l, l ∈ (s.bricks lock.place).dom.granted → r.Owns l →
            l ∈ brick.dom.granted := fun l hl _ =>
          inodelkStep_keeps hbrick hl (lockFlock_not_releases r lock addr r.blocking l)
        have hidle : s.calls i ≠ .idle := by
          rw [hwound]
          nofun
        have hreturned : s.calls i ≠ .returned := by
          rw [hwound]
          nofun
        have hbricks := hok.brick hkeep
        split
        · next hgranted =>
          have hmem : newInodeLock (r.lockFlock lock) addr ∈ (Function.update s.bricks lock.place
              brick lock.place).dom.granted := by
            rw [Function.update_self, inodelkStep_setlk_dom hbrick]
            exact mem_granted_of_plInodeSetlk lock.typed hgranted
          exact (hbricks.acquire hlock hmem).call hidle hreturned nofun fun _ => by simp
        · refine hbricks.call hidle hreturned ?_ ?_
          · split <;> nofun
          · split <;> nofun
      · cases h
  | lost i =>
      simp only [requestStep] at h
      split at h
      · next hwound =>
        cases h
        refine hok.call ?_ ?_ nofun nofun
        · rw [hwound]
          nofun
        · rw [hwound]
          nofun
      · cases h
  | granted i =>
      simp only [requestStep] at h
      split at h
      · next lock addr hlock hqueued =>
        split at h
        · next hgranted =>
          cases h
          refine (hok.acquire hlock hgranted).call ?_ ?_ nofun fun _ => ?_
          · simp [hqueued]
          · simp [hqueued]
          · simp
        · cases h
      · cases h
  | reply i =>
      simp only [requestStep] at h
      split at h
      · next ok hans =>
        cases h
        split
        · next hb => exact hok.blockingCbk hb hans
        · next hb => exact hok.nonblockingCbk (Bool.eq_false_of_not_eq_true hb) hans
      · cases h
  | unlockServe i addr =>
      simp only [requestStep] at h
      split at h
      · next lock hlock hwound =>
        obtain ⟨brick, hbrick, rfl⟩ := Option.map_eq_some_iff.mp h
        have hkeep : ∀ l, l ∈ (s.bricks lock.place).dom.granted → r.Owns l →
            l ∈ brick.dom.granted := fun l hl howns =>
          inodelkStep_keeps hbrick hl (unlockFlock_not_releases r howns addr false)
        have hidle : s.unlocks i ≠ .idle := by
          rw [hwound]
          nofun
        exact (hok.brick hkeep).unlocked s.locked s.unlockCnt (hok.rollback_update hidle _)
      · cases h
  | unlockLost i =>
      simp only [requestStep] at h
      split at h
      · next hwound =>
        cases h
        have hidle : s.unlocks i ≠ .idle := by
          rw [hwound]
          nofun
        exact hok.unlocked s.locked s.unlockCnt (hok.rollback_update hidle _)
      · cases h
  | unlockReply i =>
      simp only [requestStep] at h
      split at h
      · next ok hans =>
        cases h
        exact hok.unlockCbk hans
      · cases h
  | other place a =>
      simp only [requestStep] at h
      split at h
      · next hforeign =>
        obtain ⟨brick, hbrick, rfl⟩ := Option.map_eq_some_iff.mp h
        exact hok.brick fun l hl howns =>
          inodelkStep_keeps hbrick hl (foreign_not_releases r howns hforeign)
      · cases h

/-! ## What a caller is told -/

/-- A lock of the request is held on its brick. -/
def RequestState.Held (r : Request) (s : RequestState) (i : ℕ) : Prop :=
  ∃ lock addr, r.locks[i]? = some lock ∧ s.acquired i = some addr ∧
    newInodeLock (r.lockFlock lock) addr ∈ (s.bricks lock.place).dom.granted

/-- A request that reports success holds all its locks, and one that reports failure holds
none. -/
def RequestState.Honest (r : Request) (s : RequestState) : Prop :=
  (s.report = some true → ∀ i < r.locks.length, s.Held r i) ∧
    (s.report = some false → ∀ i < r.locks.length, ¬ s.Held r i)

theorem RequestState.Ok.held_iff (h : s.Ok r) {i : ℕ} (hi : i < r.locks.length) :
    s.Held r i ↔ s.acquired i ≠ none := by
  constructor
  · rintro ⟨lock, addr, _, haddr, _⟩ hnone
    rw [hnone] at haddr
    cases haddr
  · intro hne
    obtain ⟨addr, haddr⟩ := Option.ne_none_iff_exists'.mp hne
    have hlock := List.getElem?_eq_getElem hi
    exact ⟨_, addr, hlock, haddr, h.held i _ addr hlock haddr⟩

/-- **In every run, what a request reports is true of the bricks exactly when no brick has
granted a lock to a request that reports failure.** -/
theorem lockRequest_honest_iff (h : (lockRequest r).Reachable s) :
    s.Honest r ↔ (s.report = some false → ∀ i < r.locks.length, s.acquired i = none) := by
  have hok : s.Ok r := by
    refine h.invariant (RequestState.Ok r) ?_ fun s a s' hok hstep => requestStep_ok hstep hok
    rintro s ⟨bricks, rfl⟩
    exact .begun r bricks
  constructor
  · intro hhonest hfailed i hi
    have hnot := hhonest.2 hfailed i hi
    rw [hok.held_iff hi] at hnot
    exact not_not.mp hnot
  · intro hnone
    refine ⟨fun hreport i hi => (hok.held_iff hi).mpr (hok.reported hreport i hi),
      fun hfailed i hi => ?_⟩
    rw [hok.held_iff hi]
    exact not_not.mpr (hnone hfailed i hi)

/-- A write lock in one domain on two subvolumes. -/
def twoLocks (blocking : Bool) : Request where
  locks := [⟨⟨1, 7, 0⟩, .wrlck, by decide⟩, ⟨⟨2, 7, 0⟩, .wrlck, by decide⟩]
  blocking := blocking
  client := 1
  frame := ⟨100, 5⟩
  lockRoot := 200
  unlockRoot := 300
  nonempty := by decide
  distinct := by decide

/-- Bricks without locks. -/
def freeBricks : Place → InodelkState := fun _ => ⟨⟨[], []⟩, 0⟩

/-- Bricks of which the second one has a lock of another client. -/
def takenBricks : Place → InodelkState := fun place =>
  if place = ⟨2, 7, 0⟩ then ⟨⟨[⟨.wrlck, 0, llongMax, 2, 9, 1⟩], []⟩, 0⟩ else ⟨⟨[], []⟩, 0⟩

/-- Both locks are granted, and the request reports success. -/
theorem lockRequest_honest_iff_both : ∃ s, (lockRequest (twoLocks false)).Reachable s ∧
    s.report = some true ∧ s.Honest (twoLocks false) := by
  obtain ⟨s, hrun, hreport⟩ : ∃ s, (lockRequest (twoLocks false)).exec
      ((twoLocks false).begun freeBricks)
      [.serve 0 1, .serve 1 1, .reply 1, .reply 0] = some s ∧ s.report = some true :=
    ⟨_, rfl, rfl⟩
  have h := Machine.Reachable.exec (M := lockRequest (twoLocks false)) (.start ⟨_, rfl⟩) _ hrun
  exact ⟨s, h, hreport, (lockRequest_honest_iff h).mpr fun hfailed => by
    rw [hreport] at hfailed
    cases hfailed⟩

/-- **The second subvolume refuses its lock; the cleanup unlocks the first one with another
owner, the brick finds no such lock, and the request reports failure with the lock still
held.** -/
theorem failed_request_keeps_lock : ∃ s, (lockRequest (twoLocks false)).Reachable s ∧
    s.report = some false ∧
    (s.bricks ⟨1, 7, 0⟩).dom.granted = [⟨.wrlck, 0, llongMax, 1, 100, 1⟩] ∧
    ¬ s.Honest (twoLocks false) := by
  obtain ⟨s, hrun, hreport, hgranted, hacquired⟩ : ∃ s, (lockRequest (twoLocks false)).exec
      ((twoLocks false).begun takenBricks)
      [.serve 0 1, .serve 1 2, .reply 0, .reply 1, .unlockServe 0 3, .unlockReply 0] = some s ∧
      s.report = some false ∧
      (s.bricks ⟨1, 7, 0⟩).dom.granted = [⟨.wrlck, 0, llongMax, 1, 100, 1⟩] ∧
      s.acquired 0 = some 1 :=
    ⟨_, rfl, rfl, rfl, rfl⟩
  have h := Machine.Reachable.exec (M := lockRequest (twoLocks false)) (.start ⟨_, rfl⟩) _ hrun
  refine ⟨s, h, hreport, hgranted, fun hhonest => ?_⟩
  refine hhonest.2 hreport 0 (by decide) ⟨_, 1, rfl, hacquired, ?_⟩
  exact hgranted ▸ List.mem_cons_self

end GlusterFS.Dht
