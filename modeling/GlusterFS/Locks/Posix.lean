import Mathlib
import GlusterFS.Lib.Loop
import GlusterFS.Lib.Machine

/-!
# The posix locks of an inode

`features/locks` keeps the byte-range locks of an inode in one list, `ext_list`: those
that are granted and those that wait (`blocked`), in the order in which they came.  This
module embeds `new_posix_lock`, `locks_overlap`, `same_owner`, `__is_lock_grantable`,
`first_overlap`, `add_locks`, `subtract_locks`, `__insert_and_merge`,
`__grant_blocked_locks`, `pl_send_prelock_unlock`, `pl_setlk`, `delete_locks_of_fd` and
`__delete_locks_of_owner`, and proves that granted locks of different owners are never for
the same byte unless both are read locks.  A request whose last byte overflows is left out:
its lock overlaps no other, and two writers can hold it (`long_requests_granted`).

`__insert_and_merge` calls itself: it takes one lock of the same owner out of the list,
joins it with the new one or cuts it into pieces, and inserts what comes out.  The
recursion is embedded with fuel.  It ends because every round makes the total length of
the ranges smaller: the part that the two locks share is counted once where it was
counted twice (`insertAndMergeFuel_total`).

Mutual exclusion survives the recursion for two reasons: the locks of the other owners
are not touched (`others`), and every piece lies within a lock that was compatible with
them (`Inserted`).
-/

namespace GlusterFS.Locks

/-! ## The locks -/

/-- `F_RDLCK`, `F_WRLCK` and `F_UNLCK`. -/
inductive LockType
  | rdlck
  | wrlck
  | unlck
  deriving DecidableEq, Repr

/-- `posix_lock_t`. -/
structure PosixLock where
  flType : LockType
  flStart : ℤ
  flEnd : ℤ
  blocked : Bool
  client : ℕ
  owner : ℕ
  fdNum : ℕ
  deriving DecidableEq, Repr

/-- `LLONG_MAX`. -/
def llongMax : ℤ := 2 ^ 63 - 1

/-- What a client sends: `struct gf_flock` with the caller's identity. -/
structure Flock where
  lType : LockType
  lStart : ℤ
  lLen : ℤ
  client : ℕ
  owner : ℕ
  fdNum : ℕ
  deriving DecidableEq, Repr

/-- What `pl_lk` and `pl_common_inodelk` admit, of the values of an `off_t`. -/
def Flock.Admitted (flock : Flock) : Prop :=
  0 ≤ flock.lStart ∧ flock.lStart < 2 ^ 63 ∧ 0 ≤ flock.lLen ∧ flock.lLen < 2 ^ 63

/-- The bytes that are asked for. -/
def Flock.bytes (flock : Flock) : Set ℤ :=
  {x | flock.lStart ≤ x ∧ (flock.lLen = 0 ∨ x < flock.lStart + flock.lLen)}

/-- `new_posix_lock`; the sum is one of 64 bits. -/
def newPosixLock (flock : Flock) : PosixLock where
  flType := flock.lType
  flStart := flock.lStart
  flEnd := if flock.lLen = 0 then llongMax else (flock.lStart + flock.lLen - 1).bmod (2 ^ 64)
  blocked := false
  client := flock.client
  owner := flock.owner
  fdNum := flock.fdNum

/-- `locks_overlap`. -/
def locksOverlap (l₁ l₂ : PosixLock) : Bool :=
  decide (l₂.flStart ≤ l₁.flEnd) && decide (l₁.flStart ≤ l₂.flEnd)

/-- `same_owner`. -/
def sameOwner (l₁ l₂ : PosixLock) : Bool :=
  decide (l₁.owner = l₂.owner) && decide (l₁.client = l₂.client)

/-- The condition on which `__is_lock_grantable` refuses `lock` because of `l`. -/
def conflicts (l lock : PosixLock) : Bool :=
  !l.blocked && locksOverlap lock l &&
    (decide (l.flType = .wrlck) || decide (lock.flType = .wrlck)) &&
    decide (lock.flType ≠ .unlck) && !sameOwner l lock

/-- `__is_lock_grantable`. -/
def isLockGrantable (exts : List PosixLock) (lock : PosixLock) : Bool :=
  exts.all fun l => !conflicts l lock

/-- `first_overlap`. -/
def firstOverlap (exts : List PosixLock) (lock : PosixLock) : Option PosixLock :=
  exts.find? fun l => !l.blocked && locksOverlap l lock

/-! ## Inserting a lock -/

/-- `add_locks`, with the fields that the caller copies from one of the two. -/
def addLocks (l₁ l₂ fields : PosixLock) : PosixLock where
  flType := fields.flType
  flStart := min l₁.flStart l₂.flStart
  flEnd := max l₁.flEnd l₂.flEnd
  blocked := false
  client := fields.client
  owner := fields.owner
  fdNum := fields.fdNum

/-- `subtract_locks`: the entries of `v.locks` that are set. -/
def subtractLocks (big small : PosixLock) : List PosixLock :=
  if big.flStart = small.flStart ∧ big.flEnd = small.flEnd then
    [{ big with flType := small.flType }]
  else if small.flStart > big.flStart ∧ small.flEnd < big.flEnd then
    [{ big with flEnd := small.flStart - 1 }, small, { big with flStart := small.flEnd + 1 }]
  else if small.flStart = big.flStart then
    [{ big with flStart := small.flEnd + 1 }, small]
  else if small.flEnd = big.flEnd then
    [{ big with flEnd := small.flStart - 1 }, small]
  else []

/-- How the loop of `__insert_and_merge` ends. -/
inductive Met
  /-- It runs to the end of the list. -/
  | nothing
  /-- A read lock meets a read lock of another owner. -/
  | reader
  /-- A lock of the same owner, and the list without it. -/
  | own (conf : PosixLock) (rest : List PosixLock)
  deriving DecidableEq, Repr

/-- The loop goes past a lock. -/
def Met.past (conf : PosixLock) : Met → Met
  | own conf' rest => own conf' (conf :: rest)
  | met => met

/-- The loop of `__insert_and_merge`. -/
def meet (lock : PosixLock) : List PosixLock → Met
  | [] => .nothing
  | conf :: rest =>
      if conf.blocked then (meet lock rest).past conf
      else if !locksOverlap conf lock then (meet lock rest).past conf
      else if sameOwner conf lock then .own conf rest
      else if lock.flType = .unlck then (meet lock rest).past conf
      else if conf.flType = .rdlck ∧ lock.flType = .rdlck then .reader
      else (meet lock rest).past conf

/-- `__delete_unlck_locks`. -/
def deleteUnlckLocks (exts : List PosixLock) : List PosixLock :=
  exts.filter fun l => decide (l.flType ≠ .unlck)

/-- `__insert_and_merge`, with a bound on its depth. -/
def insertAndMergeFuel : ℕ → List PosixLock → PosixLock → Option (List PosixLock)
  | 0, _, _ => none
  | fuel + 1, exts, lock =>
      match meet lock exts with
      | .reader => some (exts ++ [lock])
      | .nothing => some (if lock.flType ≠ .unlck then exts ++ [lock] else exts)
      | .own conf rest =>
          if conf.flType = lock.flType then
            insertAndMergeFuel fuel rest (addLocks lock conf lock)
          else
            ((subtractLocks (addLocks lock conf conf) lock).foldlM
              (insertAndMergeFuel fuel) rest).map deleteUnlckLocks

/-- The number of bytes of a lock. -/
def PosixLock.length (l : PosixLock) : ℕ := (l.flEnd - l.flStart + 1).toNat

/-- The total length of the locks of a list. -/
def total (exts : List PosixLock) : ℕ := (exts.map PosixLock.length).sum

/-- `__insert_and_merge`. -/
def insertAndMerge (exts : List PosixLock) (lock : PosixLock) : List PosixLock :=
  (insertAndMergeFuel (total exts + lock.length + 1) exts lock).getD exts

/-! ## The operations -/

/-- The second loop of `__grant_blocked_locks`, for one lock of `tmp_list`; the second
component is the list of the locks that are answered. -/
def grantOne (state : List PosixLock × List PosixLock) (l : PosixLock) :
    List PosixLock × List PosixLock :=
  if isLockGrantable state.1 { l with blocked := false } then
    (insertAndMerge state.1 { l with blocked := false }, l :: state.2)
  else (state.1 ++ [{ l with blocked := true }], state.2)

/-- **The locks that the first loop of `__grant_blocked_locks` selects: those that overlap no
granted lock.**  (The loop takes the selected locks out of the list, but `first_overlap`
does not look at blocked ones.) -/
def selected (exts : List PosixLock) (l : PosixLock) : Bool :=
  l.blocked && (firstOverlap exts l).isNone

/-- `__grant_blocked_locks`. -/
def grantBlockedLocks (exts : List PosixLock) : List PosixLock × List PosixLock :=
  (exts.filter (selected exts)).foldl grantOne (exts.filter fun l => !selected exts l, [])

/-- `pl_send_prelock_unlock`. -/
def plSendPrelockUnlock (exts : List PosixLock) (oldLock : PosixLock) : List PosixLock :=
  (grantBlockedLocks
    (insertAndMerge exts { oldLock with flType := .unlck, blocked := false })).1

/-- What `pl_setlk` answers. -/
inductive SetlkAnswer
  | ok
  | blocked
  | again
  deriving DecidableEq, Repr

/-- `pl_setlk` up to the unlock of the mutex. -/
def plSetlk (exts : List PosixLock) (lock : PosixLock) (canBlock : Bool) :
    List PosixLock × SetlkAnswer :=
  let exts := if canBlock && !isLockGrantable exts lock then plSendPrelockUnlock exts lock
    else exts
  if isLockGrantable exts lock then (insertAndMerge exts lock, .ok)
  else if canBlock then (exts ++ [{ lock with blocked := true }], .blocked)
  else (exts, .again)

/-- `delete_locks_of_fd` up to the unlock of the mutex. -/
def deleteLocksOfFd (exts : List PosixLock) (fdNum : ℕ) : List PosixLock :=
  exts.filter fun l => decide (l.fdNum ≠ fdNum)

/-- `__delete_locks_of_owner`. -/
def deleteLocksOfOwner (exts : List PosixLock) (client owner : ℕ) : List PosixLock :=
  exts.filter fun l => l.blocked || !(decide (l.client = client) && decide (l.owner = owner))

/-- The list of an inode, and the operations that have not called `grant_blocked_locks`
yet. -/
structure PosixState where
  exts : List PosixLock
  pending : ℕ
  deriving DecidableEq, Repr

/-- One critical section of an operation. -/
inductive PosixAct
  /-- `F_SETLK` or `F_SETLKW`, to lock or to unlock. -/
  | setlk (flock : Flock) (canBlock : Bool)
  | deleteFd (fdNum : ℕ)
  | deleteOwner (client owner : ℕ)
  /-- `grant_blocked_locks`. -/
  | grant
  deriving DecidableEq, Repr

/-- One step; `pl_lk` refuses negative offsets and lengths. -/
def posixStep (s : PosixState) : PosixAct → Option PosixState
  | .setlk flock canBlock =>
      if 0 ≤ flock.lStart ∧ flock.lStart < 2 ^ 63 ∧ 0 ≤ flock.lLen ∧ flock.lLen < 2 ^ 63 then
        some ⟨(plSetlk s.exts (newPosixLock flock) canBlock).1, s.pending + 1⟩
      else none
  | .deleteFd fdNum => some ⟨deleteLocksOfFd s.exts fdNum, s.pending + 1⟩
  | .deleteOwner client owner => some ⟨deleteLocksOfOwner s.exts client owner, s.pending + 1⟩
  | .grant => some ⟨(grantBlockedLocks s.exts).1, s.pending - 1⟩

/-- The posix locks of an inode. -/
def posixLocks : Machine PosixState PosixAct where
  start s := s = ⟨[], 0⟩
  step := posixStep

/-! ## Ranges -/

/-- The range has no end, or ends within the offsets of an `off_t`. -/
def Flock.InRange (flock : Flock) : Prop := flock.lLen = 0 ∨ flock.lStart + flock.lLen ≤ 2 ^ 63

/-- The range of a lock: it starts at an offset of the file and ends later, unless the end has
overflowed.  An end that has is at least `lo`: with `lo = 0` there is none. -/
def PosixLock.Proper (l : PosixLock) (lo : ℤ) : Prop :=
  0 ≤ l.flStart ∧ l.flEnd < 2 ^ 63 ∧ (l.flStart ≤ l.flEnd ∨ lo ≤ l.flEnd ∧ l.flEnd < 0)

variable {lo : ℤ}

/-- The last byte of a range with an end, before it is cut to 64 bits. -/
theorem flEnd_eq {flock : Flock} (h : flock.Admitted) :
    (newPosixLock flock).flEnd =
      if flock.lLen = 0 then llongMax
      else if flock.lStart + flock.lLen ≤ 2 ^ 63 then flock.lStart + flock.lLen - 1
      else flock.lStart + flock.lLen - 1 - 2 ^ 64 := by
  obtain ⟨hstart, hstart', hlen, hlen'⟩ := h
  simp only [newPosixLock]
  split
  · rfl
  · rw [Int.bmod_def]
    split <;> split <;> omega

theorem newPosixLock_proper {flock : Flock} (h : flock.Admitted)
    (hlo : flock.InRange ∨ lo ≤ -2 ^ 63) : (newPosixLock flock).Proper lo := by
  have hend := flEnd_eq h
  obtain ⟨hstart, hstart', hlen, hlen'⟩ := h
  have hfirst : (newPosixLock flock).flStart = flock.lStart := rfl
  simp only [PosixLock.Proper, hfirst, hend, llongMax, Flock.InRange] at *
  split_ifs <;> omega

theorem locksOverlap_iff {l₁ l₂ : PosixLock} :
    locksOverlap l₁ l₂ = true ↔ l₂.flStart ≤ l₁.flEnd ∧ l₁.flStart ≤ l₂.flEnd := by
  simp [locksOverlap]

theorem locksOverlap_comm (l₁ l₂ : PosixLock) : locksOverlap l₁ l₂ = locksOverlap l₂ l₁ := by
  rw [Bool.eq_iff_iff, locksOverlap_iff, locksOverlap_iff, and_comm]

theorem sameOwner_iff {l₁ l₂ : PosixLock} :
    sameOwner l₁ l₂ = true ↔ l₁.owner = l₂.owner ∧ l₁.client = l₂.client := by
  simp [sameOwner]

theorem conflicts_iff {l lock : PosixLock} :
    conflicts l lock = true ↔ l.blocked = false ∧ locksOverlap lock l = true ∧
      (l.flType = .wrlck ∨ lock.flType = .wrlck) ∧ lock.flType ≠ .unlck ∧
      sameOwner l lock = false := by
  simp [conflicts, and_assoc]

/-- The sum of two locks that overlap covers no byte that neither of them covers. -/
theorem addLocks_overlap {l₁ l₂ fields x : PosixLock} (h₁ : l₁.Proper lo) (h₂ : l₂.Proper lo)
    (hx : x.Proper lo) (h : locksOverlap l₁ l₂ = true)
    (hsum : locksOverlap (addLocks l₁ l₂ fields) x = true) :
    locksOverlap l₁ x = true ∨ locksOverlap l₂ x = true := by
  simp only [locksOverlap_iff, addLocks, PosixLock.Proper] at *
  omega

theorem addLocks_proper {l₁ l₂ fields : PosixLock} (h₁ : l₁.Proper lo) (h₂ : l₂.Proper lo)
    (h : locksOverlap l₁ l₂ = true) : (addLocks l₁ l₂ fields).Proper lo := by
  simp only [locksOverlap_iff, addLocks, PosixLock.Proper] at *
  omega

/-- Two locks that overlap are longer than their sum. -/
theorem addLocks_length {l₁ l₂ fields : PosixLock} (h₁ : l₁.Proper lo) (h₂ : l₂.Proper lo)
    (h : locksOverlap l₁ l₂ = true) :
    (addLocks l₁ l₂ fields).length < l₁.length + l₂.length := by
  simp only [locksOverlap_iff, addLocks, PosixLock.Proper, PosixLock.length] at *
  omega

/-- A piece of what `__insert_and_merge` cuts: a part of the old lock, or the new lock. -/
theorem mem_subtractLocks {lock conf p : PosixLock} (hlock : lock.Proper lo) (hconf : conf.Proper lo)
    (h : locksOverlap conf lock = true) (hsame : sameOwner conf lock = true)
    (hblocked : lock.blocked = false)
    (hp : p ∈ subtractLocks (addLocks lock conf conf) lock) :
    p.Proper lo ∧ p.blocked = false ∧ sameOwner p lock = true ∧
      (p.flType = conf.flType ∧ conf.flStart ≤ p.flStart ∧ p.flEnd ≤ conf.flEnd ∨
        p.flType = lock.flType ∧ p.flStart = lock.flStart ∧ p.flEnd = lock.flEnd) := by
  by_cases heq : p = lock
  · rw [heq]
    exact ⟨hlock, hblocked, sameOwner_iff.mpr ⟨rfl, rfl⟩, .inr ⟨rfl, rfl, rfl⟩⟩
  unfold subtractLocks at hp
  split_ifs at hp
  · rw [List.mem_singleton] at hp
    subst hp
    simp only [locksOverlap_iff, sameOwner_iff, addLocks, PosixLock.Proper] at *
    refine ⟨?_, trivial, hsame, .inr ⟨trivial, ?_⟩⟩ <;> omega
  all_goals simp only [List.mem_cons, List.not_mem_nil, heq, or_false, false_or] at hp
  -- what is left of the old lock, on both sides or on one
  · rcases hp with rfl | rfl <;> refine ⟨?_, rfl, hsame, .inl ⟨rfl, ?_⟩⟩ <;>
      simp only [locksOverlap_iff, addLocks, PosixLock.Proper] at * <;> omega
  all_goals
    subst hp
    refine ⟨?_, rfl, hsame, .inl ⟨rfl, ?_⟩⟩ <;>
      simp only [locksOverlap_iff, addLocks, PosixLock.Proper] at * <;> omega

/-- The pieces are shorter than the two locks that they replace. -/
theorem total_subtractLocks {lock conf : PosixLock} (hlock : lock.Proper lo) (hconf : conf.Proper lo)
    (h : locksOverlap conf lock = true) :
    total (subtractLocks (addLocks lock conf conf) lock) < conf.length + lock.length := by
  unfold subtractLocks
  split_ifs
  all_goals
    simp only [total, locksOverlap_iff, addLocks, PosixLock.Proper, PosixLock.length,
      List.map_cons, List.map_nil, List.sum_cons, List.sum_nil] at *
    omega

/-! ## The loop of `__insert_and_merge` -/

theorem Met.past_eq_own {c conf : PosixLock} {rest : List PosixLock} {met : Met}
    (h : met.past c = .own conf rest) : ∃ rest', met = .own conf rest' ∧ rest = c :: rest' := by
  cases met with
  | nothing | reader => cases h
  | own conf' rest' =>
      cases h
      exact ⟨rest', rfl, rfl⟩

/-- The lock that the loop stops at. -/
theorem meet_own {lock conf : PosixLock} {exts rest : List PosixLock}
    (h : meet lock exts = .own conf rest) :
    conf.blocked = false ∧ locksOverlap conf lock = true ∧ sameOwner conf lock = true ∧
      ∃ before after, exts = before ++ conf :: after ∧ rest = before ++ after := by
  induction exts generalizing rest with
  | nil => cases h
  | cons c exts ih =>
      -- the loop goes past `c`
      have past : (meet lock exts).past c = .own conf rest →
          conf.blocked = false ∧ locksOverlap conf lock = true ∧ sameOwner conf lock = true ∧
            ∃ before after, c :: exts = before ++ conf :: after ∧ rest = before ++ after := by
        intro hpast
        obtain ⟨rest', hmeet, rfl⟩ := Met.past_eq_own hpast
        obtain ⟨hblocked, hoverlap, hsame, before, after, rfl, rfl⟩ := ih hmeet
        exact ⟨hblocked, hoverlap, hsame, c :: before, after, rfl, rfl⟩
      rw [meet] at h
      split at h
      · exact past h
      · next hblocked =>
        split at h
        · exact past h
        · next hoverlap =>
          split at h
          · next hsame =>
            cases h
            refine ⟨Bool.eq_false_of_not_eq_true hblocked, ?_, hsame, [], exts, rfl, rfl⟩
            simpa using hoverlap
          · split at h
            · exact past h
            · split at h
              · cases h
              · exact past h

/-- The list without the lock that is taken out. -/
theorem sublist_middle {conf : PosixLock} {before after : List PosixLock} :
    (before ++ after).Sublist (before ++ conf :: after) :=
  (List.sublist_cons_self ..).append_left before

theorem total_append (exts exts' : List PosixLock) :
    total (exts ++ exts') = total exts + total exts' := by
  simp [total]

theorem total_cons (l : PosixLock) (exts : List PosixLock) :
    total (l :: exts) = l.length + total exts := by
  simp [total]

theorem total_sublist {exts exts' : List PosixLock} (h : exts.Sublist exts') :
    total exts ≤ total exts' :=
  (h.map PosixLock.length).sum_le_sum fun _ _ => Nat.zero_le _

/-- **With fuel for the total length of the ranges the recursion ends.** -/
theorem insertAndMergeFuel_total {fuel : ℕ} {exts : List PosixLock} {lock : PosixLock}
    (hexts : ∀ l ∈ exts, l.Proper lo) (hlock : lock.Proper lo) (hblocked : lock.blocked = false)
    (hfuel : total exts + lock.length < fuel) :
    ∃ exts', insertAndMergeFuel fuel exts lock = some exts' ∧
      total exts' ≤ total exts + lock.length ∧ ∀ l ∈ exts', l.Proper lo := by
  induction fuel generalizing exts lock with
  | zero => omega
  | succ fuel ih =>
      have hadd : ∀ l ∈ exts ++ [lock], l.Proper lo := by
        intro l hl
        rcases List.mem_append.mp hl with hl | hl
        · exact hexts l hl
        · exact List.mem_singleton.mp hl ▸ hlock
      have htotal : total (exts ++ [lock]) = total exts + lock.length := by
        rw [total_append, total_cons]
        simp [total]
      rw [insertAndMergeFuel]
      cases hmeet : meet lock exts with
      | reader => exact ⟨_, rfl, htotal.le, hadd⟩
      | nothing =>
          refine ⟨_, rfl, ?_⟩
          split
          · exact ⟨htotal.le, hadd⟩
          · exact ⟨Nat.le_add_right .., hexts⟩
      | own conf rest =>
          obtain ⟨_, hoverlap, hsame, before, after, rfl, rfl⟩ := meet_own hmeet
          have hconf : conf.Proper lo := hexts conf (by simp)
          have hrest : ∀ l ∈ before ++ after, l.Proper lo := fun l hl =>
            hexts l (sublist_middle.subset hl)
          have hsplit : total (before ++ conf :: after) =
              total (before ++ after) + conf.length := by
            rw [total_append, total_cons, total_append]
            omega
          have hoverlap' : locksOverlap lock conf = true := by rwa [locksOverlap_comm]
          dsimp only
          split
          · have hshort := @addLocks_length lo lock conf lock hlock hconf hoverlap'
            obtain ⟨exts', hrun, hle, hproper⟩ :=
              ih hrest (@addLocks_proper lo lock conf lock hlock hconf hoverlap') rfl (by omega)
            exact ⟨exts', hrun, by omega, hproper⟩
          · -- the pieces are inserted one after the other
            have pieces : ∀ (todo cur : List PosixLock), (∀ l ∈ cur, l.Proper lo) →
                (∀ p ∈ todo, p.Proper lo ∧ p.blocked = false) → total cur + total todo < fuel →
                ∃ exts', todo.foldlM (insertAndMergeFuel fuel) cur = some exts' ∧
                  total exts' ≤ total cur + total todo ∧ ∀ l ∈ exts', l.Proper lo := by
              intro todo
              induction todo with
              | nil => exact fun cur hcur _ _ => ⟨cur, rfl, Nat.le_add_right .., hcur⟩
              | cons p todo ihtodo =>
                  intro cur hcur htodo hlt
                  rw [total_cons] at hlt ⊢
                  obtain ⟨hp, hp'⟩ := htodo p List.mem_cons_self
                  obtain ⟨mid, hmid, hle, hproper⟩ := ih hcur hp hp' (by omega)
                  obtain ⟨exts', hrun, hle', hproper'⟩ := ihtodo mid hproper
                    (fun q hq => htodo q (List.mem_cons_of_mem _ hq)) (by omega)
                  refine ⟨exts', ?_, by omega, hproper'⟩
                  rw [List.foldlM_cons, hmid]
                  exact hrun
            have hshort := total_subtractLocks hlock hconf hoverlap
            obtain ⟨exts', hrun, hle, hproper⟩ := pieces _ _ hrest (fun p hp => by
              obtain ⟨hp₁, hp₂, _⟩ := mem_subtractLocks hlock hconf hoverlap hsame hblocked hp
              exact ⟨hp₁, hp₂⟩) (by omega)
            refine ⟨deleteUnlckLocks exts', by rw [hrun]; rfl, ?_, fun l hl => ?_⟩
            · exact (total_sublist List.filter_sublist).trans (by omega)
            · exact hproper l (List.mem_of_mem_filter hl)

theorem insertAndMerge_eq {exts : List PosixLock} {lock : PosixLock}
    (hexts : ∀ l ∈ exts, l.Proper lo) (hlock : lock.Proper lo) (hblocked : lock.blocked = false) :
    insertAndMergeFuel (total exts + lock.length + 1) exts lock
      = some (insertAndMerge exts lock) := by
  obtain ⟨exts', hrun, _⟩ :=
    insertAndMergeFuel_total hexts hlock hblocked (Nat.lt_succ_self _)
  rw [insertAndMerge, hrun]
  rfl

/-! ## Mutual exclusion -/

theorem isLockGrantable_iff {exts : List PosixLock} {lock : PosixLock} :
    isLockGrantable exts lock = true ↔ ∀ l ∈ exts, conflicts l lock = false := by
  simp [isLockGrantable]

/-- The list is in order: no lock is an unlock, and every granted lock could be granted
again. -/
structure ExtsOk (lo : ℤ) (exts : List PosixLock) : Prop where
  proper : ∀ l ∈ exts, l.Proper lo
  typed : ∀ l ∈ exts, l.flType ≠ .unlck
  apart : ∀ l ∈ exts, l.blocked = false → isLockGrantable exts l = true

theorem ExtsOk.sublist {exts exts' : List PosixLock} (hok : ExtsOk lo exts)
    (h : exts'.Sublist exts) : ExtsOk lo exts' where
  proper l hl := hok.proper l (h.subset hl)
  typed l hl := hok.typed l (h.subset hl)
  apart l hl hb := isLockGrantable_iff.mpr fun x hx =>
    isLockGrantable_iff.mp (hok.apart l (h.subset hl) hb) x (h.subset hx)

/-- The locks that `__insert_and_merge` leaves alone: the blocked ones, and those of other
owners. -/
def others (lock : PosixLock) (exts : List PosixLock) : List PosixLock :=
  exts.filter fun x => x.blocked || !sameOwner x lock

theorem sameOwner_comm (l₁ l₂ : PosixLock) : sameOwner l₁ l₂ = sameOwner l₂ l₁ := by
  simp [sameOwner, eq_comm]

theorem sameOwner_congr {e lock : PosixLock} (h : sameOwner e lock = true) (x : PosixLock) :
    sameOwner x e = sameOwner x lock := by
  rw [sameOwner_iff] at h
  simp [sameOwner, h]

theorem others_congr {e lock : PosixLock} (h : sameOwner e lock = true)
    (exts : List PosixLock) : others e exts = others lock exts := by
  simp only [others, sameOwner_congr h]

/-- Whether a lock is grantable depends on the locks of the other owners only. -/
theorem isLockGrantable_others {e lock : PosixLock} (h : sameOwner e lock = true)
    (exts : List PosixLock) :
    isLockGrantable (others lock exts) e = isLockGrantable exts e := by
  rw [Bool.eq_iff_iff, isLockGrantable_iff, isLockGrantable_iff]
  refine ⟨fun hall x hx => ?_, fun hall x hx => hall x (List.mem_of_mem_filter hx)⟩
  refine Bool.eq_false_of_not_eq_true fun hconf => ?_
  obtain ⟨_, _, _, _, hsame⟩ := conflicts_iff.mp hconf
  rw [hall x (List.mem_filter.mpr ⟨hx, by simp [← sameOwner_congr h x, hsame]⟩)] at hconf
  cases hconf

/-- What the insertion of a lock leaves: the others as they were, and locks of the owner that
do not conflict with them. -/
structure Inserted (lo : ℤ) (lock : PosixLock) (exts exts' : List PosixLock) : Prop where
  proper : ∀ l ∈ exts', l.Proper lo
  typed : ∀ l ∈ exts', l.flType ≠ .unlck
  others : others lock exts' = others lock exts
  own : ∀ e ∈ exts', e.blocked = false → sameOwner e lock = true → isLockGrantable exts e = true

theorem Inserted.ok {lock : PosixLock} {exts exts' : List PosixLock} (h : Inserted lo lock exts exts')
    (hok : ExtsOk lo exts) : ExtsOk lo exts' where
  proper := h.proper
  typed := h.typed
  apart e he hb := by
    cases hsame : sameOwner e lock with
    | true =>
        rw [← isLockGrantable_others hsame, h.others, isLockGrantable_others hsame]
        exact h.own e he hb hsame
    | false =>
        -- a lock of another owner has been there before
        have hmem : e ∈ Locks.others lock exts := by
          rw [← h.others]
          exact List.mem_filter.mpr ⟨he, by simp [hsame]⟩
        have hold := hok.apart e (List.mem_of_mem_filter hmem) hb
        refine isLockGrantable_iff.mpr fun x hx => Bool.eq_false_of_not_eq_true fun hconf => ?_
        obtain ⟨hxb, hoverlap, htype, hunlck, hxe⟩ := conflicts_iff.mp hconf
        cases hxs : sameOwner x lock with
        | false =>
            have hx' : x ∈ Locks.others lock exts := by
              rw [← h.others]
              exact List.mem_filter.mpr ⟨hx, by simp [hxs]⟩
            rw [isLockGrantable_iff.mp hold x (List.mem_of_mem_filter hx')] at hconf
            cases hconf
        | true =>
            -- the conflict is one of the piece with the lock of the other owner
            have hown := isLockGrantable_iff.mp (h.own x hx hxb hxs) e
              (List.mem_of_mem_filter hmem)
            refine Bool.eq_false_iff.mp hown (conflicts_iff.mpr ⟨hb, ?_, htype.symm,
              h.typed x hx, by rw [sameOwner_comm]; exact hxe⟩)
            rwa [locksOverlap_comm]

/-- The owner of the lock is all that matters. -/
theorem Inserted.congr {lock p : PosixLock} {exts exts' : List PosixLock}
    (h : Inserted lo p exts exts') (hp : sameOwner p lock = true) : Inserted lo lock exts exts' where
  proper := h.proper
  typed := h.typed
  others := by rw [← others_congr hp, h.others, others_congr hp]
  own e he hb hsame := h.own e he hb (by rw [sameOwner_congr hp]; exact hsame)

theorem Inserted.trans {lock : PosixLock} {exts mid exts' : List PosixLock}
    (h : Inserted lo lock exts mid) (h' : Inserted lo lock mid exts') : Inserted lo lock exts exts' where
  proper := h'.proper
  typed := h'.typed
  others := h'.others.trans h.others
  own e he hb hsame := by
    rw [← isLockGrantable_others hsame, ← h.others, isLockGrantable_others hsame]
    exact h'.own e he hb hsame

/-- Locks of the owner may be taken out. -/
theorem Inserted.sublist {lock : PosixLock} {exts exts' : List PosixLock} (hok : ExtsOk lo exts)
    (h : exts'.Sublist exts) (hothers : Locks.others lock exts' = Locks.others lock exts) :
    Inserted lo lock exts exts' where
  proper l hl := hok.proper l (h.subset hl)
  typed l hl := hok.typed l (h.subset hl)
  others := hothers
  own e he hb _ := hok.apart e (h.subset he) hb

/-- A lock that is grantable may be added. -/
theorem Inserted.append {lock : PosixLock} {exts : List PosixLock} (hok : ExtsOk lo exts)
    (hlock : lock.Proper lo) (htype : lock.flType ≠ .unlck) (hblocked : lock.blocked = false)
    (hgrant : isLockGrantable exts lock = true) : Inserted lo lock exts (exts ++ [lock]) where
  proper l hl := by
    rcases List.mem_append.mp hl with hl | hl
    · exact hok.proper l hl
    · exact List.mem_singleton.mp hl ▸ hlock
  typed l hl := by
    rcases List.mem_append.mp hl with hl | hl
    · exact hok.typed l hl
    · exact List.mem_singleton.mp hl ▸ htype
  others := by
    have hself : sameOwner lock lock = true := sameOwner_iff.mpr ⟨rfl, rfl⟩
    simp [Locks.others, hself, hblocked]
  own e he hb _ := by
    rcases List.mem_append.mp he with he | he
    · exact hok.apart e he hb
    · exact List.mem_singleton.mp he ▸ hgrant

theorem Met.past_eq_reader {c : PosixLock} {met : Met} (h : met.past c = .reader) :
    met = .reader := by
  cases met with
  | nothing | own => cases h
  | reader => rfl

theorem meet_reader {lock : PosixLock} {exts : List PosixLock} (h : meet lock exts = .reader) :
    lock.flType = .rdlck := by
  induction exts with
  | nil => cases h
  | cons c exts ih =>
      rw [meet] at h
      split at h
      · exact ih (Met.past_eq_reader h)
      · split at h
        · exact ih (Met.past_eq_reader h)
        · split at h
          · cases h
          · split at h
            · exact ih (Met.past_eq_reader h)
            · split at h
              · next hread => exact hread.2
              · exact ih (Met.past_eq_reader h)

/-- A lock within a granted one, or within a grantable one, is grantable. -/
theorem isLockGrantable_of_within {exts : List PosixLock} {big p : PosixLock}
    (hbig : isLockGrantable exts big = true) (htype : p.flType = big.flType)
    (hstart : big.flStart ≤ p.flStart) (hend : p.flEnd ≤ big.flEnd) (hsame : sameOwner p big = true) :
    isLockGrantable exts p = true := by
  refine isLockGrantable_iff.mpr fun x hx => Bool.eq_false_of_not_eq_true fun hconf => ?_
  obtain ⟨hxb, hoverlap, hwrite, hun, hown⟩ := conflicts_iff.mp hconf
  refine Bool.eq_false_iff.mp (isLockGrantable_iff.mp hbig x hx) (conflicts_iff.mpr
    ⟨hxb, ?_, htype ▸ hwrite, htype ▸ hun, by rw [← sameOwner_congr hsame]; exact hown⟩)
  rw [locksOverlap_iff] at hoverlap ⊢
  omega

/-- The sum of two locks of one type that are grantable is grantable. -/
theorem isLockGrantable_addLocks {exts : List PosixLock} {lock conf : PosixLock}
    (hexts : ∀ l ∈ exts, l.Proper lo) (hlock : lock.Proper lo) (hconf : conf.Proper lo)
    (hoverlap : locksOverlap lock conf = true) (htype : conf.flType = lock.flType)
    (hsame : sameOwner conf lock = true) (hgrant : isLockGrantable exts lock = true)
    (hgrant' : isLockGrantable exts conf = true) :
    isLockGrantable exts (addLocks lock conf lock) = true := by
  refine isLockGrantable_iff.mpr fun x hx => Bool.eq_false_of_not_eq_true fun hc => ?_
  obtain ⟨hxb, hox, hwrite, hun, hown⟩ := conflicts_iff.mp hc
  have hown' : sameOwner x lock = false := hown
  rcases addLocks_overlap hlock hconf (hexts x hx) hoverlap hox with h | h
  · exact Bool.eq_false_iff.mp (isLockGrantable_iff.mp hgrant x hx)
      (conflicts_iff.mpr ⟨hxb, h, hwrite, hun, hown'⟩)
  · exact Bool.eq_false_iff.mp (isLockGrantable_iff.mp hgrant' x hx)
      (conflicts_iff.mpr ⟨hxb, h, htype ▸ hwrite, htype ▸ hun,
        by rw [sameOwner_congr hsame]; exact hown'⟩)

/-- **The insertion of a grantable lock, with all its merging and splitting, leaves the other
owners alone and creates no conflict with them.** -/
theorem insertAndMergeFuel_inserted {fuel : ℕ} {exts exts' : List PosixLock} {lock : PosixLock}
    (hok : ExtsOk lo exts) (hlock : lock.Proper lo) (hblocked : lock.blocked = false)
    (hgrant : isLockGrantable exts lock = true)
    (hrun : insertAndMergeFuel fuel exts lock = some exts') : Inserted lo lock exts exts' := by
  induction fuel generalizing exts exts' lock with
  | zero => cases hrun
  | succ fuel ih =>
      rw [insertAndMergeFuel] at hrun
      cases hmeet : meet lock exts with
      | reader =>
          rw [hmeet] at hrun
          cases hrun
          exact .append hok hlock (by rw [meet_reader hmeet]; nofun) hblocked hgrant
      | nothing =>
          rw [hmeet] at hrun
          cases hrun
          split
          · next htype => exact .append hok hlock htype hblocked hgrant
          · exact .sublist hok (.refl _) rfl
      | own conf rest =>
          rw [hmeet] at hrun
          obtain ⟨hconfb, hoverlap, hsame, before, after, rfl, rfl⟩ := meet_own hmeet
          have hmem : conf ∈ before ++ conf :: after := by simp
          have hconf := hok.proper conf hmem
          -- the lock that is taken out is one of the owner
          have hout : Inserted lo lock (before ++ conf :: after) (before ++ after) :=
            .sublist hok sublist_middle (by simp [others, hsame, hconfb])
          have hrest := hout.ok hok
          have down : ∀ {l : PosixLock}, isLockGrantable (before ++ conf :: after) l = true →
              isLockGrantable (before ++ after) l = true := fun h =>
            isLockGrantable_iff.mpr fun x hx => isLockGrantable_iff.mp h x (sublist_middle.subset hx)
          have hgrant' := down hgrant
          have hconf' := down (hok.apart conf hmem hconfb)
          dsimp only at hrun
          split at hrun
          · next htype =>
            have hoverlap' : locksOverlap lock conf = true := by rwa [locksOverlap_comm]
            have hsum := ih hrest (@addLocks_proper lo lock conf lock hlock hconf hoverlap') rfl
              (isLockGrantable_addLocks hrest.proper hlock hconf hoverlap' htype hsame hgrant'
                hconf') hrun
            exact hout.trans (hsum.congr (sameOwner_iff.mpr ⟨rfl, rfl⟩))
          · obtain ⟨all, hfold, rfl⟩ := Option.map_eq_some_iff.mp hrun
            -- the pieces are inserted one after the other
            have hall : Inserted lo lock (before ++ after) all := by
              refine Loop.foldlM_invariant (Inserted lo lock (before ++ after))
                (.sublist hrest (.refl _) rfl) (fun p hp cur cur' hcur hstep => ?_) hfold
              obtain ⟨hproper, hpb, hps, hpart⟩ :=
                mem_subtractLocks hlock hconf hoverlap hsame hblocked hp
              have hpg : isLockGrantable (before ++ after) p = true := by
                rcases hpart with ⟨htype, hstart, hend⟩ | ⟨htype, hstart, hend⟩
                · exact isLockGrantable_of_within hconf' htype hstart hend (by
                    rw [sameOwner_comm, sameOwner_congr hps]
                    exact hsame)
                · exact isLockGrantable_of_within hgrant' htype hstart.ge hend.le hps
              rw [← isLockGrantable_others hps, ← hcur.others, isLockGrantable_others hps] at hpg
              exact hcur.trans ((ih (hcur.ok hrest) hproper hpb hpg hstep).congr hps)
            have hfilter : deleteUnlckLocks all = all :=
              List.filter_eq_self.mpr fun l hl => by simp [hall.typed l hl]
            rw [hfilter]
            exact hout.trans hall

theorem insertAndMerge_inserted {exts : List PosixLock} {lock : PosixLock} (hok : ExtsOk lo exts)
    (hlock : lock.Proper lo) (hblocked : lock.blocked = false)
    (hgrant : isLockGrantable exts lock = true) :
    Inserted lo lock exts (insertAndMerge exts lock) :=
  insertAndMergeFuel_inserted hok hlock hblocked hgrant
    (insertAndMerge_eq hok.proper hlock hblocked)

/-- A lock that waits is added at the end. -/
theorem ExtsOk.appendBlocked {exts : List PosixLock} {lock : PosixLock} (hok : ExtsOk lo exts)
    (hlock : lock.Proper lo) (htype : lock.flType ≠ .unlck) :
    ExtsOk lo (exts ++ [{ lock with blocked := true }]) where
  proper l hl := by
    rcases List.mem_append.mp hl with hl | hl
    · exact hok.proper l hl
    · rw [List.mem_singleton.mp hl]
      exact hlock
  typed l hl := by
    rcases List.mem_append.mp hl with hl | hl
    · exact hok.typed l hl
    · rw [List.mem_singleton.mp hl]
      exact htype
  apart l hl hb := by
    rcases List.mem_append.mp hl with hl | hl
    · refine isLockGrantable_iff.mpr fun x hx => ?_
      rcases List.mem_append.mp hx with hx | hx
      · exact isLockGrantable_iff.mp (hok.apart l hl hb) x hx
      · rw [List.mem_singleton.mp hx]
        simp [conflicts]
    · rw [List.mem_singleton.mp hl] at hb
      cases hb

/-! ## The operations keep the list in order -/

theorem grantOne_ok {state : List PosixLock × List PosixLock} {l : PosixLock}
    (hok : ExtsOk lo state.1) (hl : l.Proper lo) (htype : l.flType ≠ .unlck) :
    ExtsOk lo (grantOne state l).1 := by
  unfold grantOne
  split
  · next hgrant =>
    exact (@insertAndMerge_inserted lo _ { l with blocked := false } hok hl rfl hgrant).ok hok
  · exact hok.appendBlocked hl htype

/-- **Granting several blocked locks in one pass keeps the list in order.** -/
theorem grantBlockedLocks_ok {exts : List PosixLock} (hok : ExtsOk lo exts) :
    ExtsOk lo (grantBlockedLocks exts).1 := by
  have loop : ∀ (todo : List PosixLock) (state : List PosixLock × List PosixLock),
      (∀ l ∈ todo, l ∈ exts) → ExtsOk lo state.1 → ExtsOk lo (todo.foldl grantOne state).1 := by
    intro todo
    induction todo with
    | nil => exact fun _ _ hstate => hstate
    | cons l todo ih =>
        intro state htodo hstate
        have hl := htodo l List.mem_cons_self
        exact ih _ (fun x hx => htodo x (List.mem_cons_of_mem _ hx))
          (grantOne_ok hstate (hok.proper l hl) (hok.typed l hl))
  exact loop _ _ (fun l hl => List.mem_of_mem_filter hl) (hok.sublist List.filter_sublist)

theorem isLockGrantable_unlck {exts : List PosixLock} {lock : PosixLock}
    (h : lock.flType = .unlck) : isLockGrantable exts lock = true :=
  isLockGrantable_iff.mpr fun x _ => by simp [conflicts, h]

theorem plSendPrelockUnlock_ok {exts : List PosixLock} {lock : PosixLock} (hok : ExtsOk lo exts)
    (hlock : lock.Proper lo) : ExtsOk lo (plSendPrelockUnlock exts lock) := by
  refine grantBlockedLocks_ok ((insertAndMerge_inserted hok ?_ rfl ?_).ok hok)
  · exact hlock
  · exact isLockGrantable_unlck rfl

theorem plSetlk_ok {exts : List PosixLock} {lock : PosixLock} {canBlock : Bool}
    (hok : ExtsOk lo exts) (hlock : lock.Proper lo) (hblocked : lock.blocked = false) :
    ExtsOk lo (plSetlk exts lock canBlock).1 := by
  have hprelock : ExtsOk lo (if canBlock && !isLockGrantable exts lock then
      plSendPrelockUnlock exts lock else exts) := by
    split
    · exact plSendPrelockUnlock_ok hok hlock
    · exact hok
  unfold plSetlk
  dsimp only
  generalize (if (canBlock && !isLockGrantable exts lock) = true then
    plSendPrelockUnlock exts lock else exts) = mid at hprelock ⊢
  split
  · next hgrant => exact (insertAndMerge_inserted hprelock hlock hblocked hgrant).ok hprelock
  · next hgrant =>
    split
    · exact hprelock.appendBlocked hlock fun h => hgrant (isLockGrantable_unlck h)
    · exact hprelock

/-- The range of a request does not overflow. -/
def PosixAct.InRange : PosixAct → Prop
  | .setlk flock _ => flock.InRange
  | _ => True

instance (a : PosixAct) : Decidable a.InRange :=
  match a with
  | .setlk flock _ => inferInstanceAs (Decidable (flock.lLen = 0 ∨ _))
  | .deleteFd _ | .deleteOwner .. | .grant => isTrue trivial

theorem posixStep_ok {s s' : PosixState} {a : PosixAct} (h : posixStep s a = some s')
    (hlo : a.InRange ∨ lo ≤ -2 ^ 63) (hok : ExtsOk lo s.exts) : ExtsOk lo s'.exts := by
  cases a with
  | setlk flock canBlock =>
      simp only [posixStep] at h
      split at h
      · next hrange =>
        cases h
        exact plSetlk_ok hok (newPosixLock_proper hrange hlo) rfl
      · cases h
  | deleteFd fdNum =>
      cases h
      exact hok.sublist List.filter_sublist
  | deleteOwner client owner =>
      cases h
      exact hok.sublist List.filter_sublist
  | grant =>
      cases h
      exact grantBlockedLocks_ok hok

theorem ExtsOk.nil : ExtsOk lo [] := ⟨nofun, nofun, nofun⟩

/-! ## The bytes of the locks -/

/-- **The bytes of a file that a kept range is for.**  A last byte before the first one has
overflowed: everything from the first one on was asked for. -/
def rangeBytes (flStart flEnd : ℤ) : Set ℤ :=
  {x | flStart ≤ x ∧ x < 2 ^ 63 ∧ (flEnd < flStart ∨ x ≤ flEnd)}

def PosixLock.bytes (l : PosixLock) : Set ℤ := rangeBytes l.flStart l.flEnd

theorem bytes_newPosixLock {flock : Flock} (h : flock.Admitted) :
    (newPosixLock flock).bytes = flock.bytes ∩ Set.Iio (2 ^ 63) := by
  have hend := flEnd_eq h
  obtain ⟨hstart, hstart', hlen, hlen'⟩ := h
  have hfirst : (newPosixLock flock).flStart = flock.lStart := rfl
  ext x
  simp only [PosixLock.bytes, rangeBytes, Flock.bytes, Set.mem_inter_iff, Set.mem_Iio,
    Set.mem_ofPred_eq, hfirst, hend, llongMax]
  split_ifs <;> omega

/-- Ranges that are for a byte in common overlap, if their ends have not overflowed. -/
theorem overlap_of_rangeBytes {a b c d : ℤ} (hab : a ≤ b) (hcd : c ≤ d)
    (h : (rangeBytes a b ∩ rangeBytes c d).Nonempty) : c ≤ b ∧ a ≤ d := by
  obtain ⟨x, ⟨hx₁, -, hend₁⟩, hx₂, -, hend₂⟩ := h
  omega

theorem PosixLock.Proper.ordered {l : PosixLock} (h : l.Proper 0) : l.flStart ≤ l.flEnd := by
  obtain ⟨-, -, h⟩ := h
  omega

/-- Granted locks of different owners that overlap are read locks. -/
theorem ExtsOk.readers {exts : List PosixLock} (hok : ExtsOk lo exts) {l₁ l₂ : PosixLock}
    (h₁ : l₁ ∈ exts) (h₂ : l₂ ∈ exts) (hgranted₁ : l₁.blocked = false)
    (hgranted₂ : l₂.blocked = false) (howner : sameOwner l₁ l₂ = false)
    (hoverlap : locksOverlap l₁ l₂ = true) : l₁.flType = .rdlck ∧ l₂.flType = .rdlck := by
  have hnot := isLockGrantable_iff.mp (hok.apart l₁ h₁ hgranted₁) l₂ h₂
  have ht₁ := hok.typed l₁ h₁
  have ht₂ := hok.typed l₂ h₂
  rw [sameOwner_comm] at howner
  cases htype₁ : l₁.flType <;> cases htype₂ : l₂.flType <;>
    simp_all [conflicts]

/-- **In every run of the posix locks of an inode whose requests do not overflow, two granted locks
of different owners that are for a byte in common are both read locks.**  The bytes of a lock are
those that were asked for. -/
theorem posix_mutual_exclusion {s : PosixState}
    (h : posixLocks.ReachableWhen (fun _ a => a.InRange) s) :
    (∀ l₁ ∈ s.exts, ∀ l₂ ∈ s.exts, l₁.blocked = false → l₂.blocked = false →
      sameOwner l₁ l₂ = false → (l₁.bytes ∩ l₂.bytes).Nonempty →
      l₁.flType = .rdlck ∧ l₂.flType = .rdlck) ∧
    ∀ flock : Flock, flock.Admitted →
      (newPosixLock flock).bytes = flock.bytes ∩ Set.Iio (2 ^ 63) := by
  have hok : ExtsOk 0 s.exts := by
    refine h.invariant (fun s => ExtsOk 0 s.exts) ?_
      fun s a s' hok hrange hstep => posixStep_ok hstep (.inl hrange) hok
    rintro s rfl
    exact ExtsOk.nil
  refine ⟨fun l₁ h₁ l₂ h₂ hgranted₁ hgranted₂ howner hbytes => ?_, fun _ => bytes_newPosixLock⟩
  exact hok.readers h₁ h₂ hgranted₁ hgranted₂ howner (locksOverlap_iff.mpr
    (overlap_of_rangeBytes (hok.proper l₁ h₁).ordered (hok.proper l₂ h₂).ordered hbytes))

/-- Two owners read overlapping ranges, a third one waits to write, and the first one unlocks
two bytes in the middle of its range. -/
def readersRun : List PosixAct :=
  [.setlk ⟨.rdlck, 0, 10, 1, 1, 1⟩ false, .grant, .setlk ⟨.rdlck, 5, 10, 2, 1, 2⟩ false, .grant,
    .setlk ⟨.wrlck, 8, 1, 3, 1, 3⟩ true, .grant, .setlk ⟨.unlck, 2, 2, 1, 1, 1⟩ false, .grant]

theorem posix_mutual_exclusion_readers :
    ∃ s l₁ l₂, posixLocks.ReachableWhen (fun _ a => a.InRange) s ∧ l₁ ∈ s.exts ∧ l₂ ∈ s.exts ∧
      sameOwner l₁ l₂ = false ∧ 7 ∈ l₁.bytes ∩ l₂.bytes ∧ s.exts.length = 4 ∧
      l₁.flType = .rdlck ∧ l₂.flType = .rdlck := by
  obtain ⟨s, hrun, h₁, h₂, hlength⟩ :
      ∃ s, posixLocks.execWhen (fun _ a => a.InRange) ⟨[], 0⟩ readersRun = some s ∧
        ⟨.rdlck, 4, 9, false, 1, 1, 1⟩ ∈ s.exts ∧
        ⟨.rdlck, 5, 14, false, 2, 1, 2⟩ ∈ s.exts ∧ s.exts.length = 4 :=
    ⟨_, rfl, by decide, by decide, by decide⟩
  have h := Machine.ReachableWhen.execWhen (.start rfl) readersRun hrun
  have hseven : (7 : ℤ) ∈ PosixLock.bytes ⟨.rdlck, 4, 9, false, 1, 1, 1⟩ ∩
      PosixLock.bytes ⟨.rdlck, 5, 14, false, 2, 1, 2⟩ := by
    norm_num [PosixLock.bytes, rangeBytes]
  exact ⟨s, _, _, h, h₁, h₂, rfl, hseven, hlength,
    (posix_mutual_exclusion h).1 _ h₁ _ h₂ rfl rfl rfl ⟨7, hseven⟩⟩

/-- The client asks to write nearly everything from byte 100 on. -/
def longRequest (client : ℕ) : Flock := ⟨.wrlck, 100, 2 ^ 63 - 1, client, 1, client⟩

theorem mem_bytes_longRequest (client : ℕ) : 200 ∈ (longRequest client).bytes := by
  norm_num [Flock.bytes, longRequest]

theorem mem_bytes_longLock (client : ℕ) : 200 ∈ (newPosixLock (longRequest client)).bytes := by
  rw [bytes_newPosixLock (by norm_num [Flock.Admitted, longRequest])]
  exact ⟨mem_bytes_longRequest client, by norm_num⟩

/-- **Two writers on the same bytes.**  The last byte of the request overflows, and its lock
overlaps no other. -/
theorem long_requests_granted : ∃ s, posixLocks.Reachable s ∧
    s.exts = [newPosixLock (longRequest 1), newPosixLock (longRequest 2)] ∧
    sameOwner (newPosixLock (longRequest 1)) (newPosixLock (longRequest 2)) = false ∧
    200 ∈ (longRequest 1).bytes ∩ (longRequest 2).bytes ∧
    200 ∈ (newPosixLock (longRequest 1)).bytes ∩ (newPosixLock (longRequest 2)).bytes := by
  obtain ⟨s, hrun, hexts⟩ :
      ∃ s, posixLocks.exec ⟨[], 0⟩
          [.setlk (longRequest 1) false, .grant, .setlk (longRequest 2) false, .grant] = some s ∧
        s.exts = [newPosixLock (longRequest 1), newPosixLock (longRequest 2)] :=
    ⟨_, rfl, by decide⟩
  exact ⟨s, Machine.Reachable.exec (.start rfl) _ hrun, hexts, by decide,
    ⟨mem_bytes_longRequest 1, mem_bytes_longRequest 2⟩, mem_bytes_longLock 1, mem_bytes_longLock 2⟩

end GlusterFS.Locks
