import Mathlib

/-!
# Locks with a queue

A lock manager keeps the locks that are granted and, in the order in which they came,
those that wait.  What a conflict is, is left open (`Rules`): between a new lock and a
granted one, between a new lock and one that waits, and which locks have the same owner.

A new lock waits when it conflicts with a granted lock; it also waits when it conflicts
with a lock that waits already, so that the latter is not starved, unless its owner has
a lock or waits for one (`tryLock`).  When a lock has gone, all waiting locks are tried
again in their order (`regrant`).

Two properties follow for any rules.  No two granted locks conflict (`Exclusive`), and
after `regrant` every lock that still waits is held up by a granted lock or by one that
waits before it (`Justified`).
-/

universe u

namespace LockQueue

variable {L : Type u}

/-- What the locks have to do with each other. -/
structure Rules (L : Type u) where
  /-- A new lock against a granted one. -/
  conflict : L → L → Bool
  /-- A new lock against one that waits. -/
  queueConflict : L → L → Bool
  sameOwner : L → L → Bool

/-- The granted locks, the latest one first, and the queue. -/
structure Queue (L : Type u) where
  granted : List L
  blocked : List L
  deriving DecidableEq, Repr

/-- What has become of a lock. -/
inductive Outcome
  | granted
  | blocked
  | refused
  deriving DecidableEq, Repr

variable (R : Rules L)

/-- The owner has a lock or waits for one. -/
def ownerHasLock (q : Queue L) (lock : L) : Bool :=
  q.granted.any (fun l => R.sameOwner l lock) || q.blocked.any fun l => R.sameOwner l lock

/-- The lock waits, if it may. -/
def hold (q : Queue L) (lock : L) (canBlock : Bool) : Queue L × Outcome :=
  if canBlock then ({ q with blocked := q.blocked ++ [lock] }, .blocked) else (q, .refused)

/-- Grant a lock or let it wait. -/
def tryLock (q : Queue L) (lock : L) (canBlock : Bool) : Queue L × Outcome :=
  if q.granted.any (R.conflict lock) then hold q lock canBlock
  else if q.blocked.any (R.queueConflict lock) && !ownerHasLock R q lock then
    hold q lock canBlock
  else ({ q with granted := lock :: q.granted }, .granted)

/-- Try one lock of the old queue again; the second component is what has been granted. -/
def retry (state : Queue L × List L) (lock : L) : Queue L × List L :=
  let result := tryLock R state.1 lock true
  (result.1, if result.2 = .granted then lock :: state.2 else state.2)

/-- Try all waiting locks again. -/
def regrant (q : Queue L) : Queue L × List L :=
  q.blocked.foldl (retry R) ({ q with blocked := [] }, [])

/-- Take a lock out, of the granted ones if it is there and of the queue otherwise. -/
def discard (mine : L → Bool) (q : Queue L) : Queue L :=
  if q.granted.any mine then { q with granted := q.granted.filter fun l => !mine l }
  else { q with blocked := q.blocked.filter fun l => !mine l }

variable {R} {q : Queue L} {lock : L} {canBlock : Bool}

/-- What can happen to a lock. -/
inductive Tried (R : Rules L) (q : Queue L) (lock : L) (canBlock : Bool) :
    Queue L × Outcome → Prop
  | granted (hfree : ∀ g ∈ q.granted, R.conflict lock g = false) :
      Tried R q lock canBlock ({ q with granted := lock :: q.granted }, .granted)
  | blocked (hblock : canBlock = true)
      (hheld : (∃ g ∈ q.granted, R.conflict lock g = true) ∨
        ∃ b ∈ q.blocked, R.queueConflict lock b = true) :
      Tried R q lock canBlock ({ q with blocked := q.blocked ++ [lock] }, .blocked)
  | refused (hblock : canBlock = false) : Tried R q lock canBlock (q, .refused)

theorem tryLock_tried (R : Rules L) (q : Queue L) (lock : L) (canBlock : Bool) :
    Tried R q lock canBlock (tryLock R q lock canBlock) := by
  -- a lock that is held up waits or is refused
  have held : ((∃ g ∈ q.granted, R.conflict lock g = true) ∨
      ∃ b ∈ q.blocked, R.queueConflict lock b = true) →
      Tried R q lock canBlock (hold q lock canBlock) := by
    intro hheld
    unfold hold
    cases canBlock with
    | true => exact .blocked rfl hheld
    | false => exact .refused rfl
  unfold tryLock
  split
  · next hconflict => exact held (.inl (List.any_eq_true.mp hconflict))
  · next hconflict =>
    split
    · next hqueue =>
      exact held (.inr (List.any_eq_true.mp (Bool.and_eq_true_iff.mp hqueue).1))
    · refine .granted fun g hg => Bool.eq_false_of_not_eq_true fun h => ?_
      exact hconflict (List.any_eq_true.mpr ⟨g, hg, h⟩)

/-! ## Granted locks do not conflict -/

/-- No granted lock conflicts with one that was granted before it. -/
def Exclusive (R : Rules L) (q : Queue L) : Prop :=
  q.granted.Pairwise fun new old => R.conflict new old = false

theorem Exclusive.tryLock (h : Exclusive R q) (lock : L) (canBlock : Bool) :
    Exclusive R (LockQueue.tryLock R q lock canBlock).1 := by
  have htried := tryLock_tried R q lock canBlock
  generalize LockQueue.tryLock R q lock canBlock = result at htried ⊢
  cases htried with
  | granted hfree => exact List.pairwise_cons.mpr ⟨hfree, h⟩
  | blocked | refused => exact h

theorem Exclusive.sublist {q' : Queue L} (h : Exclusive R q)
    (hsub : q'.granted.Sublist q.granted) : Exclusive R q' :=
  List.Pairwise.sublist hsub h

theorem discard_granted_sublist (mine : L → Bool) (q : Queue L) :
    (discard mine q).granted.Sublist q.granted := by
  unfold discard
  split
  · exact List.filter_sublist
  · exact List.Sublist.refl _

/-- Rule for `regrant`: a property of the queue that every attempt keeps. -/
theorem regrant_induction {P : Queue L → Prop} (hstart : P { q with blocked := [] })
    (hstep : ∀ q' lock, lock ∈ q.blocked → P q' → P (tryLock R q' lock true).1) :
    P (regrant R q).1 := by
  have loop : ∀ (todo : List L) (state : Queue L × List L), (∀ l ∈ todo, l ∈ q.blocked) →
      P state.1 → P (todo.foldl (retry R) state).1 := by
    intro todo
    induction todo with
    | nil => exact fun _ _ h => h
    | cons l todo ih =>
        intro state htodo h
        exact ih _ (fun x hx => htodo x (List.mem_cons_of_mem _ hx))
          (hstep _ l (htodo l List.mem_cons_self) h)
  exact loop _ _ (fun _ h => h) hstart

theorem Exclusive.regrant (h : Exclusive R q) : Exclusive R (LockQueue.regrant R q).1 :=
  regrant_induction (P := Exclusive R) h fun _ lock _ h => h.tryLock lock true

/-! ## Waiting locks are held up -/

/-- Every lock that waits is held up by a granted lock or by one that waits before it. -/
def Justified (R : Rules L) (q : Queue L) : Prop :=
  ∀ before lock after, q.blocked = before ++ lock :: after →
    (∃ g ∈ q.granted, R.conflict lock g = true) ∨
      ∃ b ∈ before, R.queueConflict lock b = true

theorem Justified.tryLock (h : Justified R q) (lock : L) (canBlock : Bool) :
    Justified R (LockQueue.tryLock R q lock canBlock).1 := by
  have htried := tryLock_tried R q lock canBlock
  generalize LockQueue.tryLock R q lock canBlock = result at htried ⊢
  cases htried with
  | refused => exact h
  | granted =>
      intro before l after hsplit
      rcases h before l after hsplit with ⟨g, hg, hconflict⟩ | hqueue
      · exact .inl ⟨g, List.mem_cons_of_mem _ hg, hconflict⟩
      · exact .inr hqueue
  | blocked _ hheld =>
      intro before l after hsplit
      rcases List.append_eq_append_iff.mp hsplit with ⟨mid, hbefore, hrest⟩ | ⟨mid, hq, hrest⟩
      · -- the lock is the new one
        cases mid with
        | nil =>
            obtain ⟨rfl, _⟩ := List.cons.inj hrest
            rw [List.append_nil] at hbefore
            rw [hbefore]
            exact hheld
        | cons x mid =>
            have := congrArg List.length hrest
            simp at this
      · cases mid with
        | nil =>
            obtain ⟨rfl, _⟩ := List.cons.inj hrest
            rw [List.append_nil] at hq
            rw [← hq]
            exact hheld
        | cons x mid =>
            obtain ⟨rfl, _⟩ := List.cons.inj hrest
            exact h before l mid hq

/-- **After all waiting locks have been tried again, those that still wait are held up**,
whatever has gone before. -/
theorem regrant_justified (R : Rules L) (q : Queue L) : Justified R (regrant R q).1 := by
  refine regrant_induction (P := Justified R) ?_ fun _ lock _ h => h.tryLock lock true
  intro before lock after hsplit
  exact absurd hsplit.symm (by simp)

/-! ## Granted locks stay -/

theorem mem_tryLock_granted {l : L} (h : l ∈ q.granted) (lock : L) (canBlock : Bool) :
    l ∈ (tryLock R q lock canBlock).1.granted := by
  have htried := tryLock_tried R q lock canBlock
  generalize LockQueue.tryLock R q lock canBlock = result at htried ⊢
  cases htried with
  | granted => exact List.mem_cons_of_mem _ h
  | blocked | refused => exact h

theorem mem_regrant_granted {l : L} (h : l ∈ q.granted) : l ∈ (regrant R q).1.granted :=
  regrant_induction (P := fun q => l ∈ q.granted) h fun _ lock _ h =>
    mem_tryLock_granted h lock true

/-- A property of all locks is kept when new locks have it. -/
def All (P : L → Prop) (q : Queue L) : Prop := ∀ l, l ∈ q.granted ∨ l ∈ q.blocked → P l

theorem All.tryLock {P : L → Prop} (h : All P q) (hlock : P lock) (canBlock : Bool) :
    All P (LockQueue.tryLock R q lock canBlock).1 := by
  have htried := tryLock_tried R q lock canBlock
  generalize LockQueue.tryLock R q lock canBlock = result at htried ⊢
  cases htried with
  | refused => exact h
  | granted =>
      rintro l (hl | hl)
      · rcases List.mem_cons.mp hl with rfl | hl
        · exact hlock
        · exact h l (.inl hl)
      · exact h l (.inr hl)
  | blocked =>
      rintro l (hl | hl)
      · exact h l (.inl hl)
      · rcases List.mem_append.mp hl with hl | hl
        · exact h l (.inr hl)
        · exact List.mem_singleton.mp hl ▸ hlock

theorem All.discard {P : L → Prop} (h : All P q) (mine : L → Bool) :
    All P (LockQueue.discard mine q) := by
  unfold LockQueue.discard
  split
  · rintro l (hl | hl)
    · exact h l (.inl (List.mem_of_mem_filter hl))
    · exact h l (.inr hl)
  · rintro l (hl | hl)
    · exact h l (.inl hl)
    · exact h l (.inr (List.mem_of_mem_filter hl))

theorem All.regrant {P : L → Prop} (h : All P q) : All P (LockQueue.regrant R q).1 := by
  refine regrant_induction (P := All P) ?_ fun _ lock hlock h' =>
    h'.tryLock (h lock (.inr hlock)) true
  rintro l (hl | hl)
  · exact h l (.inl hl)
  · cases hl

end LockQueue
