import Mathlib
import GlusterFS.Lib.Machine

/-!
# Writing messages to a socket

Requests and replies leave a connection through the queue `priv->ioq`.  This module embeds
`__socket_ioq_new`, `__socket_rwv` as it writes, `__socket_ioq_churn_entry`, `__socket_ioq_churn`,
`socket_submit_request`, `socket_submit_reply`, `socket_event_poll_out` and `socket_event_poll_err`
of `socket.c`.  Each of them works under `priv->lock`, so that an action is one call, with whatever
becomes of the calls of `writev` in it.

A message that is submitted while nothing is queued is written at once, and queued only if something
of it is left.  **What has been written and what is queued are together the messages as they were
submitted** (`Conserved`), each as one fragment with its header: a write that takes a part of an
entry leaves the rest of it in `pending_vector`, and a write that fails leaves `-1` in
`pending_count`, with which the entry is never written again and never leaves the head of the queue.
-/

namespace GlusterFS.Socket

/-! ## Writing a vector -/

/-- What becomes of a call of `writev`: it takes `n + 1` bytes, or all if there are not so many; it
fails with `EAGAIN`; it fails with `EINTR`; it fails otherwise. -/
inductive WriteOutcome
  | wrote (n : ℕ)
  | again
  | intr
  | fail
  deriving DecidableEq, Repr

/-- `ret` bytes of the vector have been written: the vectors that they cover are behind, and the
next one loses its beginning. -/
def moveOn : ℕ → List (List UInt8) → ℤ → List (List UInt8) × ℤ
  | _, [], opcount => ([], opcount)
  | ret, x :: vector, opcount =>
    if ret = 0 then (x :: vector, opcount)
    else if x.length ≤ ret then moveOn (ret - x.length) vector (opcount - 1)
    else (x.drop ret :: vector, opcount)

/-- Vectors without bytes are passed over. -/
def skipEmpty : List (List UInt8) → ℤ → List (List UInt8) × ℤ
  | [] :: vector, opcount =>
    if 0 < opcount then skipEmpty vector (opcount - 1) else ([] :: vector, opcount)
  | vector, opcount => (vector, opcount)

/-- What `__socket_rwv` leaves: `pending_vector` and `pending_count`, the bytes that the socket has
taken, and the outcomes that have not been used. -/
structure Writev where
  vector : List (List UInt8)
  opcount : ℤ
  sent : List UInt8
  outcomes : List WriteOutcome

/-- `__socket_rwv`, for writing. -/
def socketWritev : List WriteOutcome → List (List UInt8) → ℤ → Writev
  | [], vector, opcount =>
    ⟨(skipEmpty vector opcount).1, (skipEmpty vector opcount).2, [], []⟩
  | outcome :: outcomes, vector, opcount =>
    let (v, c) := skipEmpty vector opcount
    if c ≤ 0 then ⟨v, c, [], outcome :: outcomes⟩
    else
      match outcome with
      | .again => ⟨v, c, [], outcomes⟩
      | .intr => socketWritev outcomes v c
      | .fail => ⟨v, -1, [], outcomes⟩
      | .wrote n =>
        let ret := min (n + 1) v.flatten.length
        let r := socketWritev outcomes (moveOn ret v c).1 (moveOn ret v c).2
        { r with sent := v.flatten.take ret ++ r.sent }

/-- `pending_count` counts the vectors that are pending, unless a write has failed. -/
def Counted (vector : List (List UInt8)) (opcount : ℤ) : Prop :=
  opcount = vector.length ∨ opcount = -1

theorem Counted.eq_nil {vector : List (List UInt8)} {opcount : ℤ} (h : Counted vector opcount)
    (h0 : opcount = 0) : vector = [] := by
  rcases h with h | h
  · exact List.eq_nil_of_length_eq_zero (by omega)
  · omega

theorem skipEmpty_spec (vector : List (List UInt8)) (opcount : ℤ) (h : Counted vector opcount) :
    (skipEmpty vector opcount).1.flatten = vector.flatten ∧
      Counted (skipEmpty vector opcount).1 (skipEmpty vector opcount).2 := by
  induction vector generalizing opcount with
  | nil => exact ⟨rfl, h⟩
  | cons x vector ih =>
    cases x with
    | nil =>
      rw [skipEmpty]
      split
      case isTrue hpos =>
        refine ih (opcount - 1) (Or.inl ?_)
        rcases h with h | h
        · rw [h, List.length_cons]
          push_cast
          omega
        · omega
      case isFalse => exact ⟨rfl, h⟩
    | cons b x => exact ⟨rfl, h⟩

theorem moveOn_spec (ret : ℕ) (vector : List (List UInt8)) (opcount : ℤ)
    (h : opcount = vector.length) :
    (moveOn ret vector opcount).1.flatten = vector.flatten.drop ret ∧
      (moveOn ret vector opcount).2 = (moveOn ret vector opcount).1.length := by
  induction vector generalizing ret opcount with
  | nil => simp [moveOn, h]
  | cons x vector ih =>
    rw [moveOn]
    split
    case isTrue h0 => simp [h0, h]
    case isFalse =>
      split
      case isTrue hle =>
        obtain ⟨hflat, hcount⟩ := ih (ret - x.length) (opcount - 1) (by
          rw [h, List.length_cons]
          push_cast
          omega)
        refine ⟨?_, hcount⟩
        rw [hflat, List.flatten_cons, List.drop_append, List.drop_eq_nil_of_le hle, List.nil_append]
      case isFalse hlt =>
        refine ⟨?_, by rw [h]; simp⟩
        rw [List.flatten_cons, List.flatten_cons, List.drop_append_of_le_length (by omega)]

/-- What the socket has taken and what is pending are what was pending. -/
theorem socketWritev_spec (outcomes : List WriteOutcome) (vector : List (List UInt8)) (opcount : ℤ)
    (h : Counted vector opcount) :
    (socketWritev outcomes vector opcount).sent ++
        (socketWritev outcomes vector opcount).vector.flatten = vector.flatten ∧
      Counted (socketWritev outcomes vector opcount).vector
        (socketWritev outcomes vector opcount).opcount := by
  induction outcomes generalizing vector opcount with
  | nil => exact skipEmpty_spec vector opcount h
  | cons outcome outcomes ih =>
    obtain ⟨hflat, hcount⟩ := skipEmpty_spec vector opcount h
    rw [socketWritev]
    simp only
    split
    case isTrue => exact ⟨hflat, hcount⟩
    case isFalse hpos =>
      cases outcome with
      | again => exact ⟨hflat, hcount⟩
      | intr =>
        obtain ⟨hsent, hc⟩ := ih _ _ hcount
        exact ⟨hsent.trans hflat, hc⟩
      | fail => exact ⟨hflat, Or.inr rfl⟩
      | wrote n =>
        have hlen := hcount.resolve_right fun hneg => by omega
        obtain ⟨hmove, hmc⟩ := moveOn_spec (min (n + 1) (skipEmpty vector opcount).1.flatten.length)
          _ _ hlen
        obtain ⟨hsent, hc⟩ := ih _ _ (Or.inl hmc)
        refine ⟨?_, hc⟩
        rw [List.append_assoc, hsent, hmove, List.take_append_drop, hflat]

/-! ## The queue -/

/-- `MAX_IOVEC`. -/
def maxIovec : ℕ := 16

/-- `RPC_MAX_FRAGMENT_SIZE`. -/
def rpcMaxFragmentSize : ℕ := 0x7fffffff

/-- `rpc_transport_msg_t`: the vectors of the headers and of the payload. -/
structure Msg where
  rpchdr : List (List UInt8)
  proghdr : List (List UInt8)
  progpayload : List (List UInt8)
  deriving DecidableEq, Repr

/-- All vectors of the message. -/
def Msg.vector (msg : Msg) : List (List UInt8) := msg.rpchdr ++ msg.proghdr ++ msg.progpayload

/-- The bytes of the message. -/
def Msg.body (msg : Msg) : List UInt8 := msg.vector.flatten

/-- The four bytes of a number, as they are sent. -/
def hton32 (n : ℕ) : List UInt8 :=
  [UInt8.ofNat (n / 2 ^ 24), UInt8.ofNat (n / 2 ^ 16), UInt8.ofNat (n / 2 ^ 8), UInt8.ofNat n]

/-- `struct ioq`. -/
structure Ioq where
  pendingVector : List (List UInt8)
  pendingCount : ℤ
  deriving DecidableEq, Repr

/-- `size` of `__socket_ioq_new`, a `uint32_t`. -/
def Msg.size (msg : Msg) : ℕ := msg.body.length % 2 ^ 32

/-- `__socket_ioq_new`, for a message whose vectors fit into `entry->vector`, as the function
asserts. -/
def ioqNew (msg : Msg) : Option Ioq :=
  if rpcMaxFragmentSize < msg.size then none
  else some ⟨hton32 (msg.size ||| 0x80000000) :: msg.vector, msg.vector.length + 1⟩

/-- The sending side of a connection; `written` and `submitted` are what the socket has taken, and
the messages that have been accepted. -/
structure Outgoing where
  connected : Bool
  ioq : List Ioq
  written : List UInt8
  submitted : List Msg
  deriving DecidableEq, Repr

/-- What `socket_submit_request` and `socket_submit_reply` do with their message. -/
def socketSubmit (s : Outgoing) (msg : Msg) (outcomes : List WriteOutcome) : Outgoing :=
  if s.connected = false then s
  else
    match ioqNew msg with
    | none => s
    | some entry =>
      match s.ioq with
      | [] =>
        let r := socketWritev outcomes entry.pendingVector entry.pendingCount
        { s with
          ioq := if r.opcount = 0 then [] else [⟨r.vector, r.opcount⟩]
          written := s.written ++ r.sent
          submitted := s.submitted ++ [msg] }
      | _ :: _ => { s with ioq := s.ioq ++ [entry], submitted := s.submitted ++ [msg] }

/-- `socket_submit_request`, with `req->msg`. -/
def socketSubmitRequest (s : Outgoing) (req : Msg) (outcomes : List WriteOutcome) : Outgoing :=
  socketSubmit s req outcomes

/-- `socket_submit_reply`, with `reply->msg`. -/
def socketSubmitReply (s : Outgoing) (reply : Msg) (outcomes : List WriteOutcome) : Outgoing :=
  socketSubmit s reply outcomes

/-- `__socket_ioq_churn`: what it returns, the queue and the bytes written. -/
def ioqChurn : List WriteOutcome → List Ioq → ℤ × List Ioq × List UInt8
  | _, [] => (0, [], [])
  | outcomes, entry :: ioq =>
    let r := socketWritev outcomes entry.pendingVector entry.pendingCount
    if r.opcount = 0 then
      ((ioqChurn r.outcomes ioq).1, (ioqChurn r.outcomes ioq).2.1,
        r.sent ++ (ioqChurn r.outcomes ioq).2.2)
    else (r.opcount, ⟨r.vector, r.opcount⟩ :: ioq, r.sent)

/-- `socket_event_poll_out`; `__socket_disconnect` shuts the socket down. -/
def socketEventPollOut (s : Outgoing) (outcomes : List WriteOutcome) : Outgoing :=
  if s.connected then
    { s with
      connected := (ioqChurn outcomes s.ioq).1 ≠ -1
      ioq := (ioqChurn outcomes s.ioq).2.1
      written := s.written ++ (ioqChurn outcomes s.ioq).2.2 }
  else s

/-- `socket_event_poll_err`: `__socket_ioq_flush` and `__socket_reset`. -/
def socketEventPollErr (s : Outgoing) : Outgoing := { s with connected := false, ioq := [] }

/-- The calls on a connection, with what becomes of their calls of `writev`. -/
inductive Action
  | request (req : Msg) (outcomes : List WriteOutcome)
  | reply (reply : Msg) (outcomes : List WriteOutcome)
  | pollOut (outcomes : List WriteOutcome)
  | pollErr
  deriving DecidableEq, Repr

/-- A connection, from the time it is made. -/
def outgoingMachine : Machine Outgoing Action where
  start s := s = ⟨true, [], [], []⟩
  step s
    | .request req outcomes => some (socketSubmitRequest s req outcomes)
    | .reply reply outcomes => some (socketSubmitReply s reply outcomes)
    | .pollOut outcomes => some (socketEventPollOut s outcomes)
    | .pollErr => some (socketEventPollErr s)

/-! ## What is on the wire -/

/-- The message as one fragment: a header with the bit of the last fragment and the size, and the
bytes of the message. -/
def Msg.frame (msg : Msg) : List UInt8 := hton32 (2 ^ 31 + msg.body.length) ++ msg.body

/-- The message fits into an entry: the condition that `__socket_ioq_new` asserts, and the size. -/
def Msg.Fits (msg : Msg) : Prop := msg.vector.length ≤ maxIovec - 1 ∧ msg.body.length < 2 ^ 31

/-- The bytes that are queued. -/
def queued (ioq : List Ioq) : List UInt8 := (ioq.map fun e => e.pendingVector.flatten).flatten

/-- What has been written and what is queued, or was when the connection ended, are the messages. -/
structure Conserved (s : Outgoing) : Prop where
  fits : ∀ msg ∈ s.submitted, msg.Fits
  counted : ∀ e ∈ s.ioq, Counted e.pendingVector e.pendingCount
  bytes : ∃ left, s.written ++ left = (s.submitted.map Msg.frame).flatten ∧
    (s.connected = true → left = queued s.ioq)

/-- The actions that submit messages that fit. -/
def Submits : Action → Prop
  | .request msg _ | .reply msg _ => msg.Fits
  | _ => True

/-- A new entry has the message and its header to write. -/
theorem ioqNew_spec {msg : Msg} (h : msg.Fits) :
    ∃ entry, ioqNew msg = some entry ∧ entry.pendingVector.flatten = msg.frame ∧
      Counted entry.pendingVector entry.pendingCount := by
  have hlt : msg.body.length < 2 ^ 31 := h.2
  have hsize : msg.size = msg.body.length := Nat.mod_eq_of_lt (by omega)
  have hor : msg.body.length ||| 0x80000000 = 2 ^ 31 + msg.body.length := by
    rw [Nat.or_comm]
    exact (Nat.two_pow_add_eq_or_of_lt hlt 1).symm
  refine ⟨_, by rw [ioqNew, if_neg (by rw [hsize, rpcMaxFragmentSize]; omega)], ?_, Or.inl ?_⟩
  · rw [List.flatten_cons, hsize, hor]
    rfl
  · simp

theorem Conserved.submit {s : Outgoing} (h : Conserved s) {msg : Msg} (hfits : msg.Fits)
    (outcomes : List WriteOutcome) : Conserved (socketSubmit s msg outcomes) := by
  obtain ⟨entry, hnew, hflat, hcount⟩ := ioqNew_spec hfits
  rw [socketSubmit]
  split
  case isTrue => exact h
  case isFalse hconn =>
    obtain ⟨left, hbytes, hleft⟩ := h.bytes
    obtain rfl := hleft (by simpa using hconn)
    have hall : ∀ m ∈ s.submitted ++ [msg], m.Fits := fun m hm =>
      (List.mem_append.mp hm).elim (h.fits m) fun hm => List.mem_singleton.mp hm ▸ hfits
    simp only [hnew]
    split
    case h_1 hnil =>
      obtain ⟨hsent, hc⟩ := socketWritev_spec outcomes _ _ hcount
      rw [hnil, queued, List.map_nil, List.flatten_nil, List.append_nil] at hbytes
      refine ⟨hall, ?_,
        (socketWritev outcomes entry.pendingVector entry.pendingCount).vector.flatten, ?_,
        fun _ => ?_⟩
      · simp only
        split
        · simp
        · simpa using hc
      · simp only [List.append_assoc, hsent, hflat, hbytes, List.map_append, List.map_cons,
          List.map_nil, List.flatten_append, List.flatten_cons, List.flatten_nil, List.append_nil]
      · simp only
        split
        case isTrue h0 =>
          rw [hc.eq_nil h0]
          rfl
        case isFalse => simp [queued]
    case h_2 e q hq =>
      refine ⟨hall, ?_, queued s.ioq ++ entry.pendingVector.flatten, ?_, fun _ => ?_⟩
      · intro e' he'
        rcases List.mem_append.mp he' with he' | he'
        · exact h.counted e' he'
        · rw [List.mem_singleton.mp he']
          exact hcount
      · rw [← List.append_assoc, hbytes, hflat]
        simp
      · simp [queued]

/-- The loop over the queue writes its entries one after the other. -/
theorem ioqChurn_spec (outcomes : List WriteOutcome) (ioq : List Ioq)
    (h : ∀ e ∈ ioq, Counted e.pendingVector e.pendingCount) :
    (ioqChurn outcomes ioq).2.2 ++ queued (ioqChurn outcomes ioq).2.1 = queued ioq ∧
      ∀ e ∈ (ioqChurn outcomes ioq).2.1, Counted e.pendingVector e.pendingCount := by
  induction ioq generalizing outcomes with
  | nil => exact ⟨rfl, h⟩
  | cons entry ioq ih =>
    obtain ⟨hsent, hc⟩ := socketWritev_spec outcomes _ _ (h entry List.mem_cons_self)
    have hrest : ∀ e ∈ ioq, Counted e.pendingVector e.pendingCount :=
      fun e he => h e (List.mem_cons_of_mem _ he)
    rw [ioqChurn]
    split
    case isTrue h0 =>
      obtain ⟨hbytes, hcounted⟩ := ih
        (socketWritev outcomes entry.pendingVector entry.pendingCount).outcomes hrest
      refine ⟨?_, hcounted⟩
      -- the entry has been written to its end
      rw [hc.eq_nil h0, List.flatten_nil, List.append_nil] at hsent
      rw [List.append_assoc, hbytes, hsent]
      rfl
    case isFalse =>
      refine ⟨?_, ?_⟩
      · rw [queued, List.map_cons, List.flatten_cons, ← List.append_assoc, hsent]
        rfl
      · intro e he
        rcases List.mem_cons.mp he with rfl | he
        · exact hc
        · exact hrest e he

theorem Conserved.pollOut {s : Outgoing} (h : Conserved s) (outcomes : List WriteOutcome) :
    Conserved (socketEventPollOut s outcomes) := by
  rw [socketEventPollOut]
  split
  case isTrue hconn =>
    obtain ⟨left, hbytes, hleft⟩ := h.bytes
    obtain rfl := hleft hconn
    obtain ⟨hsent, hcounted⟩ := ioqChurn_spec outcomes s.ioq h.counted
    exact ⟨h.fits, hcounted, _, by rw [List.append_assoc, hsent, hbytes], fun _ => rfl⟩
  case isFalse => exact h

theorem Conserved.pollErr {s : Outgoing} (h : Conserved s) : Conserved (socketEventPollErr s) := by
  obtain ⟨left, hbytes, _⟩ := h.bytes
  exact ⟨h.fits, fun e he => absurd he List.not_mem_nil, left, hbytes, fun hconn => nomatch hconn⟩

/-- Whatever becomes of the writes, nothing is lost, doubled or put out of order. -/
theorem conserved_of_reachable {s : Outgoing}
    (h : outgoingMachine.ReachableWhen (fun _ a => Submits a) s) : Conserved s := by
  refine Machine.ReachableWhen.invariant Conserved ?_ ?_ h
  · rintro _ rfl
    exact ⟨fun m hm => absurd hm List.not_mem_nil, fun e he => absurd he List.not_mem_nil, [], rfl,
      fun _ => rfl⟩
  · intro s a s' hinv hok hstep
    cases a with
    | request req outcomes =>
      obtain rfl := Option.some.inj hstep
      exact hinv.submit hok outcomes
    | reply reply outcomes =>
      obtain rfl := Option.some.inj hstep
      exact hinv.submit hok outcomes
    | pollOut outcomes =>
      obtain rfl := Option.some.inj hstep
      exact hinv.pollOut outcomes
    | pollErr =>
      obtain rfl := Option.some.inj hstep
      exact hinv.pollErr

/-- **What has been written to the socket is the beginning of the messages, framed and in the order
of their submission**, in every state of every run. -/
theorem written_prefix_framed {s : Outgoing}
    (h : outgoingMachine.ReachableWhen (fun _ a => Submits a) s) :
    s.written <+: (s.submitted.map Msg.frame).flatten := by
  obtain ⟨left, hbytes, _⟩ := (conserved_of_reachable h).bytes
  exact ⟨left, hbytes⟩

/-- Two messages, of which the first is written in three parts before a write fails. -/
def failingWrites : List Action :=
  [.request ⟨[[1, 2]], [[3]], []⟩ [.wrote 4, .again], .reply ⟨[[4]], [], [[], [5]]⟩ [.wrote 9],
    .pollOut [.intr, .wrote 0, .fail], .pollOut [.wrote 9], .request ⟨[[6]], [], []⟩ [.wrote 9]]

/-- The header of the first message and two of its three bytes are written. -/
theorem written_prefix_framed_failingWrites :
    ∃ s, outgoingMachine.exec ⟨true, [], [], []⟩ failingWrites = some s ∧
      s.written = [128, 0, 0, 3, 1, 2] ∧ s.submitted.length = 2 ∧
      s.written <+: (s.submitted.map Msg.frame).flatten := by
  refine ⟨_, rfl, by decide, by decide,
    written_prefix_framed (.exec (.start rfl) failingWrites ?_ rfl)⟩
  intro a ha t
  fin_cases ha <;> trivial

end GlusterFS.Socket
