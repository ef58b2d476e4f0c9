import IronSbe.Lib.Transition
import IronSbe.Transport.Framing

/-!
# Receiving over io_uring

`UringConnection::recv` takes a frame off the bytes in `pending`, and when there is
no complete one it submits a read and waits for it.  The read belongs to the kernel
while it is in flight: if the future that waits for it is dropped, the read goes on,
takes its bytes from the socket, and nobody sees them.

The callers are two loops, `LocalClient::connect_and_run` and
`handle_local_session`.  Both wait in a `select!` for a received frame or for
something to send, and drop the future of `recv` when the other branch is ready
first.  `step` is one step of the peer, of the kernel or of such a loop.

* `implements_tryTakeFrame`: a call reports the front of `pending`.
* `Inv`: the bytes that have been read are the frames returned so far and `pending`.
* `returned_of_reach`: the frames arrive in order and complete as long as no read
  that lost its future takes bytes.
-/

namespace IronSbe.Transport

open Lib.Bytes Lib.Framing Lib.Transition

/-- A connection: the limit on the size of a frame, and the bytes that have been
received and not been used. -/
structure UringConnection where
  maxFrameSize : Nat
  pending : List UInt8
  deriving DecidableEq, Repr

namespace UringConnection

/-- The length in front of every frame. -/
def lengthPrefixBytes : Nat := 4

/-- The error for a frame above the limit. -/
def frameTooLong (c : UringConnection) (frameLen : Nat) : IoError where
  kind := .invalidData
  message := "frame length " ++ toString frameLen ++ " exceeds max_frame_size " ++
    toString c.maxFrameSize

/-- The error of `checked_add`. -/
def frameLengthOverflow : IoError := ⟨.invalidData, "frame length overflow"⟩

/-- `try_take_frame`: the result, and the connection after the call. -/
def tryTakeFrame (c : UringConnection) :
    Except IoError (Option (List UInt8)) × UringConnection :=
  if c.pending.length < lengthPrefixBytes then (.ok none, c)
  else
    let frameLen := leNat (c.pending.take 4)
    if c.maxFrameSize < frameLen then (.error (c.frameTooLong frameLen), c)
    else
      let total := lengthPrefixBytes + frameLen
      if 2 ^ 64 ≤ total then (.error frameLengthOverflow, c)
      else if c.pending.length < total then (.ok none, c)
      else
        let pending := c.pending.drop lengthPrefixBytes
        (.ok (some (pending.take frameLen)), { c with pending := pending.drop frameLen })

/-- The error for a length that is no `u32`. -/
def frameExceedsU32 (frameLen : Nat) : IoError where
  kind := .invalidData
  message := "frame length " ++ toString frameLen ++ " exceeds u32::MAX"

/-- `send_owned` up to the write: the bytes that are written. -/
def sendOwned (c : UringConnection) (msg : List UInt8) : Except IoError (List UInt8) :=
  let frameLen := msg.length
  if c.maxFrameSize < frameLen then .error (c.frameTooLong frameLen)
  else if 2 ^ 32 ≤ frameLen then .error (frameExceedsU32 frameLen)
  else if 2 ^ 64 ≤ lengthPrefixBytes + frameLen then .error frameLengthOverflow
  else .ok (leBytes 4 frameLen ++ msg)

/-- The call as a function of the bytes in `pending`. -/
def takeFrom (maxFrameSize : Nat) (pending : List UInt8) :
    Except IoError (Option (List UInt8)) × List UInt8 :=
  let r := tryTakeFrame ⟨maxFrameSize, pending⟩
  (r.1, r.2.pending)

/-- A call changes nothing but `pending`. -/
theorem tryTakeFrame_eq (c : UringConnection) :
    c.tryTakeFrame = ((takeFrom c.maxFrameSize c.pending).1,
      { c with pending := (takeFrom c.maxFrameSize c.pending).2 }) := by
  simp only [takeFrom, tryTakeFrame]
  split_ifs <;> rfl

/-- The sum of the prefix and the length it holds is far from an overflow. -/
theorem total_lt (pending : List UInt8) :
    4 + leNat (pending.take 4) < 2 ^ 64 := by
  have hlt := leNat_lt (pending.take 4)
  have hle : 256 ^ (pending.take 4).length ≤ 256 ^ 4 :=
    Nat.pow_le_pow_right (by decide) (List.length_take_le 4 pending)
  omega

/-- A call reports the front of `pending`, and takes only a complete frame off it. -/
theorem implements_tryTakeFrame (maxFrameSize : Nat) :
    Implements maxFrameSize (takeFrom maxFrameSize) := by
  have heq : takeFrom maxFrameSize = takeHead
      (fun pending frameLen => (frameTooLong ⟨maxFrameSize, pending⟩ frameLen, pending))
      maxFrameSize := by
    funext pending
    have htotal := Nat.not_le.mpr (total_lt pending)
    simp only [takeFrom, tryTakeFrame, takeHead, head, lengthPrefixBytes, if_neg htotal,
      List.drop_drop]
    split_ifs <;> rfl
  rw [heq]
  exact implements_takeHead _ _

end UringConnection

/-! ## The loop around `recv` -/

namespace Uring

/-- Where the future of `recv` is. -/
inductive RecvState where
  /-- There is none, or it has not been polled. -/
  | idle
  /-- It waits for its read. -/
  | reading
  /-- Its read has come to its end with these bytes, and it has not been polled since. -/
  | completed (bytes : List UInt8)
  /-- The loop has returned. -/
  | finished
  deriving DecidableEq, Repr

/-- The bytes that the future would lose if it were dropped now. -/
def RecvState.held : RecvState → List UInt8
  | .completed bytes => bytes
  | _ => []

/-- The two ends of a connection and what is between them. -/
structure World where
  conn : UringConnection
  recv : RecvState := .idle
  /-- Reads in flight whose future has been dropped. -/
  orphans : Nat := 0
  /-- Bytes that the peer has sent and no read has taken. -/
  socket : List UInt8 := []
  /-- The peer has closed its side. -/
  closed : Bool := false
  /-- The frames sent by the peer and those returned by `recv`, the oldest first. -/
  sent : List (List UInt8) := []
  returned : List (List UInt8) := []
  deriving DecidableEq, Repr

/-- The steps of the peer and of the loop. -/
inductive Action where
  /-- The peer sends a message. -/
  | peerSend (payload : List UInt8)
  | peerClose
  /-- The loop polls the future of `recv`, or calls `recv` and polls the new one. -/
  | poll
  /-- The read that the future waits for comes to its end with `n` bytes. -/
  | complete (n : Nat)
  /-- A read whose future has been dropped comes to its end with `n` bytes. -/
  | completeOrphan (n : Nat)
  /-- The other branch of the `select!` is ready, and the future is dropped. -/
  | dropRecv
  /-- The loop returns, from its other branch or because the read failed. -/
  | stop
  deriving DecidableEq, Repr

/-- A read may end with `n` bytes: some of those in the socket, as many as its
buffer holds at most, or none at the end of the stream. -/
def World.CanRead (w : World) (n : Nat) : Prop :=
  (0 < n ∧ n ≤ w.socket.length ∧ n ≤ w.conn.maxFrameSize + UringConnection.lengthPrefixBytes) ∨
    (n = 0 ∧ w.socket = [] ∧ w.closed = true)

instance (w : World) (n : Nat) : Decidable (w.CanRead n) := inferInstanceAs (Decidable (_ ∨ _))

/-- The loop of `recv` up to its next read or its result.  A frame goes to the
caller, which comes back with the next call; an error ends the caller's loop. -/
def World.resume (w : World) : World :=
  match w.conn.tryTakeFrame with
  | (.ok (some payload), conn) =>
    { w with conn := conn, recv := .idle, returned := w.returned ++ [payload] }
  | (.error _, conn) => { w with conn := conn, recv := .finished }
  | (.ok none, conn) => { w with conn := conn, recv := .reading }

/-- One step of the peer, the kernel or the loop. -/
def step (w : World) : Action → Option World
  | .peerSend payload =>
    -- the sender's `send_owned` refuses a length that is no `u32`
    if w.closed = false ∧ payload.length < 2 ^ 32 then
      some { w with socket := w.socket ++ frame payload, sent := w.sent ++ [payload] }
    else none
  | .peerClose => some { w with closed := true }
  | .poll =>
    match w.recv with
    | .idle => some w.resume
    | .reading => some w
    | .completed bytes =>
      if bytes = [] then some { w with recv := .finished }
      else some { w with conn := { w.conn with pending := w.conn.pending ++ bytes } }.resume
    | .finished => none
  | .complete n =>
    if w.recv = .reading ∧ w.CanRead n then
      some { w with recv := .completed (w.socket.take n), socket := w.socket.drop n }
    else none
  | .completeOrphan n =>
    if 0 < w.orphans ∧ w.CanRead n then
      some { w with orphans := w.orphans - 1, socket := w.socket.drop n }
    else none
  | .dropRecv =>
    match w.recv with
    | .idle => some w
    | .reading => some { w with recv := .idle, orphans := w.orphans + 1 }
    | .completed _ => some { w with recv := .idle }
    | .finished => none
  | .stop => some { w with recv := .finished }

/-- A new connection. -/
def start (maxFrameSize : Nat) : World where
  conn := ⟨maxFrameSize, []⟩

/-- No read without a future takes bytes: a future is not dropped while it holds bytes,
and a read that lost its future comes to its end with none. -/
def NothingDiscarded (w : World) : Action → Prop
  | .dropRecv => w.recv.held = []
  | .completeOrphan n => n = 0
  | _ => True

instance (w : World) (a : Action) : Decidable (NothingDiscarded w a) := by
  cases a <;> unfold NothingDiscarded <;> infer_instance

/-! ## What has been read -/

/-- The bytes of `taken` are the frames returned so far and then those in `pending`. -/
def Accounted (limit : Nat) (w : World) (taken : List UInt8) : Prop :=
  parse limit taken =
    (w.returned ++ (parse limit w.conn.pending).1, (parse limit w.conn.pending).2)

variable {limit : Nat} {w : World} {taken : List UInt8}

/-- Bytes go from the read to `pending`, which has no complete frame. -/
theorem Accounted.append (h : Accounted limit w taken)
    (hwaiting : head limit w.conn.pending = .incomplete) (bytes : List UInt8) :
    Accounted limit { w with conn := { w.conn with pending := w.conn.pending ++ bytes } }
      (taken ++ bytes) := by
  have hidle : parse limit w.conn.pending = ([], w.conn.pending) :=
    parse_of_not_complete (by simp [hwaiting])
  rw [Accounted, hidle, List.append_nil] at h
  rw [Accounted, parse_append, h]

/-- What holds in every state of a loop that discards nothing. -/
structure Inv (limit : Nat) (w : World) : Prop where
  limit_eq : w.conn.maxFrameSize = limit
  small : ∀ payload ∈ w.sent, payload.length < 2 ^ 32
  returned : w.returned <+: w.sent
  /-- While the loop runs, no byte is lost, and it waits only for want of bytes. -/
  taken : w.recv ≠ .finished →
    ∃ taken, taken ++ (w.recv.held ++ w.socket) = stream w.sent ∧ Accounted limit w taken
  waiting : w.recv ≠ .finished → w.recv ≠ .idle → head limit w.conn.pending = .incomplete

/-- Frames that were complete among the first bytes were sent first. -/
theorem frames_of_taken (limit : Nat) {sent : List (List UInt8)} {more : List UInt8}
    (hsmall : ∀ payload ∈ sent, payload.length < 2 ^ 32) (h : taken ++ more = stream sent) :
    (parse limit taken).1 <+: sent := by
  have hwhole : (parse limit (taken ++ more)).1 = sent.takeWhile (·.length ≤ limit) := by
    rw [h, stream, parse_frames hsmall]
  rw [parse_append] at hwhole
  exact (List.prefix_append _ _).trans (hwhole ▸ List.takeWhile_prefix _)

section

variable (hlimit : w.conn.maxFrameSize = limit)
  (hsmall : ∀ payload ∈ w.sent, payload.length < 2 ^ 32) (hreturned : w.returned <+: w.sent)
include hlimit hsmall hreturned

/-- The loop ends: nothing more is read. -/
theorem Inv.of_finished (hfinished : w.recv = .finished) : Inv limit w :=
  ⟨hlimit, hsmall, hreturned, fun hover => absurd hfinished hover,
    fun hover => absurd hfinished hover⟩

/-- The loop of `recv` goes on with more bytes in `pending`. -/
theorem Inv.resume (hstream : taken ++ w.socket = stream w.sent)
    (htaken : Accounted limit w taken) :
    Inv limit w.resume := by
  subst hlimit
  have himpl := UringConnection.implements_tryTakeFrame w.conn.maxFrameSize
  unfold World.resume
  rw [UringConnection.tryTakeFrame_eq]
  cases hhead : head w.conn.maxFrameSize w.conn.pending with
  | incomplete =>
    rw [himpl.incomplete _ hhead]
    exact ⟨rfl, hsmall, hreturned, fun _ => ⟨taken, hstream, htaken⟩, fun _ _ => hhead⟩
  | oversized length =>
    obtain ⟨e, pending, htake⟩ := himpl.oversized _ _ hhead
    rw [htake]
    exact .of_finished rfl hsmall hreturned rfl
  | complete payload rest =>
    rw [himpl.complete _ _ _ hhead]
    have hnext : parse w.conn.maxFrameSize taken =
        ((w.returned ++ [payload]) ++ (parse w.conn.maxFrameSize rest).1,
          (parse w.conn.maxFrameSize rest).2) := by
      rw [htaken, parse_of_complete hhead, List.append_assoc]
      rfl
    refine ⟨rfl, hsmall, ?_, fun _ => ⟨taken, hstream, hnext⟩, fun _ h => absurd rfl h⟩
    have hframes := frames_of_taken w.conn.maxFrameSize hsmall hstream
    rw [hnext] at hframes
    exact (List.prefix_append _ _).trans hframes

end

theorem inv_start (limit : Nat) : Inv limit (start limit) where
  limit_eq := rfl
  small := by simp [start]
  returned := List.prefix_rfl
  taken := by
    intro _
    refine ⟨[], rfl, ?_⟩
    rw [Accounted, parse_of_not_complete (by simp [head])]
    simp [start, parse_of_not_complete, head]
  waiting := by simp [start]

section Steps

variable {limit : Nat} {w w' : World} {a : Action}

theorem Inv.peerSend (h : Inv limit w) {payload : List UInt8} (hpayload : payload.length < 2 ^ 32) :
    Inv limit { w with socket := w.socket ++ frame payload, sent := w.sent ++ [payload] } := by
  refine ⟨h.limit_eq, List.forall_mem_append.mpr ⟨h.small, List.forall_mem_singleton.mpr hpayload⟩,
    h.returned.trans (List.prefix_append _ _), fun hover => ?_, h.waiting⟩
  obtain ⟨taken, hstream, htaken⟩ := h.taken hover
  refine ⟨taken, ?_, htaken⟩
  simp only [stream, List.map_append, List.flatten_append] at hstream ⊢
  rw [← hstream]
  simp

/-- The loop calls `recv`. -/
theorem Inv.resume_idle (h : Inv limit w) (hrecv : w.recv = .idle) : Inv limit w.resume := by
  obtain ⟨taken, hstream, htaken⟩ := h.taken (by simp [hrecv])
  rw [hrecv] at hstream
  exact .resume h.limit_eq h.small h.returned hstream htaken

/-- The bytes of a read go to `pending`. -/
theorem Inv.resume_completed (h : Inv limit w) {bytes : List UInt8}
    (hrecv : w.recv = .completed bytes) :
    Inv limit
      { w with conn := { w.conn with pending := w.conn.pending ++ bytes } }.resume := by
  obtain ⟨taken, hstream, htaken⟩ := h.taken (by simp [hrecv])
  have hwaiting := h.waiting (by simp [hrecv]) (by simp [hrecv])
  rw [hrecv] at hstream
  have hmoved : (taken ++ bytes) ++ w.socket = stream w.sent := by
    rw [List.append_assoc]
    exact hstream
  exact .resume h.limit_eq h.small h.returned hmoved (htaken.append hwaiting bytes)

/-- A read takes the first bytes of the socket. -/
theorem Inv.complete (h : Inv limit w) (hrecv : w.recv = .reading) (n : Nat) :
    Inv limit { w with recv := .completed (w.socket.take n), socket := w.socket.drop n } := by
  obtain ⟨taken, hstream, htaken⟩ := h.taken (by simp [hrecv])
  have hwaiting := h.waiting (by simp [hrecv]) (by simp [hrecv])
  rw [hrecv] at hstream
  refine ⟨h.limit_eq, h.small, h.returned, fun _ => ⟨taken, ?_, htaken⟩, fun _ _ => hwaiting⟩
  show taken ++ (w.socket.take n ++ w.socket.drop n) = stream w.sent
  rw [List.take_append_drop]
  exact hstream

/-- A future that holds no bytes is dropped. -/
theorem Inv.dropRecv (h : Inv limit w) (hover : w.recv ≠ .finished) (hheld : w.recv.held = [])
    (orphans : Nat) : Inv limit { w with recv := .idle, orphans := orphans } := by
  have htaken := h.taken hover
  rw [hheld] at htaken
  exact ⟨h.limit_eq, h.small, h.returned, fun _ => htaken, fun _ hidle => absurd rfl hidle⟩

/-- A step that discards nothing keeps the account. -/
theorem inv_step (h : Inv limit w) (ha : NothingDiscarded w a) (hstep : step w a = some w') :
    Inv limit w' := by
  cases a with
  | peerSend payload =>
    obtain ⟨hopen, rfl⟩ := of_guard hstep
    exact h.peerSend hopen.2
  | peerClose =>
    cases hstep
    exact ⟨h.limit_eq, h.small, h.returned, h.taken, h.waiting⟩
  | poll =>
    unfold step at hstep
    cases hrecv : w.recv with
    | idle =>
      rw [hrecv] at hstep
      cases hstep
      exact h.resume_idle hrecv
    | reading =>
      rw [hrecv] at hstep
      cases hstep
      exact h
    | completed bytes =>
      simp only [hrecv] at hstep
      split_ifs at hstep with hbytes
      · cases hstep
        exact .of_finished h.limit_eq h.small h.returned rfl
      · cases hstep
        exact h.resume_completed hrecv
    | finished => simp [hrecv] at hstep
  | complete n =>
    obtain ⟨hcan, rfl⟩ := of_guard hstep
    exact h.complete hcan.1 n
  | completeOrphan n =>
    obtain rfl : n = 0 := ha
    obtain ⟨hcan, rfl⟩ := of_guard hstep
    exact ⟨h.limit_eq, h.small, h.returned, h.taken, h.waiting⟩
  | dropRecv =>
    unfold step at hstep
    have hheld : w.recv.held = [] := ha
    cases hrecv : w.recv with
    | idle =>
      rw [hrecv] at hstep
      cases hstep
      exact h
    | reading | completed _ =>
      rw [hrecv] at hstep
      cases hstep
      exact h.dropRecv (by simp [hrecv]) hheld _
    | finished => simp [hrecv] at hstep
  | stop =>
    cases hstep
    exact .of_finished h.limit_eq h.small h.returned rfl

end Steps

/-- When the future waits and no byte is on the way, every frame has been returned. -/
theorem Inv.returned_eq (h : Inv limit w) (hrecv : w.recv = .reading) (hsocket : w.socket = []) :
    w.returned = w.sent := by
  obtain ⟨taken, hstream, htaken⟩ := h.taken (by simp [hrecv])
  have hwaiting := h.waiting (by simp [hrecv]) (by simp [hrecv])
  have hidle : parse limit w.conn.pending = ([], w.conn.pending) :=
    parse_of_not_complete (by simp [hwaiting])
  rw [hrecv, hsocket] at hstream
  obtain rfl : taken = stream w.sent := by simpa [RecvState.held] using hstream
  rw [Accounted, stream, parse_frames h.small, hidle, List.append_nil, Prod.mk.injEq] at htaken
  have hdrop : w.sent.dropWhile (·.length ≤ limit) = [] := by
    cases hrest : w.sent.dropWhile (·.length ≤ limit) with
    | nil => rfl
    | cons payload rest =>
      -- the first frame above the limit would be at the front of `pending`
      have hne : w.sent.dropWhile (·.length ≤ limit) ≠ [] := by simp [hrest]
      have hbig : ¬ payload.length ≤ limit := by
        simpa [hrest] using List.head_dropWhile_not _ hne
      have hmem : payload ∈ w.sent :=
        (List.dropWhile_suffix _).subset (hrest ▸ List.mem_cons_self)
      rw [hrest, List.map_cons, List.flatten_cons] at htaken
      have hpending : frame payload ++ (rest.map frame).flatten = w.conn.pending := htaken.2
      rw [← hpending, head_frame_append_of_lt (Nat.lt_of_not_le hbig) (h.small payload hmem)]
        at hwaiting
      cases hwaiting
  calc w.returned = w.sent.takeWhile (·.length ≤ limit) := htaken.1.symm
    _ = w.sent.takeWhile (·.length ≤ limit) ++ w.sent.dropWhile (·.length ≤ limit) := by
      rw [hdrop, List.append_nil]
    _ = w.sent := List.takeWhile_append_dropWhile

/-- As long as no read without a future takes bytes, successive calls of `recv` return
the frames that the peer sent, in order; and when a call waits with nothing on the
way, they have returned all of them. -/
theorem returned_of_reach {limit : Nat} {w : World}
    (h : Reach step NothingDiscarded (start limit) w) :
    w.returned <+: w.sent ∧ (w.recv = .reading → w.socket = [] → w.returned = w.sent) := by
  have hinv : Inv limit w :=
    h.invariant (Inv limit) (inv_start limit) fun _ _ _ hs ha hstep => inv_step hs ha hstep
  exact ⟨hinv.returned, hinv.returned_eq⟩

/-- The future is dropped before it is polled, and again while it waits, but its read
never takes a byte. -/
theorem returned_of_reach_two :
    ∃ w, Reach step NothingDiscarded (start 16) w ∧ w.returned = [[7], [8, 9]] ∧
      (w.returned <+: w.sent ∧ (w.recv = .reading → w.socket = [] → w.returned = w.sent)) := by
  have hreach : Reach step NothingDiscarded (start 16) _ :=
    reach_of_run [.dropRecv, .poll, .dropRecv, .peerSend [7], .peerSend [8, 9], .poll, .complete 3,
      .poll, .complete 8, .poll, .poll, .poll] rfl
  exact ⟨_, hreach, rfl, returned_of_reach hreach⟩

/-- The read of a dropped future takes the first frame, and the next call returns the
second one. -/
theorem returned_not_prefix :
    ∃ w, Reach step Anything (start 16) w ∧ w.sent = [[7], [8]] ∧ w.returned = [[8]] ∧
      ¬ w.returned <+: w.sent := by
  have hreach : Reach step Anything (start 16) _ :=
    reach_of_run [.poll, .dropRecv, .peerSend [7], .peerSend [8], .completeOrphan 5, .poll,
      .complete 5, .poll] rfl
  exact ⟨_, hreach, rfl, rfl, by decide⟩

end Uring

end IronSbe.Transport
