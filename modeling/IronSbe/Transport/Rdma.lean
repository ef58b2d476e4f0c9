import IronSbe.Lib.Framing
import IronSbe.Lib.Transition

/-!
# RDMA connections

An `RdmaConnection` has one registered buffer for sending, and `send` returns as soon
as its work request is posted.  The device reads the buffer later, in its own time, and
up to sixteen requests may be outstanding, all of them for the same buffer.  On the
receiving side there are sixteen buffers, which go from the device to `recv` and back.

The model has both ends of a connection.  The steps of `send` that touch the buffer are
separate, so that the device can read between any two of them.

* `consumePendingRecv_eq`: the result of `recv` is a function of the bytes that were
  placed in the buffer.
* `Endpoint.Inv`: where the receive buffers are, and what they hold.
* `Link`: the bytes between the two ends are the frames of the messages on their way.
* `returned_intact_of_reach`: the peer gets the messages as long as no call of `send` writes
  the buffer while a request has not been read.
-/

namespace IronSbe.Transport.Rdma

open Lib.Bytes Lib.Framing Lib.Transition List

/-- The length in front of every message. -/
def lengthPrefixBytes : Nat := 4

/-- Number of receive requests posted in advance. -/
def recvDepth : Nat := 16

/-- The entries of the completion queue. -/
def cqCapacity : Nat := 32

/-- The entries that are kept for receives. -/
def cqRecvHeadroom : Nat := recvDepth

/-- From this many pending sends on `send` drains the queue first. -/
def cqDrainHighWater : Nat := cqCapacity - cqRecvHeadroom

/-- Below this many it stops draining. -/
def cqDrainLowWater : Nat := cqDrainHighWater / 2

/-- A completed receive: the buffer, and how much of it was filled. -/
structure PendingRecv where
  bufIdx : Nat
  byteLen : Nat
  deriving DecidableEq, Repr

/-- An entry of the completion queue. -/
inductive Completion where
  | send
  | recv (pending : PendingRecv)
  | other
  | failed (status : Nat)
  deriving DecidableEq, Repr

/-- The outcome of one `drain_cq`. -/
inductive Drained where
  | empty
  | send
  | recv
  | other
  deriving DecidableEq, Repr

/-- The errors of a connection. -/
inductive RdmaError where
  | completion (status : Nat)
  | malformed (byteLen : Nat)
  | oversized (msgLen maxMsgSize : Nat)
  | truncated (total byteLen : Nat)
  | tooLong (length maxMsgSize : Nat)
  | lengthExceedsU32 (length : Nat)
  | framedLengthOverflow
  | framedLengthExceedsU32 (total : Nat)
  | postRecv (ret : Nat)
  | postSend (ret : Nat)
  | counterOverflow
  deriving DecidableEq, Repr

/-- The texts of the errors. -/
def RdmaError.message : RdmaError → String
  | .completion status => "RDMA work completion error: status=" ++ toString status
  | .malformed byteLen =>
    "malformed RDMA frame: byte_len " ++ toString byteLen ++ " < prefix " ++
      toString lengthPrefixBytes
  | .oversized msgLen maxMsgSize =>
    "oversized RDMA frame: msg_len " ++ toString msgLen ++ " > max_msg_size " ++
      toString maxMsgSize
  | .truncated total byteLen =>
    "truncated RDMA frame: declared " ++ toString total ++ " bytes, got " ++ toString byteLen
  | .tooLong length maxMsgSize =>
    "message length " ++ toString length ++ " exceeds max_msg_size " ++ toString maxMsgSize
  | .lengthExceedsU32 length => "message length " ++ toString length ++ " exceeds u32::MAX"
  | .framedLengthOverflow => "framed message length overflow"
  | .framedLengthExceedsU32 total => "framed length " ++ toString total ++ " exceeds u32::MAX"
  | .postRecv ret => "ibv_post_recv failed: " ++ toString ret
  | .postSend ret => "ibv_post_send failed: " ++ toString ret
  | .counterOverflow => "pending_sends counter overflow"

/-- A posted request to send the first `length` bytes of the send buffer. -/
structure SendRequest where
  length : Nat
  /-- The device has read the bytes. -/
  read : Bool := false
  deriving DecidableEq, Repr

/-- A connection with the queues of its device. -/
structure RdmaConnection where
  maxMsgSize : Nat
  sendBuf : List UInt8
  recvBufs : List (List UInt8)
  pendingSends : Nat := 0
  pendingRecvs : List PendingRecv := []
  /-- Requests to send that have not been completed, in posting order. -/
  sendQueue : List SendRequest := []
  /-- The buffers posted for receiving. -/
  recvQueue : List Nat
  cq : List Completion := []
  deriving DecidableEq, Repr

namespace RdmaConnection

/-- `from_accepted_cm_id`, for a device that takes every registration. -/
def new (maxMsgSize : Nat) : RdmaConnection where
  maxMsgSize := maxMsgSize
  sendBuf := List.replicate (lengthPrefixBytes + maxMsgSize) 0
  recvBufs := List.replicate recvDepth (List.replicate (lengthPrefixBytes + maxMsgSize) 0)
  recvQueue := List.range recvDepth

/-- `post_recv`; `ret` is the answer of the device. -/
def postRecv (c : RdmaConnection) (idx ret : Nat) : Except RdmaError Unit × RdmaConnection :=
  if ret ≠ 0 then (.error (.postRecv ret), c)
  else (.ok (), { c with recvQueue := c.recvQueue ++ [idx] })

/-- `drain_cq`: one entry of the completion queue. -/
def drainCq (c : RdmaConnection) : Except RdmaError Drained × RdmaConnection :=
  match c.cq with
  | [] => (.ok .empty, c)
  | .failed status :: cq => (.error (.completion status), { c with cq := cq })
  | .recv pending :: cq =>
    (.ok .recv, { c with cq := cq, pendingRecvs := c.pendingRecvs ++ [pending] })
  | .send :: cq => (.ok .send, { c with cq := cq, pendingSends := c.pendingSends - 1 })
  | .other :: cq => (.ok .other, { c with cq := cq })

/-- The framing rules of `consume_pending_recv` for a buffer of which `byteLen` bytes
were filled. -/
def decodeFrame (maxMsgSize : Nat) (buf : List UInt8) (byteLen : Nat) :
    Except RdmaError (Option (List UInt8)) :=
  if byteLen < lengthPrefixBytes then .error (.malformed byteLen)
  else
    let msgLen := leNat (buf.take 4)
    let total := lengthPrefixBytes + msgLen
    if maxMsgSize < msgLen then .error (.oversized msgLen maxMsgSize)
    else if byteLen < total then .error (.truncated total byteLen)
    else .ok (some ((buf.take total).drop lengthPrefixBytes))

/-- `consume_pending_recv`: every path posts the buffer again. -/
def consumePendingRecv (c : RdmaConnection) (pending : PendingRecv) (ret : Nat) :
    Except RdmaError (Option (List UInt8)) × RdmaConnection :=
  let result := decodeFrame c.maxMsgSize (c.recvBufs.getD pending.bufIdx []) pending.byteLen
  match c.postRecv pending.bufIdx ret with
  | (.error e, c) => (.error e, c)
  | (.ok (), c) => (result, c)

/-- One poll of `recv`, where `none` is `Poll::Pending`. -/
def recv (c : RdmaConnection) (ret : Nat) :
    Option (Except RdmaError (Option (List UInt8))) × RdmaConnection :=
  match c.pendingRecvs with
  | pending :: rest =>
    let r := { c with pendingRecvs := rest }.consumePendingRecv pending ret
    (some r.1, r.2)
  | [] =>
    match c.drainCq with
    | (.error e, c) => (some (.error e), c)
    | (.ok .recv, c) =>
      match c.pendingRecvs with
      | pending :: rest =>
        let r := { c with pendingRecvs := rest }.consumePendingRecv pending ret
        (some r.1, r.2)
      | [] => (none, c)
    | (.ok _, c) => (none, c)

/-- The copy of the length prefix into `send_buf`. -/
def writePrefix (c : RdmaConnection) (msg : List UInt8) : RdmaConnection :=
  { c with sendBuf := leBytes 4 msg.length ++ c.sendBuf.drop lengthPrefixBytes }

/-- The copy of the payload into `send_buf`. -/
def writePayload (c : RdmaConnection) (msg : List UInt8) : RdmaConnection :=
  { c with
    sendBuf := c.sendBuf.take lengthPrefixBytes ++ msg ++
      c.sendBuf.drop (lengthPrefixBytes + msg.length) }

/-- The end of `send`: post the request and count it; `ret` is the answer of the device. -/
def postSend (c : RdmaConnection) (msg : List UInt8) (ret : Nat) :
    Except RdmaError Unit × RdmaConnection :=
  let total := lengthPrefixBytes + msg.length
  if 2 ^ 64 ≤ total then (.error .framedLengthOverflow, c)
  else if 2 ^ 32 ≤ total then (.error (.framedLengthExceedsU32 total), c)
  else if ret ≠ 0 then (.error (.postSend ret), c)
  else
    let c := { c with sendQueue := c.sendQueue ++ [{ length := total }] }
    if 2 ^ 32 ≤ c.pendingSends + 1 then (.error .counterOverflow, c)
    else (.ok (), { c with pendingSends := c.pendingSends + 1 })

end RdmaConnection

/-! ## Two ends -/

/-- Where a call of `send` is. -/
inductive Call where
  | idle
  /-- In `drain_until_low_water`. -/
  | draining (msg : List UInt8)
  /-- Before the copy of the prefix, before that of the payload, and before the post. -/
  | writing (msg : List UInt8)
  | copying (msg : List UInt8)
  | posting (msg : List UInt8)
  deriving DecidableEq, Repr

/-- One end of a connection. -/
structure Endpoint where
  conn : RdmaConnection
  call : Call := .idle
  /-- What the device has read and the peer's device has not placed. -/
  wire : List (List UInt8) := []
  /-- The messages for which `send` returned `Ok`. -/
  accepted : List (List UInt8) := []
  /-- What was placed in the receive buffers, and what `recv` made of it. -/
  delivered : List (List UInt8) := []
  returned : List (Except RdmaError (Option (List UInt8))) := []
  deriving DecidableEq, Repr

/-- The first request that the device has not read: its length, and the queue after the
device has read it. -/
def readNext : List SendRequest → Option (Nat × List SendRequest)
  | [] => none
  | request :: queue =>
    if request.read then (readNext queue).map fun (length, queue) => (length, request :: queue)
    else some (request.length, { request with read := true } :: queue)

/-- What a poll of `recv` adds to the results: an error of the completion queue itself
uses up no receive. -/
def handedOver : Option (Except RdmaError (Option (List UInt8))) →
    List (Except RdmaError (Option (List UInt8)))
  | none => []
  | some (.error (.completion _)) => []
  | some result => [result]

/-- The steps of one side. -/
inductive LocalAction where
  /-- The application calls `send`. -/
  | send (msg : List UInt8)
  /-- A step of `drain_until_low_water`, or the end of the call in its sleep. -/
  | drain
  | cancel
  | writePrefix
  | writePayload
  | post (ret : Nat)
  /-- The application polls `recv`. -/
  | recv
  /-- The device reads the bytes of the next request. -/
  | read
  /-- The oldest request is complete. -/
  | complete
  /-- Another completion, one that belongs to no request of this model. -/
  | stray (status : Option Nat)
  deriving DecidableEq, Repr

namespace Endpoint

/-- One step of the application or of the device.  The device takes every request to
receive. -/
def step (e : Endpoint) : LocalAction → Option Endpoint
  | .send msg =>
    if e.call = .idle then
      if e.conn.maxMsgSize < msg.length then some e
      else if cqDrainHighWater ≤ e.conn.pendingSends then some { e with call := .draining msg }
      else some { e with call := .writing msg }
    else none
  | .drain =>
    match e.call with
    | .draining msg =>
      let r := e.conn.drainCq
      match r.1 with
      | .error _ => some { e with conn := r.2, call := .idle }
      | .ok _ =>
        if cqDrainLowWater ≤ r.2.pendingSends then some { e with conn := r.2 }
        else some { e with conn := r.2, call := .writing msg }
    | _ => none
  | .cancel =>
    match e.call with
    | .draining _ => some { e with call := .idle }
    | _ => none
  | .writePrefix =>
    match e.call with
    | .writing msg =>
      -- a length that is no `u32` is refused before the copy
      if 2 ^ 32 ≤ msg.length then some { e with call := .idle }
      else some { e with conn := e.conn.writePrefix msg, call := .copying msg }
    | _ => none
  | .writePayload =>
    match e.call with
    | .copying msg => some { e with conn := e.conn.writePayload msg, call := .posting msg }
    | _ => none
  | .post ret =>
    match e.call with
    | .posting msg =>
      let r := e.conn.postSend msg ret
      match r.1 with
      | .error _ => some { e with conn := r.2, call := .idle }
      | .ok () => some { e with conn := r.2, call := .idle, accepted := e.accepted ++ [msg] }
    | _ => none
  | .recv =>
    if e.call = .idle then
      let r := e.conn.recv 0
      some { e with conn := r.2, returned := e.returned ++ handedOver r.1 }
    else none
  | .read =>
    match readNext e.conn.sendQueue with
    | none => none
    | some (length, queue) =>
      some { e with
        conn := { e.conn with sendQueue := queue }, wire := e.wire ++ [e.conn.sendBuf.take length] }
  | .complete =>
    match e.conn.sendQueue with
    | ⟨_, true⟩ :: queue =>
      some { e with conn := { e.conn with sendQueue := queue, cq := e.conn.cq ++ [.send] } }
    | _ => none
  | .stray none => some { e with conn := { e.conn with cq := e.conn.cq ++ [.other] } }
  | .stray (some status) =>
    some { e with conn := { e.conn with cq := e.conn.cq ++ [.failed status] } }

/-- The peer's device places what was read in the next receive buffer. -/
def deliver (s r : Endpoint) : Option (Endpoint × Endpoint) :=
  match s.wire, r.conn.recvQueue with
  | bytes :: wire, idx :: queue =>
    let buf := r.conn.recvBufs.getD idx []
    -- a message that is too long for the buffer is not placed
    if bytes.length ≤ buf.length then
      some ({ s with wire := wire },
        { r with
          conn := { r.conn with
            recvBufs := r.conn.recvBufs.set idx (bytes ++ buf.drop bytes.length)
            recvQueue := queue
            cq := r.conn.cq ++ [.recv ⟨idx, bytes.length⟩] }
          delivered := r.delivered ++ [bytes] })
    else none
  | _, _ => none

end Endpoint

/-- The two sides of a connection. -/
structure World where
  left : Endpoint
  right : Endpoint
  deriving DecidableEq, Repr

/-- A step of a side, or a message on its way. -/
inductive Action where
  | left (a : LocalAction)
  | right (a : LocalAction)
  | toLeft
  | toRight
  deriving DecidableEq, Repr

/-- A step, if it is possible. -/
def step (w : World) : Action → Option World
  | .left a => (w.left.step a).map fun e => { w with left := e }
  | .right a => (w.right.step a).map fun e => { w with right := e }
  | .toLeft => (w.right.deliver w.left).map fun p => ⟨p.2, p.1⟩
  | .toRight => (w.left.deliver w.right).map fun p => ⟨p.1, p.2⟩

/-- A new connection, with the limits of its two ends. -/
def start (maxLeft maxRight : Nat) : World where
  left := { conn := .new maxLeft }
  right := { conn := .new maxRight }

/-- The requests that the device has not read. -/
def unreadRequests (queue : List SendRequest) : List SendRequest := queue.filter (!·.read)

/-- `send` writes its buffer only when the device has read every posted request. -/
def Endpoint.BufferFree (e : Endpoint) : LocalAction → Prop
  | .writePrefix => unreadRequests e.conn.sendQueue = []
  | _ => True

/-- No step of a side writes into a buffer that the hardware still reads. -/
def NothingOverwritten (w : World) : Action → Prop
  | .left a => w.left.BufferFree a
  | .right a => w.right.BufferFree a
  | _ => True

instance (e : Endpoint) (a : LocalAction) : Decidable (e.BufferFree a) := by
  cases a <;> unfold Endpoint.BufferFree <;> infer_instance

instance (w : World) (a : Action) : Decidable (NothingOverwritten w a) := by
  cases a <;> unfold NothingOverwritten <;> infer_instance

/-! ## Framing -/

namespace RdmaConnection

/-- Only the bytes that were placed in the buffer matter. -/
theorem decodeFrame_take (maxMsgSize : Nat) {buf : List UInt8} {byteLen : Nat}
    (h : byteLen ≤ buf.length) :
    decodeFrame maxMsgSize (buf.take byteLen) (buf.take byteLen).length =
      decodeFrame maxMsgSize buf byteLen := by
  have hlen : (buf.take byteLen).length = byteLen := length_take_of_le h
  unfold decodeFrame
  rw [hlen]
  split_ifs with hshort
  · rfl
  have htake : (buf.take byteLen).take 4 = buf.take 4 := by
    rw [take_take, Nat.min_eq_left (show 4 ≤ byteLen from Nat.le_of_not_lt hshort)]
  simp only [htake]
  split_ifs with hmax htotal
  · rfl
  · rfl
  · rw [take_take, Nat.min_eq_left (Nat.le_of_not_lt htotal)]

/-- A frame within the limits is decoded to its message. -/
theorem decodeFrame_frame {maxMsgSize : Nat} {msg : List UInt8}
    (hfit : (frame msg).length ≤ lengthPrefixBytes + maxMsgSize) (hsmall : msg.length < 2 ^ 32) :
    decodeFrame maxMsgSize (frame msg) (frame msg).length = .ok (some msg) := by
  have hpre : (leBytes 4 msg.length).length = 4 := length_leBytes 4 _
  have htake : (frame msg).take 4 = leBytes 4 msg.length := by
    rw [frame, take_left' hpre]
  have hval : leNat (leBytes 4 msg.length) = msg.length := leNat_leBytes (by simpa using hsmall)
  rw [length_frame, lengthPrefixBytes] at hfit
  unfold decodeFrame
  simp only [htake, hval, lengthPrefixBytes, length_frame]
  rw [if_neg (by omega), if_neg (by omega), if_neg (by omega)]
  have hwhole : (frame msg).take (4 + msg.length) = frame msg :=
    take_of_length_le (by rw [length_frame]; omega)
  rw [hwhole, frame, drop_left' hpre]

theorem handedOver_decodeFrame (maxMsgSize : Nat) (buf : List UInt8) (byteLen : Nat) :
    handedOver (some (decodeFrame maxMsgSize buf byteLen)) =
      [decodeFrame maxMsgSize buf byteLen] := by
  unfold decodeFrame
  dsimp only
  split_ifs <;> rfl

/-! ## The completion queue -/

/-- The receives that have been completed and not been handed to the application, in
the order of their completion. -/
def arrivals (c : RdmaConnection) : List PendingRecv :=
  c.pendingRecvs ++ c.cq.filterMap fun
    | .recv pending => some pending
    | _ => none

/-- The bytes that were placed for a receive. -/
def contents (c : RdmaConnection) (pending : PendingRecv) : List UInt8 :=
  (c.recvBufs.getD pending.bufIdx []).take pending.byteLen

/-- The connection differs from `c` in its completion queue and its counters only. -/
structure Polled (c c' : RdmaConnection) : Prop where
  maxMsgSize : c'.maxMsgSize = c.maxMsgSize
  sendBuf : c'.sendBuf = c.sendBuf
  recvBufs : c'.recvBufs = c.recvBufs
  sendQueue : c'.sendQueue = c.sendQueue
  pendingSends : c'.pendingSends ≤ c.pendingSends

/-- A step of draining loses no receive. -/
theorem drainCq_spec (c : RdmaConnection) :
    Polled c c.drainCq.2 ∧ c.drainCq.2.recvQueue = c.recvQueue ∧
      c.drainCq.2.arrivals = c.arrivals := by
  unfold drainCq
  cases hcq : c.cq with
  | nil => exact ⟨⟨rfl, rfl, rfl, rfl, Nat.le_refl _⟩, rfl, rfl⟩
  | cons entry cq =>
    cases entry with
    | send => exact ⟨⟨rfl, rfl, rfl, rfl, Nat.sub_le _ _⟩, rfl, by simp [arrivals, hcq]⟩
    | recv pending | other | failed status =>
      exact ⟨⟨rfl, rfl, rfl, rfl, Nat.le_refl _⟩, rfl, by simp [arrivals, hcq]⟩

/-- What a poll of `recv` does with its connection, when it hands over the receive
`pending` and posts its buffer again. -/
structure HandsOver (c : RdmaConnection) (pending : PendingRecv) (c' : RdmaConnection) : Prop where
  polled : Polled c c'
  arrivals : c.arrivals = pending :: c'.arrivals
  recvQueue : c'.recvQueue = c.recvQueue ++ [pending.bufIdx]

/-- The result of `recv` is that of the framing rules, and the buffer is posted again. -/
theorem consumePendingRecv_eq (c : RdmaConnection) (pending : PendingRecv) :
    c.consumePendingRecv pending 0 =
      (decodeFrame c.maxMsgSize (c.recvBufs.getD pending.bufIdx []) pending.byteLen,
        { c with recvQueue := c.recvQueue ++ [pending.bufIdx] }) := rfl

/-- A poll of `recv` waits, fails on the completion queue, or hands over the oldest
receive. -/
theorem recv_cases (c : RdmaConnection) :
    (∃ c', Polled c c' ∧ c'.recvQueue = c.recvQueue ∧ c'.arrivals = c.arrivals ∧
      (c.recv 0 = (none, c') ∨ ∃ status, c.drainCq.1 = .error (.completion status) ∧
        c.recv 0 = (some (.error (.completion status)), c'))) ∨
    ∃ pending c', HandsOver c pending c' ∧
      c.recv 0 = (some (decodeFrame c.maxMsgSize (c.recvBufs.getD pending.bufIdx [])
        pending.byteLen), c') := by
  obtain ⟨hpolled, hqueue, harrivals⟩ := c.drainCq_spec
  cases hpending : c.pendingRecvs with
  | cons pending rest =>
    have hover : HandsOver c pending
        { c with pendingRecvs := rest, recvQueue := c.recvQueue ++ [pending.bufIdx] } :=
      ⟨⟨rfl, rfl, rfl, rfl, Nat.le_refl _⟩, by simp [arrivals, hpending], rfl⟩
    refine .inr ⟨pending, _, hover, ?_⟩
    simp [recv, hpending, consumePendingRecv_eq]
  | nil =>
    have hrecv := recv.eq_1 c 0
    rw [hpending] at hrecv
    cases hcq : c.cq with
    | nil =>
      have hdrain : c.drainCq = (.ok .empty, c) := by simp [drainCq, hcq]
      rw [hdrain] at hrecv
      exact .inl ⟨c, ⟨rfl, rfl, rfl, rfl, Nat.le_refl _⟩, rfl, rfl, .inl hrecv⟩
    | cons entry cq =>
      cases entry with
      | recv pending =>
        have hdrain : c.drainCq = (.ok .recv, { c with cq := cq, pendingRecvs := [pending] }) := by
          simp [drainCq, hcq, hpending]
        rw [hdrain] at hrecv
        have hover : HandsOver c pending
            { c with
              cq := cq, pendingRecvs := [], recvQueue := c.recvQueue ++ [pending.bufIdx] } :=
          ⟨⟨rfl, rfl, rfl, rfl, Nat.le_refl _⟩, by simp [arrivals, hpending, hcq], rfl⟩
        exact .inr ⟨pending, _, hover, hrecv⟩
      | send | other =>
        refine .inl ⟨_, hpolled, hqueue, harrivals, .inl (hrecv.trans ?_)⟩
        simp [drainCq, hcq]
      | failed status =>
        refine .inl ⟨_, hpolled, hqueue, harrivals, .inr ⟨status, ?_, hrecv.trans ?_⟩⟩
        all_goals simp [drainCq, hcq]

end RdmaConnection

/-! ## The receiving side -/

/-- The receive buffers of a connection, when `delivered` has been placed in them and
`returned` has been handed over.  Every posted or completed receive has its own buffer,
so what was placed stays there until it is handed over. -/
structure Receiving (c : RdmaConnection) (delivered : List (List UInt8))
    (returned : List (Except RdmaError (Option (List UInt8)))) : Prop where
  size : ∀ buf ∈ c.recvBufs, buf.length = lengthPrefixBytes + c.maxMsgSize
  nodup : (c.recvQueue ++ c.arrivals.map (·.bufIdx)).Nodup
  bound : ∀ idx ∈ c.recvQueue ++ c.arrivals.map (·.bufIdx), idx < c.recvBufs.length
  fits : ∀ pending ∈ c.arrivals, pending.byteLen ≤ lengthPrefixBytes + c.maxMsgSize
  placed : ∀ bytes ∈ delivered, bytes.length ≤ lengthPrefixBytes + c.maxMsgSize
  handed : ∃ done, delivered = done ++ c.arrivals.map c.contents ∧
    returned = done.map fun bytes => RdmaConnection.decodeFrame c.maxMsgSize bytes bytes.length

namespace Receiving

variable {c c' : RdmaConnection} {delivered : List (List UInt8)}
  {returned : List (Except RdmaError (Option (List UInt8)))}

section

variable (h : Receiving c delivered returned)
include h

/-- What the sending side does leaves the receive buffers alone. -/
theorem congr (hmax : c'.maxMsgSize = c.maxMsgSize) (hbufs : c'.recvBufs = c.recvBufs)
    (hqueue : c'.recvQueue = c.recvQueue) (harrivals : c'.arrivals = c.arrivals) :
    Receiving c' delivered returned := by
  have hcontents : c'.contents = c.contents := by
    unfold RdmaConnection.contents
    rw [hbufs]
  constructor
  all_goals simp only [hmax, hbufs, hqueue, harrivals, hcontents]
  exacts [h.size, h.nodup, h.bound, h.fits, h.placed, h.handed]

theorem length_buf {idx : Nat} (hidx : idx < c.recvBufs.length) :
    (c.recvBufs.getD idx []).length = lengthPrefixBytes + c.maxMsgSize := by
  rw [← getElem_eq_getD (h := hidx)]
  exact h.size _ (getElem_mem hidx)

/-- The oldest receive is handed over, and its buffer is free again. -/
theorem handOver {pending : PendingRecv} (hover : RdmaConnection.HandsOver c pending c') :
    Receiving c' delivered (returned ++ [RdmaConnection.decodeFrame c.maxMsgSize
      (c.recvBufs.getD pending.bufIdx []) pending.byteLen]) := by
  have hcontents : c'.contents = c.contents := by
    unfold RdmaConnection.contents
    rw [hover.polled.recvBufs]
  have hperm : (c'.recvQueue ++ c'.arrivals.map (·.bufIdx)) =
      c.recvQueue ++ c.arrivals.map (·.bufIdx) := by
    rw [hover.recvQueue, hover.arrivals]
    simp
  have hmem : pending ∈ c.arrivals := hover.arrivals ▸ mem_cons_self
  have hlen := h.length_buf (h.bound pending.bufIdx
    (mem_append_right _ (mem_map_of_mem hmem)))
  obtain ⟨done, hdelivered, hreturned⟩ := h.handed
  refine ⟨?_, hperm ▸ h.nodup, ?_, ?_, ?_, done ++ [c.contents pending], ?_, ?_⟩
  · rw [hover.polled.recvBufs, hover.polled.maxMsgSize]
    exact h.size
  · rw [hperm, hover.polled.recvBufs]
    exact h.bound
  · intro p hp
    rw [hover.polled.maxMsgSize]
    exact h.fits p (hover.arrivals ▸ mem_cons_of_mem _ hp)
  · rw [hover.polled.maxMsgSize]
    exact h.placed
  · rw [hdelivered, hover.arrivals, hcontents]
    simp
  · rw [map_append, hover.polled.maxMsgSize, hreturned]
    congr 1
    rw [map_singleton, RdmaConnection.contents, RdmaConnection.decodeFrame_take]
    exact (h.fits pending hmem).trans hlen.ge

/-- The device places a message in one of the posted buffers. -/
theorem place_of_perm {idx : Nat} {queue : List Nat} (hqueue : c.recvQueue.Perm (idx :: queue))
    {bytes : List UInt8} (hbytes : bytes.length ≤ (c.recvBufs.getD idx []).length) :
    Receiving
      { c with
        recvBufs := c.recvBufs.set idx (bytes ++ (c.recvBufs.getD idx []).drop bytes.length)
        recvQueue := queue
        cq := c.cq ++ [.recv ⟨idx, bytes.length⟩] }
      (delivered ++ [bytes]) returned := by
  generalize hnew : ({ c with
    recvBufs := c.recvBufs.set idx (bytes ++ (c.recvBufs.getD idx []).drop bytes.length)
    recvQueue := queue
    cq := c.cq ++ [.recv ⟨idx, bytes.length⟩] } : RdmaConnection) = c'
  have hmax : c'.maxMsgSize = c.maxMsgSize := by rw [← hnew]
  have harrivals : c'.arrivals = c.arrivals ++ [⟨idx, bytes.length⟩] := by
    rw [← hnew]
    simp [RdmaConnection.arrivals]
  have hposted : idx ∈ c.recvQueue := hqueue.mem_iff.mpr mem_cons_self
  have hidx : idx < c.recvBufs.length := h.bound idx (mem_append_left _ hposted)
  have hlen := h.length_buf hidx
  have hperm : (c'.recvQueue ++ c'.arrivals.map (·.bufIdx)).Perm
      (c.recvQueue ++ c.arrivals.map (·.bufIdx)) := by
    rw [harrivals, ← hnew, map_append, ← append_assoc]
    exact (perm_append_singleton _ _).trans (hqueue.symm.append_right _)
  -- the buffer is not one of those that hold an earlier message
  have hother : ∀ pending ∈ c.arrivals, c'.contents pending = c.contents pending := by
    intro pending hmem
    have hne : idx ≠ pending.bufIdx :=
      (nodup_append.mp h.nodup).2.2 idx hposted _ (mem_map_of_mem hmem)
    rw [← hnew, RdmaConnection.contents, RdmaConnection.contents, getD_eq_getElem?_getD,
      getElem?_set_ne hne, ← getD_eq_getElem?_getD]
  have hthis : c'.contents ⟨idx, bytes.length⟩ = bytes := by
    rw [← hnew, RdmaConnection.contents, getD_eq_getElem?_getD, getElem?_set_self hidx,
      Option.getD_some, take_left]
  obtain ⟨done, hdelivered, hreturned⟩ := h.handed
  refine ⟨?_, hperm.nodup_iff.mpr h.nodup, ?_, ?_, ?_, done, ?_, ?_⟩
  · intro buf hbuf
    rw [← hnew] at hbuf
    rw [hmax]
    rcases mem_or_eq_of_mem_set hbuf with hbuf | rfl
    · exact h.size buf hbuf
    · rw [length_append, length_drop, hlen]
      omega
  · intro i hi
    have hbound := h.bound i (hperm.mem_iff.mp hi)
    rw [← hnew]
    simpa using hbound
  · rw [harrivals, hmax]
    exact forall_mem_append.mpr ⟨h.fits, forall_mem_singleton.mpr (hlen ▸ hbytes)⟩
  · rw [hmax]
    exact forall_mem_append.mpr ⟨h.placed, forall_mem_singleton.mpr (hlen ▸ hbytes)⟩
  · rw [hdelivered, harrivals, map_append, map_singleton, hthis, map_congr_left hother,
      append_assoc]
  · rw [hmax]
    exact hreturned

end

end Receiving

/-! ## The sending side -/

/-- The bytes that the device would send for the requests it has not read. -/
def RdmaConnection.unread (c : RdmaConnection) : List (List UInt8) :=
  (unreadRequests c.sendQueue).map fun request => c.sendBuf.take request.length

/-- What is known of the connection while a call of `send` is at its place. -/
def Call.Ready (c : RdmaConnection) : Call → Prop
  | .idle => True
  | .draining msg => msg.length ≤ c.maxMsgSize
  | .writing msg => msg.length ≤ c.maxMsgSize ∧ c.pendingSends < cqDrainHighWater
  | .copying msg => msg.length ≤ c.maxMsgSize ∧ c.pendingSends < cqDrainHighWater ∧
      unreadRequests c.sendQueue = [] ∧ c.sendBuf.take 4 = leBytes 4 msg.length
  | .posting msg => msg.length ≤ c.maxMsgSize ∧ c.pendingSends < cqDrainHighWater ∧
      unreadRequests c.sendQueue = [] ∧ c.sendBuf.take (4 + msg.length) = frame msg

theorem unreadRequests_of_readNext {queue queue' : List SendRequest} {length : Nat}
    (h : readNext queue = some (length, queue')) :
    unreadRequests queue = ⟨length, false⟩ :: unreadRequests queue' := by
  induction queue generalizing queue' with
  | nil => cases h
  | cons request queue ih =>
    rw [readNext] at h
    split_ifs at h with hread
    · obtain ⟨⟨l, q⟩, hq, heq⟩ := Option.map_eq_some_iff.mp h
      cases heq
      simpa [unreadRequests, hread] using ih hq
    · cases h
      obtain ⟨l, read⟩ := request
      obtain rfl : read = false := by simpa using hread
      simp [unreadRequests]

/-- The request is posted and counted, or nothing changes. -/
theorem postSend_cases {c : RdmaConnection} (hpending : c.pendingSends < cqDrainHighWater)
    (msg : List UInt8) (ret : Nat) :
    (∃ e, c.postSend msg ret = (.error e, c)) ∨
      (msg.length < 2 ^ 32 ∧ c.postSend msg ret = (.ok (), { c with
        sendQueue := c.sendQueue ++ [{ length := 4 + msg.length }]
        pendingSends := c.pendingSends + 1 })) := by
  have hhigh : cqDrainHighWater = 16 := rfl
  unfold RdmaConnection.postSend
  dsimp only
  split_ifs with h64 h32 hret hcount
  · exact .inl ⟨_, rfl⟩
  · exact .inl ⟨_, rfl⟩
  · exact .inl ⟨_, rfl⟩
  · omega
  · exact .inr ⟨by rw [lengthPrefixBytes] at h32; omega, rfl⟩

theorem Call.Ready.congr {c c' : RdmaConnection} {call : Call} (h : call.Ready c)
    (hmax : c'.maxMsgSize = c.maxMsgSize) (hbuf : c'.sendBuf = c.sendBuf)
    (hqueue : unreadRequests c'.sendQueue = unreadRequests c.sendQueue)
    (hpending : c'.pendingSends ≤ c.pendingSends) : call.Ready c' := by
  cases call with
  | idle => trivial
  | draining msg => exact le_of_le_of_eq h hmax.symm
  | writing msg =>
    obtain ⟨hmsg, hlow⟩ := h
    exact ⟨hmax ▸ hmsg, hpending.trans_lt hlow⟩
  | copying msg | posting msg =>
    obtain ⟨hmsg, hlow, hunread, hcopied⟩ := h
    exact ⟨hmax ▸ hmsg, hpending.trans_lt hlow, hqueue.trans hunread, hbuf ▸ hcopied⟩

namespace Endpoint

/-- What holds of one end. -/
structure Inv (e : Endpoint) : Prop where
  receiving : Receiving e.conn e.delivered e.returned
  sendBuf : e.conn.sendBuf.length = lengthPrefixBytes + e.conn.maxMsgSize
  pending : e.conn.pendingSends ≤ cqDrainHighWater
  ready : e.call.Ready e.conn

/-- The bytes that have left `send` and not reached the peer. -/
def outgoing (e : Endpoint) : List (List UInt8) := e.wire ++ e.conn.unread

/-- A step takes in the messages `new` and sends their frames on their way. -/
structure Moves (e : Endpoint) (new : List (List UInt8)) (e' : Endpoint) : Prop where
  delivered : e'.delivered = e.delivered
  accepted : e'.accepted = e.accepted ++ new
  small : ∀ msg ∈ new, msg.length < 2 ^ 32
  outgoing : e'.outgoing = e.outgoing ++ new.map frame

variable {e e' : Endpoint}

/-- A step that sends nothing. -/
theorem Moves.nothing (hdelivered : e'.delivered = e.delivered)
    (haccepted : e'.accepted = e.accepted) (hwire : e'.wire = e.wire)
    (hunread : e'.conn.unread = e.conn.unread) : e.Moves [] e' := by
  refine ⟨hdelivered, by rw [haccepted, append_nil], by simp, ?_⟩
  rw [Endpoint.outgoing, Endpoint.outgoing, hwire, hunread, map_nil, append_nil]

section

variable (h : e.Inv)
include h

/-- A change of the completion queue and the counters, or of the receiving side. -/
theorem Inv.polled {c : RdmaConnection} (hpolled : RdmaConnection.Polled e.conn c)
    {returned : List (Except RdmaError (Option (List UInt8)))}
    (hreceiving : Receiving c e.delivered returned) {call : Call} (hcall : call.Ready c) :
    Inv { e with conn := c, call := call, returned := returned } ∧
      e.Moves [] { e with conn := c, call := call, returned := returned } := by
  refine ⟨⟨hreceiving, ?_, hpolled.pendingSends.trans h.pending, hcall⟩, .nothing rfl rfl rfl ?_⟩
  · show c.sendBuf.length = _ + c.maxMsgSize
    rw [hpolled.sendBuf, hpolled.maxMsgSize]
    exact h.sendBuf
  · rw [RdmaConnection.unread, RdmaConnection.unread, hpolled.sendQueue, hpolled.sendBuf]

theorem inv_send {msg : List UInt8} (hstep : e.step (.send msg) = some e') :
    e'.Inv ∧ e.Moves [] e' := by
  rw [step] at hstep
  split_ifs at hstep with hidle hlen hpending
  · cases hstep
    exact ⟨h, .nothing rfl rfl rfl rfl⟩
  · cases hstep
    exact ⟨⟨h.receiving, h.sendBuf, h.pending, Nat.le_of_not_lt hlen⟩, .nothing rfl rfl rfl rfl⟩
  · cases hstep
    exact ⟨⟨h.receiving, h.sendBuf, h.pending, Nat.le_of_not_lt hlen, Nat.lt_of_not_le hpending⟩,
      .nothing rfl rfl rfl rfl⟩

theorem inv_drain (hstep : e.step .drain = some e') : e'.Inv ∧ e.Moves [] e' := by
  rw [step] at hstep
  cases hcall : e.call with
  | draining msg =>
    have hready := h.ready
    rw [hcall] at hready
    obtain ⟨hpolled, hqueue, harrivals⟩ := e.conn.drainCq_spec
    have hreceiving :=
      h.receiving.congr hpolled.maxMsgSize hpolled.recvBufs hqueue harrivals
    have hmsg : msg.length ≤ e.conn.drainCq.2.maxMsgSize :=
      le_of_le_of_eq hready hpolled.maxMsgSize.symm
    simp only [hcall] at hstep
    cases hresult : e.conn.drainCq.1 with
    | error err =>
      rw [hresult] at hstep
      cases hstep
      exact h.polled hpolled hreceiving trivial
    | ok drained =>
      rw [hresult] at hstep
      split_ifs at hstep with hlow
      · cases hstep
        exact h.polled hpolled hreceiving hmsg
      · cases hstep
        have hhigh : cqDrainLowWater ≤ cqDrainHighWater := by decide
        exact h.polled hpolled hreceiving ⟨hmsg, (Nat.lt_of_not_le hlow).trans_le hhigh⟩
  | _ => simp [hcall] at hstep

theorem inv_recv (hstep : e.step .recv = some e') : e'.Inv ∧ e.Moves [] e' := by
  obtain ⟨hidle, rfl⟩ := of_guard hstep
  have hready : ∀ c, e.call.Ready c := by
    intro c
    rw [hidle]
    trivial
  rcases e.conn.recv_cases with ⟨c, hpolled, hqueue, harrivals, hwait⟩ | ⟨pending, c, hover, hrecv⟩
  · have hreceiving : Receiving c e.delivered (e.returned ++ []) := by
      rw [append_nil]
      exact h.receiving.congr hpolled.maxMsgSize hpolled.recvBufs hqueue harrivals
    rcases hwait with hrecv | ⟨status, -, hrecv⟩
    all_goals
      rw [hrecv]
      exact h.polled hpolled hreceiving (hready c)
  · rw [hrecv]
    rw [RdmaConnection.handedOver_decodeFrame]
    exact h.polled hover.polled (h.receiving.handOver hover) (hready c)

/-- A call of `send` writes the buffer when the device has no use for it any more. -/
theorem Inv.written {buf : List UInt8} (hlen : buf.length = e.conn.sendBuf.length)
    (hfree : unreadRequests e.conn.sendQueue = []) {call : Call}
    (hcall : call.Ready { e.conn with sendBuf := buf }) :
    Inv { e with conn := { e.conn with sendBuf := buf }, call := call } ∧
      e.Moves [] { e with conn := { e.conn with sendBuf := buf }, call := call } := by
  refine ⟨⟨h.receiving.congr rfl rfl rfl rfl, hlen.trans h.sendBuf, h.pending, hcall⟩,
    .nothing rfl rfl rfl ?_⟩
  simp [RdmaConnection.unread, hfree]

theorem inv_writePrefix (hfree : unreadRequests e.conn.sendQueue = [])
    (hstep : e.step .writePrefix = some e') : e'.Inv ∧ e.Moves [] e' := by
  rw [step] at hstep
  cases hcall : e.call with
  | writing msg =>
    have hready := h.ready
    rw [hcall] at hready
    obtain ⟨hmsg, hpending⟩ := hready
    simp only [hcall] at hstep
    have hpre : (leBytes 4 msg.length).length = 4 := length_leBytes 4 _
    split_ifs at hstep with hbig
    · cases hstep
      exact ⟨⟨h.receiving, h.sendBuf, h.pending, trivial⟩, .nothing rfl rfl rfl rfl⟩
    · cases hstep
      refine h.written ?_ hfree ⟨hmsg, hpending, hfree, take_left' hpre⟩
      rw [length_append, hpre, length_drop, h.sendBuf, lengthPrefixBytes]
      omega
  | _ => simp [hcall] at hstep

theorem inv_writePayload (hstep : e.step .writePayload = some e') :
    e'.Inv ∧ e.Moves [] e' := by
  rw [step] at hstep
  cases hcall : e.call with
  | copying msg =>
    have hready := h.ready
    rw [hcall] at hready
    obtain ⟨hmsg, hpending, hfree, hcopied⟩ := hready
    simp only [hcall] at hstep
    cases hstep
    have hpre : (leBytes 4 msg.length).length = 4 := length_leBytes 4 _
    refine h.written ?_ hfree ⟨hmsg, hpending, hfree, ?_⟩
    · simp only [length_append, length_take, length_drop, h.sendBuf,
        lengthPrefixBytes]
      omega
    · show (e.conn.sendBuf.take 4 ++ msg ++ _).take _ = frame msg
      rw [hcopied]
      exact take_left' (by simp [hpre])
  | _ => simp [hcall] at hstep

/-- The only step that takes in a message. -/
theorem inv_post {ret : Nat} (hstep : e.step (.post ret) = some e') :
    e'.Inv ∧ ∃ new, e.Moves new e' := by
  rw [step] at hstep
  cases hcall : e.call with
  | posting msg =>
    have hready := h.ready
    rw [hcall] at hready
    obtain ⟨hmsg, hpending, hfree, hcopied⟩ := hready
    simp only [hcall] at hstep
    rcases postSend_cases hpending msg ret with ⟨err, hpost⟩ | ⟨hsmall, hpost⟩
    · rw [hpost] at hstep
      cases hstep
      exact ⟨⟨h.receiving, h.sendBuf, h.pending, trivial⟩, [], .nothing rfl rfl rfl rfl⟩
    · rw [hpost] at hstep
      cases hstep
      refine ⟨⟨h.receiving.congr rfl rfl rfl rfl, h.sendBuf, hpending, trivial⟩, [msg], rfl, rfl,
        by simpa using hsmall, ?_⟩
      have hnone : e.conn.unread = [] := by
        rw [RdmaConnection.unread, hfree, map_nil]
      have hone : unreadRequests (e.conn.sendQueue ++ [{ length := 4 + msg.length }]) =
          [{ length := 4 + msg.length }] := by
        rw [unreadRequests, filter_append, ← unreadRequests, hfree]
        rfl
      rw [outgoing, outgoing, hnone, RdmaConnection.unread, hone]
      simp [hcopied]
  | _ => simp [hcall] at hstep

theorem inv_read (hstep : e.step .read = some e') : e'.Inv ∧ e.Moves [] e' := by
  rw [step] at hstep
  cases hread : readNext e.conn.sendQueue with
  | none => simp [hread] at hstep
  | some p =>
    obtain ⟨length, queue⟩ := p
    rw [hread] at hstep
    cases hstep
    have hnext := unreadRequests_of_readNext hread
    have hready : e.call.Ready { e.conn with sendQueue := queue } := by
      have hold := h.ready
      -- while `send` writes, there is nothing for the device to read
      cases hcall : e.call with rw [hcall] at hold
      | idle => trivial
      | draining msg | writing msg => exact hold
      | copying msg | posting msg => exact absurd (hold.2.2.1.symm.trans hnext) nofun
    refine ⟨⟨h.receiving.congr rfl rfl rfl rfl, h.sendBuf, h.pending, hready⟩, rfl,
      (append_nil _).symm, by simp, ?_⟩
    simp [outgoing, RdmaConnection.unread, hnext]

/-- A change of the completion queue by the device, other than by a receive. -/
theorem Inv.completed {queue : List SendRequest}
    (hqueue : unreadRequests queue = unreadRequests e.conn.sendQueue) {cq : List Completion}
    (hcq : RdmaConnection.arrivals { e.conn with sendQueue := queue, cq := cq } = e.conn.arrivals) :
    Inv { e with conn := { e.conn with sendQueue := queue, cq := cq } } ∧
      e.Moves [] { e with conn := { e.conn with sendQueue := queue, cq := cq } } := by
  refine ⟨⟨h.receiving.congr rfl rfl rfl hcq, h.sendBuf, h.pending,
    h.ready.congr rfl rfl hqueue (Nat.le_refl _)⟩, .nothing rfl rfl rfl ?_⟩
  rw [RdmaConnection.unread, RdmaConnection.unread, hqueue]

theorem inv_complete (hstep : e.step .complete = some e') :
    e'.Inv ∧ e.Moves [] e' := by
  rw [step] at hstep
  rcases hqueue : e.conn.sendQueue with _ | ⟨⟨length, _ | _⟩, queue⟩
  · simp [hqueue] at hstep
  · simp [hqueue] at hstep
  · rw [hqueue] at hstep
    cases hstep
    exact h.completed (by rw [hqueue]; rfl) (by simp [RdmaConnection.arrivals])

theorem inv_stray {status : Option Nat} (hstep : e.step (.stray status) = some e') :
    e'.Inv ∧ e.Moves [] e' := by
  cases status with
  | none | some status =>
    cases hstep
    exact h.completed rfl (by simp [RdmaConnection.arrivals])

/-- A step of one end keeps its invariant, and every frame stays on its way. -/
theorem inv_step {a : LocalAction} (ha : e.BufferFree a) (hstep : e.step a = some e') :
    e'.Inv ∧ ∃ new, e.Moves new e' := by
  have hquiet : e'.Inv ∧ e.Moves [] e' → e'.Inv ∧ ∃ new, e.Moves new e' :=
    fun hnext => ⟨hnext.1, [], hnext.2⟩
  cases a with
  | send msg => exact hquiet (inv_send h hstep)
  | drain => exact hquiet (inv_drain h hstep)
  | cancel =>
    rw [step] at hstep
    split at hstep
    · cases hstep
      exact hquiet ⟨⟨h.receiving, h.sendBuf, h.pending, trivial⟩, .nothing rfl rfl rfl rfl⟩
    · cases hstep
  | writePrefix => exact hquiet (inv_writePrefix h ha hstep)
  | writePayload => exact hquiet (inv_writePayload h hstep)
  | post ret => exact inv_post h hstep
  | recv => exact hquiet (inv_recv h hstep)
  | read => exact hquiet (inv_read h hstep)
  | complete => exact hquiet (inv_complete h hstep)
  | stray status => exact hquiet (inv_stray h hstep)

end

end Endpoint

/-! ## Runs -/

/-- Everything that `s` has accepted has reached `r` or is on its way. -/
structure Link (s r : Endpoint) : Prop where
  small : ∀ msg ∈ s.accepted, msg.length < 2 ^ 32
  frames : r.delivered ++ s.outgoing = s.accepted.map frame

namespace Link

variable {s s' r r' : Endpoint}

theorem sender (h : Link s r) {new : List (List UInt8)} (hmoves : s.Moves new s') : Link s' r := by
  refine ⟨?_, ?_⟩
  · rw [hmoves.accepted]
    exact forall_mem_append.mpr ⟨h.small, hmoves.small⟩
  · rw [hmoves.accepted, hmoves.outgoing, ← append_assoc, h.frames, map_append]

theorem receiver (h : Link s r) {new : List (List UInt8)} (hmoves : r.Moves new r') : Link s r' :=
  ⟨h.small, hmoves.delivered ▸ h.frames⟩

end Link

/-- Both ends, and both directions. -/
structure Inv (w : World) : Prop where
  left : w.left.Inv
  right : w.right.Inv
  toRight : Link w.left w.right
  toLeft : Link w.right w.left

theorem receiving_new (maxMsgSize : Nat) : Receiving (.new maxMsgSize) [] [] := by
  have hsize : ∀ buf ∈ (RdmaConnection.new maxMsgSize).recvBufs,
      buf.length = lengthPrefixBytes + maxMsgSize := by
    intro buf hbuf
    rw [eq_of_mem_replicate hbuf, length_replicate]
  have hidx : (RdmaConnection.new maxMsgSize).recvQueue ++
      (RdmaConnection.new maxMsgSize).arrivals.map (·.bufIdx) = range recvDepth := by
    simp [RdmaConnection.new, RdmaConnection.arrivals]
  refine ⟨hsize, hidx ▸ nodup_range, ?_, ?_, ?_, [], ?_, rfl⟩
  · rw [hidx]
    intro idx hmem
    simpa [RdmaConnection.new] using hmem
  · simp [RdmaConnection.new, RdmaConnection.arrivals]
  · simp
  · simp [RdmaConnection.new, RdmaConnection.arrivals]

theorem inv_start (maxLeft maxRight : Nat) : Inv (start maxLeft maxRight) := by
  have hend : ∀ maxMsgSize, Endpoint.Inv { conn := .new maxMsgSize } := fun maxMsgSize =>
    ⟨receiving_new maxMsgSize, length_replicate, Nat.zero_le _, trivial⟩
  exact ⟨hend maxLeft, hend maxRight, ⟨by simp [start], rfl⟩, ⟨by simp [start], rfl⟩⟩

/-- The two ends are alike. -/
theorem Inv.swap {w : World} (h : Inv w) : Inv ⟨w.right, w.left⟩ :=
  ⟨h.right, h.left, h.toLeft, h.toRight⟩

section

variable {s r s' r' : Endpoint} (h : Inv ⟨s, r⟩)
include h

theorem Inv.local {a : LocalAction} (ha : s.BufferFree a) (hstep : s.step a = some s') :
    Inv ⟨s', r⟩ := by
  obtain ⟨hinv, new, hmoves⟩ := Endpoint.inv_step h.left ha hstep
  exact ⟨hinv, h.right, h.toRight.sender hmoves, h.toLeft.receiver hmoves⟩

/-- The devices pass on a message. -/
theorem Inv.deliver (hdeliver : s.deliver r = some (s', r')) : Inv ⟨s', r'⟩ := by
  unfold Endpoint.deliver at hdeliver
  split at hdeliver
  · rename_i bytes wire idx queue hwire hqueue
    dsimp only at hdeliver
    split_ifs at hdeliver with hlen
    cases hdeliver
    have hframes : r.delivered ++ s.outgoing = s.accepted.map frame := h.toRight.frames
    rw [Endpoint.outgoing, hwire] at hframes
    refine ⟨⟨h.left.receiving, h.left.sendBuf, h.left.pending, h.left.ready⟩,
      ⟨h.right.receiving.place_of_perm (.of_eq hqueue) hlen, h.right.sendBuf, h.right.pending,
        h.right.ready.congr rfl rfl rfl (Nat.le_refl _)⟩,
      ⟨h.toRight.small, ?_⟩, h.toLeft.small, h.toLeft.frames⟩
    rw [← hframes]
    simp [Endpoint.outgoing]
  · cases hdeliver

end

theorem inv_step {w w' : World} {a : Action} (h : Inv w) (ha : NothingOverwritten w a)
    (hstep : step w a = some w') : Inv w' := by
  cases a with
  | left a =>
    obtain ⟨e, he, rfl⟩ := Option.map_eq_some_iff.mp hstep
    exact h.local ha he
  | right a =>
    obtain ⟨e, he, rfl⟩ := Option.map_eq_some_iff.mp hstep
    exact (h.swap.local ha he).swap
  | toLeft =>
    obtain ⟨p, hdeliver, rfl⟩ := Option.map_eq_some_iff.mp hstep
    exact (h.swap.deliver hdeliver).swap
  | toRight =>
    obtain ⟨p, hdeliver, rfl⟩ := Option.map_eq_some_iff.mp hstep
    exact h.deliver hdeliver

/-- What `r` has handed to its application of the messages that `s` has accepted: the
first ones, unaltered, and all of them when nothing is on the way. -/
def Intact (s r : Endpoint) : Prop :=
  r.returned <+: s.accepted.map (fun msg => .ok (some msg)) ∧
    (s.outgoing = [] → r.conn.arrivals = [] →
      r.returned = s.accepted.map fun msg => .ok (some msg))

theorem Link.intact {s r : Endpoint} (h : Link s r) (hr : r.Inv) : Intact s r := by
  obtain ⟨done, hdelivered, hreturned⟩ := hr.receiving.handed
  -- the frames that were handed over are those of the first messages
  have hdone : done = (s.accepted.take done.length).map frame := by
    rw [map_take, ← h.frames, hdelivered, append_assoc, take_left]
  have hfirst : r.returned = (s.accepted.take done.length).map fun msg => .ok (some msg) := by
    have hdecode : ∀ msg ∈ s.accepted.take done.length,
        RdmaConnection.decodeFrame r.conn.maxMsgSize (frame msg) (frame msg).length =
          .ok (some msg) := by
      intro msg hmsg
      have hmem : frame msg ∈ done := hdone ▸ mem_map_of_mem hmsg
      exact RdmaConnection.decodeFrame_frame
        (hr.receiving.placed _ (hdelivered ▸ mem_append_left _ hmem))
        (h.small msg (mem_of_mem_take hmsg))
    calc r.returned = done.map _ := hreturned
      _ = ((s.accepted.take done.length).map frame).map _ := congrArg _ hdone
      _ = _ := by
        rw [map_map]
        refine map_congr_left fun msg hmsg => ?_
        rw [Function.comp_apply, hdecode msg hmsg]
  refine ⟨hfirst ▸ List.IsPrefix.map _ ( take_prefix _ _), fun houtgoing harrivals => ?_⟩
  have hall : done = s.accepted.map frame := by
    rw [← h.frames, houtgoing, hdelivered, harrivals]
    simp
  rw [hfirst, take_of_length_le (by rw [hall, length_map])]

/-- As long as no call of `send` writes the buffer while a request has not been read, the
messages for which `send` returned `Ok` arrive at the other end, in order and
unaltered. -/
theorem returned_intact_of_reach {maxLeft maxRight : Nat} {w : World}
    (h : Reach step NothingOverwritten (start maxLeft maxRight) w) :
    Intact w.left w.right ∧ Intact w.right w.left := by
  have hinv : Inv w :=
    h.invariant Inv (inv_start maxLeft maxRight) fun _ _ _ hs ha hstep => inv_step hs ha hstep
  exact ⟨hinv.toRight.intact hinv.right, hinv.toLeft.intact hinv.left⟩

/-- The steps of a call of `send` that does not have to wait. -/
def sending (msg : List UInt8) : List Action :=
  [.left (.send msg), .left .writePrefix, .left .writePayload, .left (.post 0)]

/-- Two messages, where the second call comes when the device has read the first. -/
theorem returned_intact_of_reach_two :
    ∃ w, Reach step NothingOverwritten (start 2 2) w ∧ w.left.accepted = [[7], [8, 9]] ∧
      w.right.returned = [.ok (some [7]), .ok (some [8, 9])] ∧
      Intact w.left w.right ∧ Intact w.right w.left := by
  have hreach : Reach step NothingOverwritten (start 2 2) _ :=
    reach_of_run (sending [7] ++ [.left .read] ++ sending [8, 9] ++
      [.left .read, .toRight, .toRight, .left .complete, .left .complete, .right .recv,
        .right .recv]) rfl
  exact ⟨_, hreach, rfl, rfl, returned_intact_of_reach hreach⟩

/-- The device reads both requests after the second call, and the peer gets the second
message twice. -/
theorem returned_twice :
    ∃ w, Reach step Anything (start 2 2) w ∧ w.left.accepted = [[7], [8]] ∧
      w.right.returned = [.ok (some [8]), .ok (some [8])] ∧ ¬ Intact w.left w.right := by
  have hreach : Reach step Anything (start 2 2) _ :=
    reach_of_run (sending [7] ++ sending [8] ++
      [.left .read, .left .read, .toRight, .toRight, .right .recv, .right .recv]) rfl
  refine ⟨_, hreach, rfl, rfl, fun hintact => ?_⟩
  exact absurd hintact.1 (by decide)

end IronSbe.Transport.Rdma
