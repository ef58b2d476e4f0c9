import Mathlib.Data.List.Nodup
import Mathlib.Data.List.Perm.Basic
import IronSbe.Transport.Rdma

/-!
# The accounts of an RDMA connection

Send and receive completions share one completion queue, which is drained from two loops:
that of `recv`, and that of `send` when `pending_sends` is at the high-water mark.  A
receive that the second loop meets is kept in `pending_recvs` for the next call of `recv`.

Here the device is as free as it can be.  Any posted request may be the next to complete,
at any time, and a receive completes with any bytes that fit in its buffer.  Requests are
posted successfully and complete successfully.

* `Balanced.drainCq`, `Balanced.recv`: both loops keep the count of outstanding sends.
* `inv_step`: every step of the application and of the device keeps the accounts.
* `accounts_of_reach`: what the accounts come to.
-/

namespace IronSbe.Transport.Rdma

open Lib.Transition List RdmaConnection

/-! ## Outstanding sends -/

/-- The receive that has completed. -/
def Completion.recv? : Completion → Option PendingRecv
  | .recv pending => some pending
  | _ => none

namespace RdmaConnection

/-- The receives in the completion queue. -/
def completedRecvs (c : RdmaConnection) : List PendingRecv := c.cq.filterMap Completion.recv?

theorem arrivals_eq (c : RdmaConnection) : c.arrivals = c.pendingRecvs ++ c.completedRecvs := rfl

/-- A send is counted from its post until its completion has been polled, and all
completions are successful. -/
structure Balanced (c : RdmaConnection) : Prop where
  sends : c.pendingSends = c.sendQueue.length + c.cq.count .send
  clean : ∀ entry ∈ c.cq, entry = .send ∨ ∃ pending, entry = .recv pending

/-- The completion queue holds sends and receives only. -/
theorem Balanced.length_cq {c : RdmaConnection} (h : c.Balanced) :
    c.cq.length = c.cq.count .send + c.completedRecvs.length := by
  have hclean := h.clean
  unfold completedRecvs
  generalize c.cq = cq at hclean
  induction cq with
  | nil => rfl
  | cons entry cq ih =>
    rw [forall_mem_cons] at hclean
    have hrest := ih hclean.2
    rcases hclean.1 with rfl | ⟨pending, rfl⟩
    · rw [count_cons_self, filterMap_cons_none rfl, length_cons, hrest]
      omega
    · have hne : Completion.recv pending ≠ .send := nofun
      have hrecv : Completion.recv? (.recv pending) = some pending := rfl
      rw [count_cons_of_ne hne, filterMap_cons_some hrecv, length_cons,
        length_cons, hrest]
      omega

theorem Balanced.drainCq {c : RdmaConnection} (h : c.Balanced) :
    c.drainCq.2.Balanced ∧ ∃ drained, c.drainCq.1 = .ok drained := by
  have hsends := h.sends
  have hclean := h.clean
  unfold RdmaConnection.drainCq
  cases hcq : c.cq with
  | nil => exact ⟨h, _, rfl⟩
  | cons entry cq =>
    rw [hcq] at hsends hclean
    rw [forall_mem_cons] at hclean
    rcases hclean.1 with rfl | ⟨pending, rfl⟩
    · rw [count_cons_self] at hsends
      refine ⟨⟨?_, hclean.2⟩, _, rfl⟩
      show c.pendingSends - 1 = c.sendQueue.length + cq.count .send
      omega
    · have hne : Completion.recv pending ≠ .send := nofun
      rw [count_cons_of_ne hne] at hsends
      exact ⟨⟨hsends, hclean.2⟩, _, rfl⟩

/-- A poll of `recv` takes at most one completion. -/
theorem recv_polls (c : RdmaConnection) :
    ∃ c', (c' = c ∨ c' = c.drainCq.2) ∧ (c.recv 0).2.pendingSends = c'.pendingSends ∧
      (c.recv 0).2.sendQueue = c'.sendQueue ∧ (c.recv 0).2.cq = c'.cq := by
  unfold recv
  cases hpending : c.pendingRecvs with
  | cons pending rest => exact ⟨c, .inl rfl, rfl, rfl, rfl⟩
  | nil =>
    refine ⟨c.drainCq.2, .inr rfl, ?_⟩
    dsimp only
    generalize c.drainCq = drained
    obtain ⟨result, c'⟩ := drained
    rcases result with e | _ | _ | _ | _
    · exact ⟨rfl, rfl, rfl⟩
    · exact ⟨rfl, rfl, rfl⟩
    · exact ⟨rfl, rfl, rfl⟩
    · dsimp only
      cases c'.pendingRecvs with
      | nil | cons pending rest => exact ⟨rfl, rfl, rfl⟩
    · exact ⟨rfl, rfl, rfl⟩

theorem Balanced.recv {c : RdmaConnection} (h : c.Balanced) : (c.recv 0).2.Balanced := by
  obtain ⟨c', hc', hpending, hqueue, hcq⟩ := c.recv_polls
  have hbalanced : c'.Balanced := by
    rcases hc' with rfl | rfl
    · exact h
    · exact h.drainCq.1
  exact ⟨by rw [hpending, hqueue, hcq]; exact hbalanced.sends, by rw [hcq]; exact hbalanced.clean⟩

/-- With successful completions, a call of `recv` does not fail on the completion queue. -/
theorem Balanced.recv_cases {c : RdmaConnection} (h : c.Balanced) :
    (∃ c', Polled c c' ∧ c'.recvQueue = c.recvQueue ∧ c'.arrivals = c.arrivals ∧
      c.recv 0 = (none, c')) ∨
    ∃ pending c', HandsOver c pending c' ∧
      c.recv 0 = (some (decodeFrame c.maxMsgSize (c.recvBufs.getD pending.bufIdx [])
        pending.byteLen), c') := by
  rcases c.recv_cases with ⟨c', hpolled, hqueue, harrivals, hwait⟩ | hover
  · refine .inl ⟨c', hpolled, hqueue, harrivals, ?_⟩
    rcases hwait with hwait | ⟨status, hfailed, -⟩
    · exact hwait
    · obtain ⟨drained, hdrained⟩ := h.drainCq.2
      cases hdrained.symm.trans hfailed
  · exact .inr hover

end RdmaConnection

/-! ## The application and the device -/

namespace Accounting

/-- A connection with the record of its receives. -/
structure World where
  endpoint : Endpoint
  /-- The completed receives in the order of their completion: the buffer, and the bytes that
  the device has placed in it. -/
  completions : List (Nat × List UInt8) := []
  /-- The results of the completed calls of `recv`. -/
  results : List (Except RdmaError (Option (List UInt8))) := []
  /-- The buffers that `post_recv` has been called for since the connection was made. -/
  reposted : List Nat := []

/-- A step of the application, or a completion of the hardware. -/
inductive Action where
  | app (a : LocalAction)
  /-- The send request at this place of its queue completes. -/
  | sendDone (place : Nat)
  /-- The receive request at this place of its queue completes, with these bytes. -/
  | recvDone (place : Nat) (bytes : List UInt8)
  deriving DecidableEq, Repr

/-- The steps of the application, with a device that takes every request. -/
def succeeds : LocalAction → Bool
  | .post ret => ret = 0
  | .complete | .stray _ => false
  | _ => true

/-- The result of a call of `recv` that has come to its end. -/
def resultOf (e : Endpoint) : LocalAction → List (Except RdmaError (Option (List UInt8)))
  | .recv => (e.conn.recv 0).1.toList
  | _ => []

/-- A step, with the completions in the history. -/
def step (w : World) : Action → Option World
  | .app a =>
    if succeeds a then
      (w.endpoint.step a).map fun e =>
        { w with
          endpoint := e
          results := w.results ++ resultOf w.endpoint a
          reposted := w.reposted ++ e.conn.recvQueue.drop w.endpoint.conn.recvQueue.length }
    else none
  | .sendDone place =>
    let c := w.endpoint.conn
    if place < c.sendQueue.length then
      let c := { c with sendQueue := c.sendQueue.eraseIdx place, cq := c.cq ++ [.send] }
      some { w with endpoint := { w.endpoint with conn := c } }
    else none
  | .recvDone place bytes =>
    let c := w.endpoint.conn
    match c.recvQueue[place]? with
    | none => none
    | some idx =>
      let buf := c.recvBufs.getD idx []
      if bytes.length ≤ buf.length then
        let c := { c with
          recvBufs := c.recvBufs.set idx (bytes ++ buf.drop bytes.length)
          recvQueue := c.recvQueue.eraseIdx place
          cq := c.cq ++ [.recv ⟨idx, bytes.length⟩] }
        some { w with
          endpoint := { w.endpoint with conn := c }
          completions := w.completions ++ [(idx, bytes)] }
      else none

/-- A call of `send` that is past its check of the high-water mark. -/
def Below (c : RdmaConnection) : Call → Prop
  | .idle | .draining _ => True
  | .writing _ | .copying _ | .posting _ => c.pendingSends < cqDrainHighWater

theorem Below.congr {c c' : RdmaConnection} {call : Call} (h : Below c call)
    (hpending : c'.pendingSends = c.pendingSends) : Below c' call := by
  cases call with
  | idle | draining _ => trivial
  | writing _ | copying _ | posting _ => exact Nat.lt_of_le_of_lt hpending.le h

/-- The accounts between two steps. -/
structure Inv (w : World) : Prop where
  balanced : w.endpoint.conn.Balanced
  pending : w.endpoint.conn.pendingSends ≤ cqDrainHighWater
  below : Below w.endpoint.conn w.endpoint.call
  receiving : Receiving w.endpoint.conn (w.completions.map Prod.snd) w.results
  buffers : (w.endpoint.conn.recvQueue ++ w.endpoint.conn.arrivals.map (·.bufIdx)).Perm
    (List.range recvDepth)
  consumed : w.completions.map Prod.fst = w.reposted ++ w.endpoint.conn.arrivals.map (·.bufIdx)

/-- The receiving side of the connection is as before. -/
structure SameReceiver (c c' : RdmaConnection) : Prop where
  maxMsgSize : c'.maxMsgSize = c.maxMsgSize
  recvBufs : c'.recvBufs = c.recvBufs
  recvQueue : c'.recvQueue = c.recvQueue
  arrivals : c'.arrivals = c.arrivals

variable {w w' : World} {e : Endpoint} {a : LocalAction}

/-- The world after a step of the application. -/
def after (w : World) (a : LocalAction) (e : Endpoint) : World :=
  { w with
    endpoint := e
    results := w.results ++ resultOf w.endpoint a
    reposted := w.reposted ++ e.conn.recvQueue.drop w.endpoint.conn.recvQueue.length }

/-- A step that leaves the receiving side as it is. -/
theorem Inv.sending (h : Inv w) (hsame : SameReceiver w.endpoint.conn e.conn)
    (hbalanced : e.conn.Balanced) (hpending : e.conn.pendingSends ≤ cqDrainHighWater)
    (hbelow : Below e.conn e.call) (hresult : resultOf w.endpoint a = []) : Inv (after w a e) := by
  have hreposted : e.conn.recvQueue.drop w.endpoint.conn.recvQueue.length = [] := by
    rw [hsame.recvQueue, drop_length]
  rw [after, hreposted, hresult, append_nil, append_nil]
  refine ⟨hbalanced, hpending, hbelow, ?_, ?_, ?_⟩
  · exact h.receiving.congr hsame.maxMsgSize hsame.recvBufs hsame.recvQueue hsame.arrivals
  · show (e.conn.recvQueue ++ e.conn.arrivals.map _).Perm _
    rw [hsame.recvQueue, hsame.arrivals]
    exact h.buffers
  · show _ = _ ++ e.conn.arrivals.map _
    rw [hsame.arrivals]
    exact h.consumed

theorem inv_send (h : Inv w) {msg : List UInt8} (hstep : w.endpoint.step (.send msg) = some e) :
    Inv (after w (.send msg) e) := by
  rw [Endpoint.step] at hstep
  split_ifs at hstep with hidle hlen hhigh
  · cases hstep
    exact h.sending ⟨rfl, rfl, rfl, rfl⟩ h.balanced h.pending h.below rfl
  · cases hstep
    exact h.sending ⟨rfl, rfl, rfl, rfl⟩ h.balanced h.pending trivial rfl
  · cases hstep
    exact h.sending ⟨rfl, rfl, rfl, rfl⟩ h.balanced h.pending (Nat.lt_of_not_le hhigh) rfl

/-- The loop of `send` gives up the processor only above the low-water mark. -/
theorem inv_drain (h : Inv w) (hstep : w.endpoint.step .drain = some e) :
    Inv (after w .drain e) := by
  rw [Endpoint.step] at hstep
  cases hcall : w.endpoint.call with
  | draining msg =>
    simp only [hcall] at hstep
    obtain ⟨hpolled, hqueue, harrivals⟩ := w.endpoint.conn.drainCq_spec
    have hsame : SameReceiver w.endpoint.conn w.endpoint.conn.drainCq.2 :=
      ⟨hpolled.maxMsgSize, hpolled.recvBufs, hqueue, harrivals⟩
    obtain ⟨hbalanced, drained, hdrained⟩ := h.balanced.drainCq
    have hpending := hpolled.pendingSends.trans h.pending
    rw [hdrained] at hstep
    split_ifs at hstep with hlow
    · cases hstep
      exact h.sending hsame hbalanced hpending trivial rfl
    · cases hstep
      have hmarks : cqDrainLowWater ≤ cqDrainHighWater := by decide
      exact h.sending hsame hbalanced hpending ((Nat.lt_of_not_le hlow).trans_le hmarks) rfl
  | _ => simp [hcall] at hstep

theorem inv_cancel (h : Inv w) (hstep : w.endpoint.step .cancel = some e) :
    Inv (after w .cancel e) := by
  rw [Endpoint.step] at hstep
  split at hstep
  · cases hstep
    exact h.sending ⟨rfl, rfl, rfl, rfl⟩ h.balanced h.pending trivial rfl
  · cases hstep

/-- The copies into the send buffer touch no account. -/
theorem inv_write (h : Inv w) (ha : a = .writePrefix ∨ a = .writePayload)
    (hstep : w.endpoint.step a = some e) : Inv (after w a e) := by
  have hbelow := h.below
  rcases ha with rfl | rfl
  · rw [Endpoint.step] at hstep
    cases hcall : w.endpoint.call with
    | writing msg =>
      rw [hcall] at hbelow
      simp only [hcall] at hstep
      split_ifs at hstep
      · cases hstep
        exact h.sending ⟨rfl, rfl, rfl, rfl⟩ h.balanced h.pending trivial rfl
      · cases hstep
        exact h.sending ⟨rfl, rfl, rfl, rfl⟩ ⟨h.balanced.sends, h.balanced.clean⟩ h.pending hbelow
          rfl
    | _ => simp [hcall] at hstep
  · rw [Endpoint.step] at hstep
    cases hcall : w.endpoint.call with
    | copying msg =>
      rw [hcall] at hbelow
      simp only [hcall] at hstep
      cases hstep
      exact h.sending ⟨rfl, rfl, rfl, rfl⟩ ⟨h.balanced.sends, h.balanced.clean⟩ h.pending hbelow rfl
    | _ => simp [hcall] at hstep

/-- A posted send is counted at once. -/
theorem inv_post (h : Inv w) {ret : Nat} (hstep : w.endpoint.step (.post ret) = some e) :
    Inv (after w (.post ret) e) := by
  have hbelow := h.below
  rw [Endpoint.step] at hstep
  cases hcall : w.endpoint.call with
  | posting msg =>
    rw [hcall] at hbelow
    simp only [hcall] at hstep
    rcases postSend_cases hbelow msg ret with ⟨err, hpost⟩ | ⟨-, hpost⟩
    · rw [hpost] at hstep
      cases hstep
      exact h.sending ⟨rfl, rfl, rfl, rfl⟩ h.balanced h.pending trivial rfl
    · rw [hpost] at hstep
      cases hstep
      refine h.sending ⟨rfl, rfl, rfl, rfl⟩ ⟨?_, h.balanced.clean⟩ hbelow trivial rfl
      have hsends := h.balanced.sends
      simp only [length_append, length_singleton]
      omega
  | _ => simp [hcall] at hstep

theorem length_readNext {queue queue' : List SendRequest} {length : Nat}
    (h : readNext queue = some (length, queue')) : queue'.length = queue.length := by
  induction queue generalizing queue' with
  | nil => cases h
  | cons request queue ih =>
    rw [readNext] at h
    split_ifs at h
    · obtain ⟨⟨l, q⟩, hq, heq⟩ := Option.map_eq_some_iff.mp h
      cases heq
      exact congrArg (· + 1) (ih hq)
    · cases h
      rfl

theorem inv_read (h : Inv w) (hstep : w.endpoint.step .read = some e) : Inv (after w .read e) := by
  rw [Endpoint.step] at hstep
  cases hread : readNext w.endpoint.conn.sendQueue with
  | none => simp [hread] at hstep
  | some p =>
    obtain ⟨length, queue⟩ := p
    rw [hread] at hstep
    cases hstep
    refine h.sending ⟨rfl, rfl, rfl, rfl⟩ ⟨?_, h.balanced.clean⟩ h.pending (h.below.congr rfl) rfl
    simp only [length_readNext hread]
    exact h.balanced.sends

/-- A call of `recv` waits, or it uses up the oldest completed receive. -/
theorem inv_recv (h : Inv w) (hstep : w.endpoint.step .recv = some e) : Inv (after w .recv e) := by
  obtain ⟨hidle, rfl⟩ := of_guard hstep
  have hbalanced := h.balanced.recv
  have hbelow : ∀ c, Below c w.endpoint.call := by
    intro c
    rw [hidle]
    trivial
  rcases h.balanced.recv_cases with ⟨c, hpolled, hqueue, harrivals, hrecv⟩ |
    ⟨pending, c, hover, hrecv⟩
  · have hresult : resultOf w.endpoint .recv = [] := by
      rw [resultOf, hrecv]
      rfl
    rw [hrecv] at hbalanced ⊢
    exact h.sending ⟨hpolled.maxMsgSize, hpolled.recvBufs, hqueue, harrivals⟩ hbalanced
      (hpolled.pendingSends.trans h.pending) (hbelow c) hresult
  · have hresult : resultOf w.endpoint .recv =
        [decodeFrame w.endpoint.conn.maxMsgSize
          (w.endpoint.conn.recvBufs.getD pending.bufIdx []) pending.byteLen] := by
      rw [resultOf, hrecv]
      rfl
    rw [hrecv] at hbalanced ⊢
    have hreposted : c.recvQueue.drop w.endpoint.conn.recvQueue.length = [pending.bufIdx] := by
      rw [hover.recvQueue, drop_left]
    rw [after, hresult]
    refine ⟨hbalanced, hover.polled.pendingSends.trans h.pending, hbelow c,
      h.receiving.handOver hover, ?_, ?_⟩
    · have hbuffers := h.buffers
      rw [hover.arrivals] at hbuffers
      rw [hover.recvQueue]
      simpa using hbuffers
    · have hconsumed := h.consumed
      rw [hover.arrivals] at hconsumed
      rw [hreposted]
      simpa using hconsumed

theorem inv_app (h : Inv w) (ha : succeeds a = true) (hstep : w.endpoint.step a = some e) :
    Inv (after w a e) := by
  cases a with
  | send msg => exact inv_send h hstep
  | drain => exact inv_drain h hstep
  | cancel => exact inv_cancel h hstep
  | writePrefix => exact inv_write h (.inl rfl) hstep
  | writePayload => exact inv_write h (.inr rfl) hstep
  | post ret => exact inv_post h hstep
  | recv => exact inv_recv h hstep
  | read => exact inv_read h hstep
  | complete | stray status => cases ha

/-! ## The device -/

theorem inv_sendDone (h : Inv w) {place : Nat} (hstep : step w (.sendDone place) = some w') :
    Inv w' := by
  simp only [step] at hstep
  split_ifs at hstep with hplace
  cases hstep
  have harrivals : arrivals { w.endpoint.conn with
      sendQueue := w.endpoint.conn.sendQueue.eraseIdx place
      cq := w.endpoint.conn.cq ++ [.send] } = w.endpoint.conn.arrivals := by
    simp [arrivals]
  refine ⟨⟨?_, ?_⟩, h.pending, h.below.congr rfl, h.receiving.congr rfl rfl rfl harrivals, ?_, ?_⟩
  · have hsends := h.balanced.sends
    simp only [length_eraseIdx_of_lt hplace, count_append, count_singleton_self]
    omega
  · exact forall_mem_append.mpr ⟨h.balanced.clean, forall_mem_singleton.mpr (.inl rfl)⟩
  · simp only [harrivals]
    exact h.buffers
  · simp only [harrivals]
    exact h.consumed

theorem inv_recvDone (h : Inv w) {place : Nat} {bytes : List UInt8}
    (hstep : step w (.recvDone place bytes) = some w') : Inv w' := by
  simp only [step] at hstep
  cases hidx : w.endpoint.conn.recvQueue[place]? with
  | none => simp [hidx] at hstep
  | some idx =>
    simp only [hidx] at hstep
    split_ifs at hstep with hlen
    cases hstep
    have hperm : w.endpoint.conn.recvQueue.Perm
        (idx :: w.endpoint.conn.recvQueue.eraseIdx place) := by
      obtain ⟨hlt, rfl⟩ := List.getElem?_eq_some_iff.mp hidx
      exact (getElem_cons_eraseIdx_perm hlt).symm
    have hreceiving := h.receiving.place_of_perm hperm hlen
    generalize hnew : ({ w.endpoint.conn with
      recvBufs := w.endpoint.conn.recvBufs.set idx
        (bytes ++ (w.endpoint.conn.recvBufs.getD idx []).drop bytes.length)
      recvQueue := w.endpoint.conn.recvQueue.eraseIdx place
      cq := w.endpoint.conn.cq ++ [.recv ⟨idx, bytes.length⟩] } : RdmaConnection) = c
      at hreceiving
    have harrivals : c.arrivals = w.endpoint.conn.arrivals ++ [⟨idx, bytes.length⟩] := by
      rw [← hnew]
      simp [arrivals]
    refine ⟨⟨?_, ?_⟩, ?_, ?_, ?_, ?_, ?_⟩
    · show c.pendingSends = c.sendQueue.length + c.cq.count .send
      rw [← hnew]
      simpa using h.balanced.sends
    · show ∀ entry ∈ c.cq, _
      rw [← hnew]
      exact forall_mem_append.mpr ⟨h.balanced.clean, forall_mem_singleton.mpr (.inr ⟨_, rfl⟩)⟩
    · show c.pendingSends ≤ _
      rw [← hnew]
      exact h.pending
    · refine h.below.congr ?_
      rw [← hnew]
    · rw [map_append]
      exact hreceiving
    · show (c.recvQueue ++ c.arrivals.map _).Perm _
      refine List.Perm.trans ?_ h.buffers
      rw [harrivals, ← hnew, map_append, ← append_assoc]
      exact (perm_append_singleton _ _).trans (hperm.symm.append_right _)
    · show _ = _ ++ c.arrivals.map _
      rw [harrivals, map_append, map_append, h.consumed, append_assoc]
      rfl

theorem inv_step {a : Action} (h : Inv w) (hstep : step w a = some w') : Inv w' := by
  cases a with
  | app a =>
    rw [step] at hstep
    split_ifs at hstep with ha
    obtain ⟨e, he, rfl⟩ := Option.map_eq_some_iff.mp hstep
    exact inv_app h ha he
  | sendDone place => exact inv_sendDone h hstep
  | recvDone place bytes => exact inv_recvDone h hstep

/-- All buffers are posted. -/
theorem inv_new (maxMsgSize : Nat) : Inv { endpoint := { conn := .new maxMsgSize } } := by
  refine ⟨⟨rfl, by simp [new]⟩, Nat.zero_le _, trivial, receiving_new maxMsgSize,
    ?_, ?_⟩
  all_goals simp [new, arrivals]

/-! ## The balance -/

/-- Every buffer has its place. -/
theorem Inv.count_eq_one (h : Inv w) {idx : Nat} (hidx : idx < recvDepth) :
    w.endpoint.conn.recvQueue.count idx +
      (w.endpoint.conn.completedRecvs.map (·.bufIdx)).count idx +
      (w.endpoint.conn.pendingRecvs.map (·.bufIdx)).count idx = 1 := by
  have hcount := h.buffers.count_eq idx
  rw [count_eq_one_of_mem nodup_range (mem_range.mpr hidx), count_append,
    arrivals_eq, map_append, count_append] at hcount
  omega

/-- The outstanding sends and the receives all have room in the completion queue. -/
theorem Inv.length_cq_le (h : Inv w) : w.endpoint.conn.cq.length ≤ cqCapacity := by
  have hbuffers := h.buffers.length_eq
  rw [length_append, length_map, length_range, arrivals_eq,
    length_append] at hbuffers
  have hmarks : cqDrainHighWater + recvDepth = cqCapacity := rfl
  have hsends := h.balanced.sends
  have hpending := h.pending
  rw [h.balanced.length_cq]
  omega

/-- The first results come from the first completed receives, one from each, and the buffers
that have been posted again are theirs. -/
theorem Inv.results_eq (h : Inv w) :
    w.results = (w.completions.take w.results.length).map (fun p =>
        RdmaConnection.decodeFrame w.endpoint.conn.maxMsgSize p.2 p.2.length) ∧
      w.reposted = (w.completions.take w.results.length).map Prod.fst := by
  obtain ⟨done, hplaced, hresults⟩ := h.receiving.handed
  have hlen : w.results.length = done.length := by rw [hresults, length_map]
  have hreposted : w.reposted.length = done.length := by
    have hfst := congrArg length h.consumed
    have hsnd := congrArg length hplaced
    simp only [length_map, length_append] at hfst hsnd
    omega
  rw [hlen]
  constructor
  · have hdone : (w.completions.take done.length).map Prod.snd = done := by
      rw [map_take, hplaced, take_left]
    rw [hresults]
    nth_rewrite 1 [← hdone]
    rw [map_map]
    rfl
  · rw [map_take, h.consumed, ← hreposted, take_left]

/-- In every run of calls and successful completions.  `pending_sends` counts the posted sends
whose completion has not been polled, and is at most 16.  The completion queue never holds
more than it has room for.  Every receive buffer is posted, or completed and not polled, or
in `pending_recvs`, and only one of these.  The results of `recv` are those of the completed
receives in the order of their completion, one each, and the buffer of each of these
receives has been posted again, once. -/
theorem accounts_of_reach {maxMsgSize : Nat}
    (h : Reach step Anything { endpoint := { conn := .new maxMsgSize } } w) :
    w.endpoint.conn.pendingSends =
        w.endpoint.conn.sendQueue.length + w.endpoint.conn.cq.count .send ∧
      w.endpoint.conn.pendingSends ≤ 16 ∧
      w.endpoint.conn.cq.length ≤ cqCapacity ∧
      (∀ idx, idx < recvDepth →
        w.endpoint.conn.recvQueue.count idx +
            (w.endpoint.conn.completedRecvs.map (·.bufIdx)).count idx +
          (w.endpoint.conn.pendingRecvs.map (·.bufIdx)).count idx = 1) ∧
      w.results = (w.completions.take w.results.length).map (fun p =>
        RdmaConnection.decodeFrame w.endpoint.conn.maxMsgSize p.2 p.2.length) ∧
      w.reposted = (w.completions.take w.results.length).map Prod.fst := by
  have hinv : Inv w := h.invariant Inv (inv_new maxMsgSize) fun _ _ _ hs _ => inv_step hs
  exact ⟨hinv.balanced.sends, hinv.pending, hinv.length_cq_le, fun _ => hinv.count_eq_one,
    hinv.results_eq⟩

/-- A send is posted and two receives complete, not in the order of their posting.  The first
call of `recv` gets the first of them and posts its buffer again; then the send completes. -/
theorem accounts_of_reach_three :
    ∃ w, Reach step Anything { endpoint := { conn := .new 4 } } w ∧
      w.completions = [(1, [1, 0, 0, 0, 7]), (0, [1, 0, 0, 0, 8])] ∧
      w.results = [.ok (some [7])] ∧ w.reposted = [1] ∧
      w.endpoint.conn.pendingSends = 1 ∧ w.endpoint.conn.cq.count .send = 1 ∧
      w.endpoint.conn.pendingSends ≤ 16 ∧ w.endpoint.conn.cq.length ≤ cqCapacity := by
  have hreach : Reach step Anything { endpoint := { conn := .new 4 } } _ :=
    reach_of_run [.recvDone 1 [1, 0, 0, 0, 7], .app (.send [9]), .app .writePrefix,
      .app .writePayload, .app (.post 0), .recvDone 0 [1, 0, 0, 0, 8], .app .recv, .sendDone 0] rfl
  have hall := accounts_of_reach hreach
  exact ⟨_, hreach, rfl, rfl, rfl, rfl, rfl, hall.2.1, hall.2.2.1⟩

end Accounting

end IronSbe.Transport.Rdma
