import IronSbe.Transport.Xdp.Datapath
import IronSbe.Transport.Xdp.UdpStack

/-!
# Rounds of the datapath with the UDP stack

A round hands the frames of its batch to `UdpStack::on_rx` one after the other.  What
`on_rx` does with a frame is decided by its verdict, so a batch has a meaning of its own:
`handleAll` is a batch in which rejected frames are skipped.  The datapath stops at the
first rejected frame instead.

* `receive_of_accepted`, `receive_of_rejected`: the two ways in which a batch goes.
* `isolated_iff`: the batches in which rejected frames do no harm to the others.
-/

namespace IronSbe.Transport.Xdp

open Lib UdpStack List

/-- The UDP stack for the datapath. -/
def udpStack (ether : Etherparse) : XdpStack UdpStack SocketAddrV4 UdpStackError where
  onRx stack frame out := stack.onRx ether frame out
  pollTimers := UdpStack.pollTimers
  dropConnection := UdpStack.dropConnection
  message := UdpStackError.message

/-- A stack that takes the frames that it rejects without an error. -/
def XdpStack.skipping {σ κ ε : Type} (S : XdpStack σ κ ε) : XdpStack σ κ ε :=
  { S with
    onRx := fun stack frame out =>
      (.ok (S.onRx stack frame out).1.toOption.join, (S.onRx stack frame out).2) }

/-- The batch of a round over the UDP stack. -/
abbrev UdpBatch := Batch UdpStack SocketAddrV4 UdpStackError

namespace UdpStack.Verdict

/-- The frame is rejected. -/
def isRejected : Verdict → Bool
  | .rejected _ => true
  | _ => false

/-- The frames that answer the frame. -/
def replies : Verdict → List (List UInt8)
  | .reply frame => [frame]
  | _ => []

/-- The connections that the frame opens. -/
def opened (stack : UdpStack) : Verdict → List SocketAddrV4
  | .message peer _ _ => if (stack.connections peer).isNone then [peer] else []
  | _ => []

end UdpStack.Verdict

section Batches

variable (ether : Etherparse)

/-- The stack rejects the frame. -/
def rejects (config : UdpStackConfig) (frame : List UInt8) : Bool :=
  (verdict ether config frame).isRejected

variable {frame : List UInt8} {b : UdpBatch} {e : FrameError}

theorem exists_verdict_of_rejects {config : UdpStackConfig}
    (h : rejects ether config frame = true) : ∃ e, verdict ether config frame = .rejected e := by
  cases hverdict : verdict ether config frame with
  | rejected e => exact ⟨e, rfl⟩
  | ignored | reply _ | message _ _ _ => simp [rejects, hverdict, Verdict.isRejected] at h

/-- A batch has no rejected frame, or a first one. -/
theorem accepted_or_first_rejected (config : UdpStackConfig) (frames : List (List UInt8)) :
    (∀ frame ∈ frames, rejects ether config frame = false) ∨
      ∃ good bad rest, frames = good ++ bad :: rest ∧
        (∀ frame ∈ good, rejects ether config frame = false) ∧ rejects ether config bad = true := by
  cases hfind : frames.find? (rejects ether config ·) with
  | none => exact .inl (by simpa using hfind)
  | some bad =>
    obtain ⟨hbad, good, rest, hframes, hgood⟩ := find?_eq_some_iff_append.mp hfind
    exact .inr ⟨good, bad, rest, hframes, by simpa using hgood, hbad⟩

/-- The answers to the frames. -/
def repliesTo (config : UdpStackConfig) (frames : List (List UInt8)) : List (List UInt8) :=
  frames.flatMap fun frame => (verdict ether config frame).replies

/-- A frame of a batch, where a rejected frame is skipped. -/
def handle (b : UdpBatch) (frame : List UInt8) : UdpBatch :=
  let v := verdict ether b.stack.config frame
  { b with
    stack := (b.stack.act b.txBuf v).2.1
    txBuf := b.txBuf ++ v.replies
    newConns := b.newConns ++ v.opened b.stack
    processed := b.processed + 1 }

/-- A batch in which rejected frames are skipped. -/
def handleAll (frames : List (List UInt8)) (b : UdpBatch) : UdpBatch :=
  frames.foldl (handle ether) b

/-- What `on_rx` returns for a verdict. -/
theorem act_eq (stack : UdpStack) (out : List (List UInt8)) (v : Verdict) :
    (stack.act out v).1.toOption.join.toList = v.opened stack ∧
      (stack.act out v).2.2 = out ++ v.replies := by
  cases v with
  | message peer peerMac payload =>
    refine ⟨?_, (append_nil out).symm⟩
    simp only [act, Verdict.opened]
    split <;> rfl
  | ignored | rejected e => exact ⟨rfl, (append_nil out).symm⟩
  | reply frame => exact ⟨rfl, rfl⟩

/-- With a stack that skips them, rejected frames do not end the loop. -/
theorem receive_skipping (frames : List (List UInt8)) (b : UdpBatch) :
    receive (udpStack ether).skipping frames b = handleAll ether frames b := by
  induction frames generalizing b with
  | nil => rfl
  | cons frame frames ih =>
    obtain ⟨hopened, hout⟩ := act_eq b.stack b.txBuf (verdict ether b.stack.config frame)
    have hstep : (udpStack ether).skipping.onRx b.stack frame b.txBuf =
        (.ok (b.stack.act b.txBuf (verdict ether b.stack.config frame)).1.toOption.join,
          (b.stack.act b.txBuf (verdict ether b.stack.config frame)).2) := by
      rw [← onRx_eq]
      rfl
    rw [receive, hstep]
    dsimp only
    rw [hopened, hout]
    exact ih _

theorem receive_cons_of_accepted (h : rejects ether b.stack.config frame = false)
    (frames : List (List UInt8)) :
    receive (udpStack ether) (frame :: frames) b =
      receive (udpStack ether) frames (handle ether b frame) := by
  obtain ⟨hopened, hout⟩ := act_eq b.stack b.txBuf (verdict ether b.stack.config frame)
  simp only [receive, udpStack, onRx_eq]
  cases hv : verdict ether b.stack.config frame with
  | rejected e => simp [rejects, hv, Verdict.isRejected] at h
  | ignored | reply _ | message _ _ _ =>
    rw [hv] at hopened hout
    simp only [handle, hv, ← hopened, ← hout]
    rfl

theorem receive_cons_of_rejected (h : verdict ether b.stack.config frame = .rejected e)
    (frames : List (List UInt8)) :
    receive (udpStack ether) (frame :: frames) b = { b with failure := some (.frame e) } := by
  simp only [receive, udpStack, onRx_eq, h, act]

@[simp] theorem config_act (stack : UdpStack) (out : List (List UInt8)) (v : Verdict) :
    (stack.act out v).2.1.config = stack.config := by
  cases v <;> rfl

@[simp] theorem pendingTx_act (stack : UdpStack) (out : List (List UInt8)) (v : Verdict) :
    (stack.act out v).2.1.pendingTx = stack.pendingTx := by
  cases v <;> rfl

@[simp] theorem failure_handleAll (frames : List (List UInt8)) (b : UdpBatch) :
    (handleAll ether frames b).failure = b.failure := by
  induction frames generalizing b with
  | nil => rfl
  | cons frame frames ih => exact ih _

@[simp] theorem processed_handleAll (frames : List (List UInt8)) (b : UdpBatch) :
    (handleAll ether frames b).processed = b.processed + frames.length := by
  induction frames generalizing b with
  | nil => rfl
  | cons frame frames ih =>
    rw [handleAll, foldl_cons, ← handleAll, ih, length_cons]
    simp only [handle]
    omega

theorem txBuf_handleAll (frames : List (List UInt8)) (b : UdpBatch) :
    (handleAll ether frames b).txBuf = b.txBuf ++ repliesTo ether b.stack.config frames := by
  induction frames generalizing b with
  | nil => exact (append_nil _).symm
  | cons frame frames ih =>
    rw [handleAll, foldl_cons, ← handleAll, ih]
    simp only [handle, config_act, repliesTo, flatMap_cons, append_assoc]

/-- A batch without rejected frames goes through. -/
theorem receive_of_accepted {frames : List (List UInt8)}
    (h : ∀ frame ∈ frames, rejects ether b.stack.config frame = false) :
    receive (udpStack ether) frames b = handleAll ether frames b := by
  induction frames generalizing b with
  | nil => rfl
  | cons frame frames ih =>
    rw [receive_cons_of_accepted ether (h frame mem_cons_self)]
    refine ih fun other hother => ?_
    rw [handle, config_act]
    exact h other (mem_cons_of_mem _ hother)

/-- The first rejected frame ends the batch, and leaves the stack as it is. -/
theorem receive_of_rejected {good : List (List UInt8)} {bad : List UInt8}
    (hgood : ∀ frame ∈ good, rejects ether b.stack.config frame = false)
    (hbad : verdict ether b.stack.config bad = .rejected e) (rest : List (List UInt8)) :
    receive (udpStack ether) (good ++ bad :: rest) b =
      { handleAll ether good b with failure := some (.frame e) } := by
  induction good generalizing b with
  | nil => exact receive_cons_of_rejected ether hbad rest
  | cons frame good ih =>
    rw [cons_append, receive_cons_of_accepted ether (hgood frame mem_cons_self)]
    have hconfig : (handle ether b frame).stack.config = b.stack.config := by
      rw [handle, config_act]
    refine ih (fun other hother => ?_) (hconfig ▸ hbad)
    rw [hconfig]
    exact hgood other (mem_cons_of_mem _ hother)

/-- A frame that opens no connection leaves the set of known senders as it is. -/
theorem opened_act {stack : UdpStack} {v : Verdict} (h : v.opened stack = [])
    (out : List (List UInt8)) (w : Verdict) :
    w.opened (stack.act out v).2.1 = w.opened stack := by
  cases v with
  | ignored | reply _ | rejected _ => rfl
  | message peer peerMac payload =>
    have hknown : (stack.connections peer).isNone = false := by
      by_contra hnone
      rw [Verdict.opened, if_pos (Bool.eq_true_of_not_eq_false hnone)] at h
      exact absurd h (cons_ne_nil _ _)
    have hsame : ∀ p, ((stack.enqueue peer peerMac payload).connections p).isNone =
        (stack.connections p).isNone := by
      intro p
      by_cases hp : p = peer
      · rw [connections_enqueue, if_pos hp, hp, hknown]
        rfl
      · rw [connections_enqueue, if_neg hp]
    cases w with
    | ignored | reply _ | rejected _ => rfl
    | message other _ _ => simp only [act, Verdict.opened, hsame]

theorem newConns_handleAll_eq_nil_iff (frames : List (List UInt8)) (b : UdpBatch) :
    (handleAll ether frames b).newConns = [] ↔
      b.newConns = [] ∧
        ∀ frame ∈ frames, (verdict ether b.stack.config frame).opened b.stack = [] := by
  induction frames generalizing b with
  | nil => simp [handleAll]
  | cons frame frames ih =>
    rw [handleAll, foldl_cons, ← handleAll, ih, forall_mem_cons, ← and_assoc]
    simp only [handle, config_act, append_eq_nil_iff]
    refine and_congr_right fun h => ?_
    simp only [opened_act h.2]

theorem repliesTo_eq_nil_iff (config : UdpStackConfig) (frames : List (List UInt8)) :
    repliesTo ether config frames = [] ↔
      ∀ frame ∈ frames, (verdict ether config frame).replies = [] :=
  flatMap_eq_nil_iff

end Batches

/-! ## Isolation -/

/-- The connections that a round hands to its caller. -/
def Round.returned {σ κ : Type} (r : Round σ κ) : List κ :=
  match r.result with
  | .ok (_, conns) => conns
  | .error _ => []

/-- No wakeup of the kernel fails. -/
def Answers.Undisturbed (answers : Answers) : Prop :=
  (∀ i, answers.wakeup i = none) ∧ answers.lastWakeup = none

/-- Without a failed wakeup the whole transmit queue is submitted. -/
theorem Datapath.submit_of_undisturbed {answers : Answers} (h : ∀ i, answers.wakeup i = none)
    (i : Nat) (frames : List (List UInt8)) (dp : Datapath) :
    (submit answers i frames dp).failure = none ∧
      (submit answers i frames dp).fates.length = frames.length := by
  induction frames generalizing i dp with
  | nil => exact ⟨rfl, rfl⟩
  | cons frame frames ih =>
    unfold submit
    split
    · exact ⟨(ih _ _).1, congrArg (· + 1) (ih _ _).2⟩
    · split_ifs
      · exact ⟨(ih _ _).1, congrArg (· + 1) (ih _ _).2⟩
      · simp only [h i]
        exact ⟨(ih _ _).1, congrArg (· + 1) (ih _ _).2⟩

section Isolation

variable (ether : Etherparse)

/-- The UDP stack has no timers, so a batch without error is submitted as it is. -/
theorem finish_udpStack (answers : Answers) (dp : Datapath) (b : UdpBatch)
    (batch : List (FrameDesc × List UInt8)) :
    finish (udpStack ether) answers dp b batch =
      transmit (udpStack ether) answers
        ((dp.kernelMoves answers.beforeFill).refill (batch.map Prod.fst)) b
        (batch.map Prod.snd) := rfl

theorem returned_transmit_of_undisturbed {answers : Answers} (h : answers.Undisturbed)
    (dp : Datapath) (b : UdpBatch) (handed : List (List UInt8)) :
    (transmit (udpStack ether) answers dp b handed).returned = b.newConns := by
  have hsubmit := (Datapath.submit_of_undisturbed h.1 0 b.txBuf dp).1
  simp only [transmit, hsubmit, h.2, Round.returned]

theorem returned_transmit_of_nil (answers : Answers) (dp : Datapath) {b : UdpBatch}
    (h : b.newConns = []) (handed : List (List UInt8)) :
    (transmit (udpStack ether) answers dp b handed).returned = [] := by
  unfold transmit
  dsimp only
  split
  · rfl
  · rfl
  · exact h

/-- The rejected frames of a round have no effect on the others.  Compared is the round of
a stack that skips them. -/
structure Isolated (arrivals : Arrivals) (answers : Answers) (dp : Datapath) (stack : UdpStack) :
    Prop where
  /-- Every other frame is handed to the stack. -/
  handed : (pollOnce (udpStack ether) arrivals answers dp stack).handed.filter
      (!rejects ether stack.config ·) = (dp.frames arrivals).filter (!rejects ether stack.config ·)
  returned : (pollOnce (udpStack ether) arrivals answers dp stack).returned =
    (pollOnce (udpStack ether).skipping arrivals answers dp stack).returned
  fates : (pollOnce (udpStack ether) arrivals answers dp stack).fates =
    (pollOnce (udpStack ether).skipping arrivals answers dp stack).fates
  /-- If no wakeup fails, every connection that the stack has opened for the batch is
  returned, and every frame that it has pushed is submitted or dropped with a cause. -/
  undisturbed : answers.Undisturbed →
    (pollOnce (udpStack ether) arrivals answers dp stack).returned =
        (received (udpStack ether).skipping arrivals dp stack).newConns ∧
      (pollOnce (udpStack ether) arrivals answers dp stack).fates.length =
        (received (udpStack ether).skipping arrivals dp stack).txBuf.length

/-- No frame of the batch is rejected; or only rejected frames come after a rejected one,
and no frame of the batch is answered or opens a connection. -/
def Harmless (stack : UdpStack) (frames : List (List UInt8)) : Prop :=
  (∀ frame ∈ frames, rejects ether stack.config frame = false) ∨
    (frames.Pairwise fun earlier later =>
      rejects ether stack.config earlier = true → rejects ether stack.config later = true) ∧
    ∀ frame ∈ frames, (verdict ether stack.config frame).replies = [] ∧
      (verdict ether stack.config frame).opened stack = []

variable {ether} {arrivals : Arrivals} {dp : Datapath} {stack : UdpStack}

theorem received_skipping :
    received (udpStack ether).skipping arrivals dp stack =
      handleAll ether (dp.frames arrivals) { stack := stack } :=
  receive_skipping ether _ _

/-- The round of a stack that skips rejected frames. -/
theorem pollOnce_skipping (answers : Answers) :
    pollOnce (udpStack ether).skipping arrivals answers dp stack =
      transmit (udpStack ether) answers
        (((dp.fetch arrivals).2.kernelMoves answers.beforeFill).refill
          ((dp.fetch arrivals).1.map Prod.fst))
        (handleAll ether (dp.frames arrivals) { stack := stack }) (dp.frames arrivals) := by
  rw [pollOnce_of_accepted (by rw [received_skipping, failure_handleAll]), received_skipping]
  rfl

/-- A batch without rejected frames is a batch that skips them. -/
theorem pollOnce_of_all_accepted
    (h : ∀ frame ∈ dp.frames arrivals, rejects ether stack.config frame = false)
    (answers : Answers) :
    pollOnce (udpStack ether) arrivals answers dp stack =
      pollOnce (udpStack ether).skipping arrivals answers dp stack := by
  have hreceived : received (udpStack ether) arrivals dp stack =
      handleAll ether (dp.frames arrivals) { stack := stack } := receive_of_accepted ether h
  rw [pollOnce_skipping, pollOnce_of_accepted (by rw [hreceived, failure_handleAll]), hreceived,
    finish_udpStack]
  rfl

variable {good rest : List (List UInt8)} {bad : List UInt8}

/-- A rejected frame ends the round at once. -/
theorem pollOnce_of_rejected (hframes : dp.frames arrivals = good ++ bad :: rest)
    (hgood : ∀ frame ∈ good, rejects ether stack.config frame = false)
    (hbad : rejects ether stack.config bad = true) (answers : Answers) :
    (pollOnce (udpStack ether) arrivals answers dp stack).handed = good ++ [bad] ∧
      (pollOnce (udpStack ether) arrivals answers dp stack).returned = [] ∧
      (pollOnce (udpStack ether) arrivals answers dp stack).fates = [] ∧
      (pollOnce (udpStack ether) arrivals answers dp stack).pushed =
        repliesTo ether stack.config good := by
  obtain ⟨e, hverdict⟩ := exists_verdict_of_rejects ether hbad
  have hreceived : received (udpStack ether) arrivals dp stack =
      { handleAll ether good { stack := stack } with failure := some (.frame e) } := by
    rw [received, hframes]
    exact receive_of_rejected ether hgood hverdict rest
  rw [pollOnce_of_failure (by rw [hreceived]), hframes, hreceived]
  refine ⟨?_, rfl, rfl, ?_⟩
  · simp only [abort, processed_handleAll, Nat.zero_add]
    rw [take_append, take_of_length_le (Nat.le_succ _), Nat.add_sub_cancel_left]
    rfl
  · simp only [abort, txBuf_handleAll, nil_append]

theorem isolated_of_all_accepted
    (h : ∀ frame ∈ dp.frames arrivals, rejects ether stack.config frame = false)
    (answers : Answers) : Isolated ether arrivals answers dp stack := by
  have hround := pollOnce_of_all_accepted h answers
  refine ⟨?_, congrArg Round.returned hround, congrArg Round.fates hround, fun hquiet => ?_⟩
  · rw [hround, pollOnce_skipping, handed_transmit]
  · rw [hround, pollOnce_skipping, received_skipping, fates_transmit]
    exact ⟨returned_transmit_of_undisturbed ether hquiet _ _ _,
      (Datapath.submit_of_undisturbed hquiet.1 0 _ _).2⟩

/-- What a batch with a rejected frame needs: only rejected frames behind the first one, and
no connection and no answer in the batch. -/
theorem isolated_iff_of_rejected (hframes : dp.frames arrivals = good ++ bad :: rest)
    (hgood : ∀ frame ∈ good, rejects ether stack.config frame = false)
    (hbad : rejects ether stack.config bad = true) :
    (∀ answers, Isolated ether arrivals answers dp stack) ↔
      (∀ frame ∈ rest, rejects ether stack.config frame = true) ∧
        ∀ frame ∈ dp.frames arrivals, (verdict ether stack.config frame).replies = [] ∧
          (verdict ether stack.config frame).opened stack = [] := by
  have hround := pollOnce_of_rejected hframes hgood hbad
  have hfilter : (good ++ [bad]).filter (!rejects ether stack.config ·) =
      (dp.frames arrivals).filter (!rejects ether stack.config ·) ↔
        ∀ frame ∈ rest, rejects ether stack.config frame = true := by
    rw [hframes, filter_append, filter_append, append_cancel_left_eq,
      filter_cons, filter_cons, hbad, Bool.not_true, if_neg Bool.false_ne_true,
      if_neg Bool.false_ne_true, filter_nil, eq_comm, filter_eq_nil_iff]
    simp
  have hconns := newConns_handleAll_eq_nil_iff ether (dp.frames arrivals) { stack := stack }
  have hreplies := repliesTo_eq_nil_iff ether stack.config (dp.frames arrivals)
  have htx := txBuf_handleAll ether (dp.frames arrivals) { stack := stack }
  constructor
  · intro h
    -- a kernel without failures shows everything that is missing
    have hquiet : ({} : Answers).Undisturbed := ⟨fun _ => rfl, rfl⟩
    obtain ⟨hhanded, -, -, hall⟩ := h {}
    obtain ⟨hreturned, hfates⟩ := hall hquiet
    obtain ⟨hseen, hnone, hnofates, -⟩ := hround {}
    rw [hseen] at hhanded
    rw [hnone, received_skipping] at hreturned
    rw [hnofates, received_skipping, htx] at hfates
    have hopened := (hconns.mp hreturned.symm).2
    have hanswered := hreplies.mp (eq_nil_of_length_eq_zero hfates.symm)
    exact ⟨hfilter.mp hhanded, fun frame hframe => ⟨hanswered frame hframe, hopened frame hframe⟩⟩
  · rintro ⟨hrest, hsilent⟩ answers
    obtain ⟨hseen, hnone, hnofates, -⟩ := hround answers
    have hnoconns := hconns.mpr ⟨rfl, fun frame hframe => (hsilent frame hframe).2⟩
    have hnotx : (handleAll ether (dp.frames arrivals) { stack := stack }).txBuf = [] := by
      rw [htx, hreplies.mpr fun frame hframe => (hsilent frame hframe).1]
      rfl
    refine ⟨?_, ?_, ?_, fun _ => ?_⟩
    · rw [hseen]
      exact hfilter.mpr hrest
    · rw [hnone, pollOnce_skipping, returned_transmit_of_nil ether _ _ hnoconns]
    · rw [hnofates, pollOnce_skipping, fates_transmit, hnotx]
      rfl
    · rw [hnone, hnofates, received_skipping, hnoconns, hnotx]
      exact ⟨rfl, rfl⟩

/-- Behind the first rejected frame of a batch there are only rejected ones. -/
theorem pairwise_iff_of_rejected (hgood : ∀ frame ∈ good, rejects ether stack.config frame = false)
    (hbad : rejects ether stack.config bad = true) (rest : List (List UInt8)) :
    ((good ++ bad :: rest).Pairwise fun earlier later =>
        rejects ether stack.config earlier = true → rejects ether stack.config later = true) ↔
      ∀ frame ∈ rest, rejects ether stack.config frame = true := by
  have haccepted : ∀ {frame}, frame ∈ good → ¬ rejects ether stack.config frame = true :=
    fun hframe => by simp [hgood _ hframe]
  rw [pairwise_append, pairwise_cons]
  constructor
  · rintro ⟨-, ⟨hrest, -⟩, -⟩ frame hframe
    exact hrest frame hframe hbad
  · intro hrest
    refine ⟨?_, ⟨fun frame hframe _ => hrest frame hframe, ?_⟩, ?_⟩
    · exact pairwise_of_forall_mem_list fun _ hearlier _ _ h => absurd h (haccepted hearlier)
    · exact pairwise_of_forall_mem_list fun _ _ later hlater _ => hrest later hlater
    · exact fun _ hearlier _ _ h => absurd h (haccepted hearlier)

/-- Rejected frames have no effect on the other frames of their batch, whatever the kernel
does in the rest of the round, if and only if the batch is harmless. -/
theorem isolated_iff (ether : Etherparse) (arrivals : Arrivals) (dp : Datapath) (stack : UdpStack) :
    (∀ answers, Isolated ether arrivals answers dp stack) ↔
      Harmless ether stack (dp.frames arrivals) := by
  rcases accepted_or_first_rejected ether stack.config (dp.frames arrivals) with
    hall | ⟨good, bad, rest, hframes, hgood, hbad⟩
  · exact iff_of_true (isolated_of_all_accepted hall) (.inl hall)
  · have hnot : ¬ ∀ frame ∈ dp.frames arrivals, rejects ether stack.config frame = false :=
      fun hall => absurd (hall bad (by simp [hframes])) (by simp [hbad])
    rw [isolated_iff_of_rejected hframes hgood hbad, Harmless, or_iff_right hnot]
    refine and_congr_left fun _ => ?_
    rw [hframes]
    exact (pairwise_iff_of_rejected hgood hbad rest).symm

end Isolation

/-- A stack at `10.0.0.1:9000`. -/
def localConfig : UdpStackConfig := .new #v[10, 0, 0, 1] 9000 #v[2, 0, 0, 0, 0, 0xaa]

/-- A sender at `10.0.0.2:5555`. -/
def somePeer : SocketAddrV4 := ⟨#v[10, 0, 0, 2], 5555⟩

/-- A datagram from the sender to the stack. -/
def fromPeer (payload : List UInt8) : List UInt8 :=
  (Etherparse.plainWriteUdp
    ⟨#v[2, 0, 0, 0, 0, 0xbb], localConfig.localMac, somePeer.ip, localConfig.localIp, somePeer.port,
      localConfig.localPort⟩ payload).toOption.getD []

/-- The kernel receives the frames into the first descriptors. -/
def arrivalsOf (frames : List (List UInt8)) : Arrivals where
  beforeRx := frames.zipIdx.flatMap fun p => [.takeFill, .receive p.2 p.1]

/-- Three datagrams; the length in the second one is longer than its message. -/
def cutDatagram : Arrivals :=
  arrivalsOf [fromPeer [1, 0, 0, 0, 7], fromPeer [5, 0, 0, 0, 8], fromPeer [1, 0, 0, 0, 9]]

/-- The connection that the first datagram has opened is lost, and the third datagram is
never looked at. -/
theorem isolation_broken :
    ∃ dp, Datapath.bind 8 4 4 = .ok dp ∧
      (received (udpStack .plain).skipping cutDatagram dp (.new localConfig)).newConns =
        [somePeer] ∧
      ∀ answers,
        (pollOnce (udpStack .plain) cutDatagram answers dp (.new localConfig)).handed =
            [fromPeer [1, 0, 0, 0, 7], fromPeer [5, 0, 0, 0, 8]] ∧
          (pollOnce (udpStack .plain) cutDatagram answers dp (.new localConfig)).returned = [] ∧
          ¬ Isolated .plain cutDatagram answers dp (.new localConfig) := by
  refine ⟨_, rfl, by decide, fun answers => ⟨by rfl, by rfl, fun h => ?_⟩⟩
  have hhanded : [fromPeer [1, 0, 0, 0, 7], fromPeer [5, 0, 0, 0, 8]].filter
      (!rejects .plain localConfig ·) =
        [fromPeer [1, 0, 0, 0, 7], fromPeer [5, 0, 0, 0, 8], fromPeer [1, 0, 0, 0, 9]].filter
          (!rejects .plain localConfig ·) := h.handed
  exact absurd hhanded (by decide)

end IronSbe.Transport.Xdp
