import Mathlib.Data.List.Range
import IronSbe.Lib.BoundedQueue
import IronSbe.Lib.Conservation

/-!
# The AF_XDP datapath

A `Datapath` shares frames of memory with the kernel.  Descriptors of the frames go
round through four rings: the fill ring gives the kernel frames to receive into, which
come back on the rx ring, and the tx ring gives it frames to send, which come back on the
completion ring.  `poll_once` is one round of the userspace side: it takes back sent
frames, hands received frames to the stack, and submits what the stack has to send.

The kernel works at the same time.  Its moves between the ring operations of a round, and
its answers to them, are inputs of the round.  The data of a frame is kept with its
descriptor on the ring that carries it.

* `XdpStack`: what the datapath needs of a stack.
* `pollOnce`: a round, with a record of what it did.
* `stack_pollOnce`: what the calls of the stack preserve, a round preserves.
* `ledger`: where the descriptors are, and which of them a round loses.
* `descriptors_conserved_iff`: the rounds after which every descriptor still has its place.
-/

namespace IronSbe.Transport.Xdp

open Lib List

/-- A frame of the UMEM, by its number. -/
abbrev FrameDesc := Nat

/-- Maximum number of descriptors per round. -/
def batchSize : Nat := 64

/-- A stack above the datapath: its state, the connections that it opens, its errors.
The transmit queue is passed through. -/
structure XdpStack (σ κ ε : Type) where
  onRx : σ → List UInt8 → List (List UInt8) → Except ε (Option κ) × σ × List (List UInt8)
  pollTimers : σ → List (List UInt8) → Except ε Unit × σ × List (List UInt8)
  /-- What `drop` of a connection does. -/
  dropConnection : σ → κ → σ
  message : ε → String

/-- The errors of the datapath. -/
inductive DatapathError where
  | frameCount
  | stack (message : String)
  | txProduce (message : String)
  | wakeup (message : String)
  deriving DecidableEq, Repr

/-- The texts of the errors. -/
def DatapathError.text : DatapathError → String
  | .frameCount => "frame_count must be > 0"
  | .stack message => message
  | .txProduce message => "tx produce: " ++ message
  | .wakeup message => message

/-! ## The rings -/

/-- The four rings, the descriptors that the kernel holds between two of them, and the
free ones.  The free descriptor that is used next is the first one. -/
structure Datapath where
  fillQ : BoundedQueue FrameDesc
  rxQ : List (FrameDesc × List UInt8) := []
  txQ : BoundedQueue (FrameDesc × List UInt8)
  compQ : List FrameDesc := []
  held : List FrameDesc := []
  freeDescs : List FrameDesc

/-- A move of the kernel. -/
inductive KernelMove where
  | takeFill
  | receive (desc : FrameDesc) (data : List UInt8)
  | takeTx
  | complete (desc : FrameDesc)
  deriving DecidableEq, Repr

/-- What the kernel does before the datapath takes the received frames. -/
structure Arrivals where
  beforeComp : List KernelMove := []
  beforeRx : List KernelMove := []

/-- What the kernel does in the rest of a round.  The functions are in terms of the place
of a frame in the transmit queue. -/
structure Answers where
  beforeFill : List KernelMove := []
  /-- The moves before the frame is put on the tx ring. -/
  beforeTx : Nat → List KernelMove := fun _ => []
  /-- Whether the frame can be written to its descriptor. -/
  writes : Nat → Bool := fun _ => true
  /-- The error of the wakeup behind the frame, if it is needed and fails. -/
  wakeup : Nat → Option String := fun _ => none
  lastWakeup : Option String := none

/-- What became of a frame in the transmit queue. -/
inductive Fate where
  | enqueued
  /-- The tx ring was full. -/
  | refused (desc : FrameDesc)
  | writeFailed
  | noDescriptor
  deriving DecidableEq, Repr

namespace Datapath

/-- The descriptors that `Umem::new` creates. -/
def umem (frameCount : Nat) : List FrameDesc := List.range frameCount

/-- `bind`, for a kernel that grants the socket with rings of these sizes. -/
def bind (frameCount fillSize txSize : Nat) : Except DatapathError Datapath :=
  if frameCount = 0 then .error .frameCount
  else
    let frameDescs := umem frameCount
    let half := frameDescs.length / 2
    .ok {
      fillQ := (BoundedQueue.empty fillSize).offerAll (frameDescs.take half)
      txQ := BoundedQueue.empty txSize
      -- `free_descs` is used from its end
      freeDescs := (frameDescs.drop half).reverse }

/-- A step of the kernel. -/
def kernel (dp : Datapath) : KernelMove → Datapath
  | .takeFill =>
    match dp.fillQ.pop? with
    | none => dp
    | some (desc, fillQ) => { dp with fillQ := fillQ, held := desc :: dp.held }
  | .receive desc data =>
    if desc ∈ dp.held then
      { dp with held := dp.held.erase desc, rxQ := dp.rxQ ++ [(desc, data)] }
    else dp
  | .takeTx =>
    match dp.txQ.pop? with
    | none => dp
    | some (sent, txQ) => { dp with txQ := txQ, held := sent.1 :: dp.held }
  | .complete desc =>
    if desc ∈ dp.held then
      { dp with held := dp.held.erase desc, compQ := dp.compQ ++ [desc] }
    else dp

/-- Many steps of the kernel. -/
def kernelMoves (dp : Datapath) (moves : List KernelMove) : Datapath := moves.foldl kernel dp

/-- Take completed descriptors back. -/
def reclaim (dp : Datapath) : Datapath :=
  { dp with
    compQ := dp.compQ.drop batchSize
    freeDescs := (dp.compQ.take batchSize).reverse ++ dp.freeDescs }

/-- The first two ring operations: the frames that have been received. -/
def fetch (dp : Datapath) (arrivals : Arrivals) : List (FrameDesc × List UInt8) × Datapath :=
  let dp := ((dp.kernelMoves arrivals.beforeComp).reclaim).kernelMoves arrivals.beforeRx
  (dp.rxQ.take batchSize, { dp with rxQ := dp.rxQ.drop batchSize })

/-- The received frames. -/
def frames (dp : Datapath) (arrivals : Arrivals) : List (List UInt8) :=
  (dp.fetch arrivals).1.map Prod.snd

/-- Return descriptors to the fill ring.  The result of `produce` is not looked at. -/
def refill (dp : Datapath) (descs : List FrameDesc) : Datapath :=
  { dp with fillQ := dp.fillQ.offerAll descs }

/-- What the submission of the transmit queue did. -/
structure Submission where
  datapath : Datapath
  failure : Option DatapathError
  /-- The fates of the frames, up to the one whose wakeup failed. -/
  fates : List Fate

/-- The fate of the frame in front. -/
def Submission.prepend (fate : Fate) (s : Submission) : Submission :=
  { s with fates := fate :: s.fates }

/-- Put a frame on the tx ring.  A full ring takes nothing. -/
def produceTx (dp : Datapath) (desc : FrameDesc) (frame : List UInt8) : Fate × Datapath :=
  (if dp.txQ.items.length < dp.txQ.capacity then .enqueued else .refused desc,
    { dp with txQ := dp.txQ.offer (desc, frame) })

/-- Submit the frames; `i` is the place of the first of them. -/
def submit (answers : Answers) : Nat → List (List UInt8) → Datapath → Submission
  | _, [], dp => ⟨dp, none, []⟩
  | i, frame :: frames, dp =>
    match dp.freeDescs with
    | [] => (submit answers (i + 1) frames dp).prepend .noDescriptor
    | desc :: freeDescs =>
      -- after a failed write the descriptor is put back
      if !answers.writes i then (submit answers (i + 1) frames dp).prepend .writeFailed
      else
        let r := (({ dp with freeDescs := freeDescs } : Datapath).kernelMoves
          (answers.beforeTx i)).produceTx desc frame
        match answers.wakeup i with
        | some e => ⟨r.2, some (.txProduce e), [r.1]⟩
        | none => (submit answers (i + 1) frames r.2).prepend r.1

end Datapath

/-! ## A round -/

/-- The loop over the received frames. -/
structure Batch (σ κ ε : Type) where
  stack : σ
  txBuf : List (List UInt8) := []
  newConns : List κ := []
  processed : Nat := 0
  /-- The error of the stack that has ended the loop. -/
  failure : Option ε := none

/-- What a round did. -/
structure Round (σ κ : Type) where
  datapath : Datapath
  stack : σ
  result : Except DatapathError (Nat × List κ)
  /-- The frames that were handed to the stack. -/
  handed : List (List UInt8)
  /-- The frames that were put in the transmit queue. -/
  pushed : List (List UInt8)
  fates : List Fate

section Round

variable {σ κ ε : Type} (S : XdpStack σ κ ε)

/-- Hand the frames to the stack, up to the first error. -/
def receive : List (List UInt8) → Batch σ κ ε → Batch σ κ ε
  | [], b => b
  | frame :: frames, b =>
    match S.onRx b.stack frame b.txBuf with
    | (.error e, stack, txBuf) => { b with stack := stack, txBuf := txBuf, failure := some e }
    | (.ok conn, stack, txBuf) =>
      receive frames { b with
        stack := stack
        txBuf := txBuf
        newConns := b.newConns ++ conn.toList
        processed := b.processed + 1 }

/-- The loop over the frames of a round. -/
def received (arrivals : Arrivals) (dp : Datapath) (stack : σ) : Batch σ κ ε :=
  receive S (dp.frames arrivals) { stack := stack }

/-- An error ends the round, and the connections that it has opened are dropped. -/
def abort (dp : Datapath) (b : Batch σ κ ε) (handed : List (List UInt8)) (fates : List Fate)
    (e : DatapathError) : Round σ κ where
  datapath := dp
  stack := b.newConns.foldl S.dropConnection b.stack
  result := .error e
  handed := handed
  pushed := b.txBuf
  fates := fates

/-- The end of a round: submit the transmit queue and wake the kernel. -/
def transmit (answers : Answers) (dp : Datapath) (b : Batch σ κ ε) (handed : List (List UInt8)) :
    Round σ κ :=
  let s := Datapath.submit answers 0 b.txBuf dp
  match s.failure, answers.lastWakeup with
  | some e, _ => abort S s.datapath b handed s.fates e
  | none, some e => abort S s.datapath b handed s.fates (.wakeup e)
  | none, none => ⟨s.datapath, b.stack, .ok (b.processed, b.newConns), handed, b.txBuf, s.fates⟩

/-- The part of a round behind a batch without error. -/
def finish (answers : Answers) (dp : Datapath) (b : Batch σ κ ε)
    (batch : List (FrameDesc × List UInt8)) : Round σ κ :=
  let dp := (dp.kernelMoves answers.beforeFill).refill (batch.map Prod.fst)
  let handed := batch.map Prod.snd
  match S.pollTimers b.stack b.txBuf with
  | (.error e, stack, txBuf) =>
    abort S dp { b with stack := stack, txBuf := txBuf } handed [] (.stack (S.message e))
  | (.ok (), stack, txBuf) =>
    transmit S answers dp { b with stack := stack, txBuf := txBuf } handed

/-- `poll_once`.  The descriptors of a batch with an error stay in `rx_scratch`, which the
next round overwrites. -/
def pollOnce (arrivals : Arrivals) (answers : Answers) (dp : Datapath) (stack : σ) : Round σ κ :=
  let b := received S arrivals dp stack
  match b.failure with
  | some e =>
    abort S (dp.fetch arrivals).2 b ((dp.frames arrivals).take (b.processed + 1)) []
      (.stack (S.message e))
  | none => finish S answers (dp.fetch arrivals).2 b (dp.fetch arrivals).1

variable {S} in
theorem pollOnce_of_failure {arrivals : Arrivals} {answers : Answers} {dp : Datapath} {stack : σ}
    {e : ε} (h : (received S arrivals dp stack).failure = some e) :
    pollOnce S arrivals answers dp stack =
      abort S (dp.fetch arrivals).2 (received S arrivals dp stack)
        ((dp.frames arrivals).take ((received S arrivals dp stack).processed + 1))
        [] (.stack (S.message e)) := by
  simp only [pollOnce, h]

variable {S} in
theorem pollOnce_of_accepted {arrivals : Arrivals} {answers : Answers} {dp : Datapath} {stack : σ}
    (h : (received S arrivals dp stack).failure = none) :
    pollOnce S arrivals answers dp stack =
      finish S answers (dp.fetch arrivals).2 (received S arrivals dp stack)
        (dp.fetch arrivals).1 := by
  simp only [pollOnce, h]

section Invariant

variable {S} {P : σ → Prop} (hdrop : ∀ stack conn, P stack → P (S.dropConnection stack conn))
include hdrop

theorem stack_abort {b : Batch σ κ ε} (h : P b.stack) (dp : Datapath) (handed : List (List UInt8))
    (fates : List Fate) (e : DatapathError) : P (abort S dp b handed fates e).stack := by
  have hfold : ∀ (conns : List κ) stack, P stack → P (conns.foldl S.dropConnection stack) := by
    intro conns
    induction conns with
    | nil => exact fun _ h => h
    | cons conn conns ih => exact fun stack h => ih _ (hdrop stack conn h)
  exact hfold b.newConns b.stack h

theorem stack_transmit {b : Batch σ κ ε} (h : P b.stack) (answers : Answers) (dp : Datapath)
    (handed : List (List UInt8)) : P (transmit S answers dp b handed).stack := by
  unfold transmit
  dsimp only
  split
  · exact stack_abort hdrop h _ _ _ _
  · exact stack_abort hdrop h _ _ _ _
  · exact h

/-- What the calls of the stack preserve, a round preserves. -/
theorem stack_pollOnce (hrx : ∀ stack frame out, P stack → P (S.onRx stack frame out).2.1)
    (htimers : ∀ stack out, P stack → P (S.pollTimers stack out).2.1) {stack : σ} (h : P stack)
    (arrivals : Arrivals) (answers : Answers) (dp : Datapath) :
    P (pollOnce S arrivals answers dp stack).stack := by
  have hreceive : ∀ (frames : List (List UInt8)) (b : Batch σ κ ε), P b.stack →
      P (receive S frames b).stack := by
    intro frames
    induction frames with
    | nil => exact fun _ h => h
    | cons frame frames ih =>
      intro b hb
      have hnext := hrx b.stack frame b.txBuf hb
      rw [receive]
      split
      · next heq => rwa [heq] at hnext
      · next heq => exact ih _ (by rwa [heq] at hnext)
  have hreceived : P (received S arrivals dp stack).stack := hreceive _ _ h
  cases hfailure : (received S arrivals dp stack).failure with
  | some e =>
    rw [pollOnce_of_failure hfailure]
    exact stack_abort hdrop hreceived _ _ _ _
  | none =>
    have htimer := htimers _ (received S arrivals dp stack).txBuf hreceived
    rw [pollOnce_of_accepted hfailure]
    unfold finish
    split
    · next heq => exact stack_abort hdrop (by rwa [heq] at htimer) _ _ _ _
    · next heq => exact stack_transmit hdrop (by rwa [heq] at htimer) _ _ _

end Invariant

end Round

/-! ## Where the descriptors are -/

namespace Datapath

/-- The number of times that a descriptor is on a ring, with the kernel, or free. -/
def places (dp : Datapath) (d : FrameDesc) : Nat :=
  dp.fillQ.items.count d + (dp.rxQ.map Prod.fst).count d + (dp.txQ.items.map Prod.fst).count d +
    dp.compQ.count d + dp.held.count d + dp.freeDescs.count d

variable (dp : Datapath) (d : FrameDesc)

/-- The kernel moves descriptors and loses none. -/
theorem places_kernel (move : KernelMove) : (dp.kernel move).places d = dp.places d := by
  cases move with
  | takeFill =>
    cases hpop : dp.fillQ.pop? with
    | none => simp [kernel, hpop]
    | some r =>
      simp only [kernel, hpop, places, BoundedQueue.items_of_pop? hpop, count_cons]
      omega
  | receive desc data =>
    by_cases hheld : desc ∈ dp.held
    · have hcount := (perm_cons_erase hheld).count_eq d
      rw [count_cons] at hcount
      simp only [kernel, if_pos hheld, places, map_append, count_append, map_cons,
        map_nil, count_singleton]
      omega
    · rw [kernel, if_neg hheld]
  | takeTx =>
    cases hpop : dp.txQ.pop? with
    | none => simp [kernel, hpop]
    | some r =>
      simp only [kernel, hpop, places, BoundedQueue.items_of_pop? hpop, count_cons,
        map_cons]
      omega
  | complete desc =>
    by_cases hheld : desc ∈ dp.held
    · have hcount := (perm_cons_erase hheld).count_eq d
      rw [count_cons] at hcount
      simp only [kernel, if_pos hheld, places, count_append, count_singleton]
      omega
    · rw [kernel, if_neg hheld]

@[simp] theorem places_kernelMoves (moves : List KernelMove) :
    (dp.kernelMoves moves).places d = dp.places d := by
  induction moves generalizing dp with
  | nil => rfl
  | cons move moves ih => exact (ih (dp.kernel move)).trans (places_kernel dp d move)

@[simp] theorem places_reclaim : dp.reclaim.places d = dp.places d := by
  have hcount : (dp.compQ.take batchSize).count d + (dp.compQ.drop batchSize).count d =
      dp.compQ.count d := by
    rw [← count_append, take_append_drop]
  simp only [reclaim, places, count_append, count_reverse]
  omega

/-- The descriptors of the received frames are in no place while the stack looks at them. -/
theorem places_fetch (arrivals : Arrivals) :
    (dp.fetch arrivals).2.places d + ((dp.fetch arrivals).1.map Prod.fst).count d =
      dp.places d := by
  have hmoves : (((dp.kernelMoves arrivals.beforeComp).reclaim).kernelMoves
      arrivals.beforeRx).places d = dp.places d := by simp
  rw [← hmoves]
  simp only [fetch]
  generalize ((dp.kernelMoves arrivals.beforeComp).reclaim).kernelMoves arrivals.beforeRx = mid
  have hcount : ((mid.rxQ.take batchSize).map Prod.fst).count d +
      ((mid.rxQ.drop batchSize).map Prod.fst).count d = (mid.rxQ.map Prod.fst).count d := by
    rw [← count_append, ← map_append, take_append_drop]
  simp only [places]
  omega

/-- There is room in the fill ring for the descriptors. -/
def HasRoom (dp : Datapath) (descs : List FrameDesc) : Prop :=
  dp.fillQ.items.length + descs.length ≤ dp.fillQ.capacity

instance (descs : List FrameDesc) : Decidable (dp.HasRoom descs) :=
  inferInstanceAs (Decidable (_ ≤ _))

theorem places_refill (descs : List FrameDesc) :
    (dp.refill descs).places d + (if dp.HasRoom descs then [] else descs).count d =
      dp.places d + descs.count d := by
  by_cases hroom : dp.HasRoom descs
  · have hitems := BoundedQueue.items_offerAll_of_le hroom
    simp only [if_pos hroom, refill, places, hitems, count_append, count_nil]
    omega
  · rw [if_neg hroom, refill, BoundedQueue.offerAll_of_lt (Nat.lt_of_not_le hroom)]

end Datapath

/-- The descriptor that is lost with a frame: one that the tx ring has refused. -/
def Fate.lost : Fate → List FrameDesc
  | .refused desc => [desc]
  | _ => []

namespace Datapath

/-- The descriptor of a refused frame is the only one that is not back in its place. -/
theorem places_produceTx (dp : Datapath) (d desc : FrameDesc) (frame : List UInt8) :
    (dp.produceTx desc frame).2.places d + (dp.produceTx desc frame).1.lost.count d =
      dp.places d + [desc].count d := by
  by_cases hroom : dp.txQ.items.length < dp.txQ.capacity
  · simp only [produceTx, if_pos hroom, places, BoundedQueue.items_offer_of_lt hroom, Fate.lost,
      map_append, map_cons, map_nil, count_append, count_nil]
    omega
  · simp only [produceTx, if_neg hroom, BoundedQueue.offer_of_le (Nat.le_of_not_lt hroom),
      Fate.lost]

theorem places_submit (answers : Answers) (i : Nat) (frames : List (List UInt8)) (dp : Datapath)
    (d : FrameDesc) :
    (submit answers i frames dp).datapath.places d +
      ((submit answers i frames dp).fates.flatMap Fate.lost).count d = dp.places d := by
  induction frames generalizing i dp with
  | nil => simp [submit]
  | cons frame frames ih =>
    cases hfree : dp.freeDescs with
    | nil =>
      simp only [submit, hfree, Submission.prepend, flatMap_cons, Fate.lost, nil_append]
      exact ih (i + 1) dp
    | cons desc freeDescs =>
      cases hwrite : answers.writes i with
      | false =>
        simp only [submit, hfree, hwrite, Submission.prepend, flatMap_cons, Fate.lost,
          nil_append, Bool.not_false, if_true]
        exact ih (i + 1) dp
      | true =>
        have hpop : ({ dp with freeDescs := freeDescs } : Datapath).places d + [desc].count d =
            dp.places d := by
          simp only [places, hfree, count_cons, count_nil]
          omega
        have hproduce := places_produceTx
          (({ dp with freeDescs := freeDescs } : Datapath).kernelMoves (answers.beforeTx i)) d desc
          frame
        rw [places_kernelMoves, hpop] at hproduce
        simp only [submit, hfree, hwrite, Bool.not_true, Bool.false_eq_true, if_false]
        cases answers.wakeup i with
        | some e =>
          simp only [flatMap_cons, flatMap_nil, append_nil]
          exact hproduce
        | none =>
          have hrest := ih (i + 1) ((({ dp with freeDescs := freeDescs } : Datapath).kernelMoves
            (answers.beforeTx i)).produceTx desc frame).2
          simp only [Submission.prepend, flatMap_cons, count_append]
          omega

end Datapath

/-! ## What a round loses -/

section Ledger

variable {σ κ ε : Type} (S : XdpStack σ κ ε)

section

variable (answers : Answers) (dp : Datapath) (b : Batch σ κ ε) (handed : List (List UInt8))
include answers dp b handed

theorem datapath_transmit :
    (transmit S answers dp b handed).datapath =
      (Datapath.submit answers 0 b.txBuf dp).datapath := by
  unfold transmit
  dsimp only
  split <;> rfl

theorem fates_transmit :
    (transmit S answers dp b handed).fates = (Datapath.submit answers 0 b.txBuf dp).fates := by
  unfold transmit
  dsimp only
  split <;> rfl

theorem handed_transmit : (transmit S answers dp b handed).handed = handed := by
  unfold transmit
  dsimp only
  split <;> rfl

theorem pushed_transmit : (transmit S answers dp b handed).pushed = b.txBuf := by
  unfold transmit
  dsimp only
  split <;> rfl

end

theorem places_finish (answers : Answers) (dp : Datapath) (b : Batch σ κ ε)
    (batch : List (FrameDesc × List UInt8)) (d : FrameDesc) :
    (finish S answers dp b batch).datapath.places d +
        ((if (dp.kernelMoves answers.beforeFill).HasRoom (batch.map Prod.fst) then []
          else batch.map Prod.fst) ++
          (finish S answers dp b batch).fates.flatMap Fate.lost).count d =
      dp.places d + (batch.map Prod.fst).count d := by
  have hrefill := (dp.kernelMoves answers.beforeFill).places_refill d (batch.map Prod.fst)
  rw [Datapath.places_kernelMoves] at hrefill
  rw [count_append]
  unfold finish
  generalize S.pollTimers b.stack b.txBuf = timers
  obtain ⟨_ | _, stack, txBuf⟩ := timers
  · simp only [abort, flatMap_nil, count_nil, Nat.add_zero]
    exact hrefill
  · have hsubmit := Datapath.places_submit answers 0 txBuf
      ((dp.kernelMoves answers.beforeFill).refill (batch.map Prod.fst)) d
    simp only [datapath_transmit, fates_transmit]
    omega

/-- The descriptors of the batch go back to the fill ring: the stack accepts every frame,
and the ring has room. -/
def Refilled (arrivals : Arrivals) (answers : Answers) (dp : Datapath) (stack : σ) : Prop :=
  (received S arrivals dp stack).failure.isNone ∧
    ((dp.fetch arrivals).2.kernelMoves answers.beforeFill).HasRoom
      ((dp.fetch arrivals).1.map Prod.fst)

instance (arrivals : Arrivals) (answers : Answers) (dp : Datapath) (stack : σ) :
    Decidable (Refilled S arrivals answers dp stack) :=
  inferInstanceAs (Decidable (_ ∧ _))

/-- The descriptors that have no place after a round. -/
def lostInRound (arrivals : Arrivals) (answers : Answers) (dp : Datapath) (stack : σ) :
    List FrameDesc :=
  (if Refilled S arrivals answers dp stack then [] else (dp.fetch arrivals).1.map Prod.fst) ++
    (pollOnce S arrivals answers dp stack).fates.flatMap Fate.lost

theorem places_pollOnce (arrivals : Arrivals) (answers : Answers) (dp : Datapath) (stack : σ)
    (d : FrameDesc) :
    (pollOnce S arrivals answers dp stack).datapath.places d +
      (lostInRound S arrivals answers dp stack).count d = dp.places d := by
  rw [← dp.places_fetch d arrivals, lostInRound]
  cases hfailure : (received S arrivals dp stack).failure with
  | some e =>
    have hnot : ¬ Refilled S arrivals answers dp stack := by simp [Refilled, hfailure]
    rw [pollOnce_of_failure hfailure, if_neg hnot]
    simp [abort]
  | none =>
    have hfinish := places_finish S answers (dp.fetch arrivals).2 (received S arrivals dp stack)
      (dp.fetch arrivals).1 d
    rw [pollOnce_of_accepted hfailure]
    simpa only [Refilled, hfailure, Option.isNone_none, true_and] using hfinish

/-- A move of the kernel between two rounds, or a round.  The stack may be in any state
when a round begins. -/
inductive Action (σ : Type) where
  | kernel (move : KernelMove)
  | poll (stack : σ) (arrivals : Arrivals) (answers : Answers)

/-- The datapath with the places of its descriptors. -/
def ledger : Ledger Datapath (Action σ) FrameDesc where
  step dp
    | .kernel move => dp.kernel move
    | .poll stack arrivals answers => (pollOnce S arrivals answers dp stack).datapath
  located := Datapath.places
  lost dp
    | .kernel _ => []
    | .poll stack arrivals answers => lostInRound S arrivals answers dp stack
  balance := by
    rintro dp (move | ⟨stack, arrivals, answers⟩) d
    · exact dp.places_kernel d move
    · exact places_pollOnce S arrivals answers dp stack d

/-- The action keeps every descriptor in its place.  Only rounds can fail to: the stack
accepts the whole batch, the fill ring takes its descriptors back, and the tx ring has room
for every frame that is put on it. -/
def Keeps (dp : Datapath) : Action σ → Prop
  | .kernel _ => True
  | .poll stack arrivals answers =>
    Refilled S arrivals answers dp stack ∧
      ∀ desc, Fate.refused desc ∉ (pollOnce S arrivals answers dp stack).fates

/-- An empty batch cannot fail. -/
theorem refilled_of_fetch_eq_nil {arrivals : Arrivals} {dp : Datapath}
    (h : (dp.fetch arrivals).1 = []) (answers : Answers) (stack : σ) :
    Refilled S arrivals answers dp stack := by
  rw [Refilled, received, Datapath.frames, h]
  exact ⟨rfl, BoundedQueue.bounded _⟩

theorem flatMap_lost_eq_nil_iff (fates : List Fate) :
    fates.flatMap Fate.lost = [] ↔ ∀ desc, Fate.refused desc ∉ fates := by
  rw [flatMap_eq_nil_iff]
  constructor
  · intro h desc hmem
    exact absurd (h _ hmem) (cons_ne_nil _ _)
  · intro h fate hfate
    cases fate with
    | refused desc => exact absurd hfate (h desc)
    | enqueued | writeFailed | noDescriptor => rfl

theorem lost_eq_nil_iff (dp : Datapath) (a : Action σ) :
    (ledger S).lost dp a = [] ↔ Keeps S dp a := by
  cases a with
  | kernel move => exact iff_of_true rfl trivial
  | poll stack arrivals answers =>
    change lostInRound S arrivals answers dp stack = [] ↔ _
    rw [lostInRound, append_eq_nil_iff, flatMap_lost_eq_nil_iff, Keeps]
    refine and_congr_left fun _ => ?_
    by_cases hrefilled : Refilled S arrivals answers dp stack
    · exact iff_of_true (if_pos hrefilled) hrefilled
    · rw [if_neg hrefilled, map_eq_nil_iff]
      exact ⟨fun h => refilled_of_fetch_eq_nil S h answers stack, fun h => absurd h hrefilled⟩

end Ledger

/-! ## Conservation -/

/-- The descriptors that `bind` meant for a fill ring too small for them. -/
def lostInBind (frameCount fillSize : Nat) : List FrameDesc :=
  if frameCount / 2 ≤ fillSize then [] else (Datapath.umem frameCount).take (frameCount / 2)

theorem places_of_bind {frameCount fillSize txSize : Nat} {dp : Datapath}
    (h : Datapath.bind frameCount fillSize txSize = .ok dp) (d : FrameDesc) :
    dp.places d + (lostInBind frameCount fillSize).count d =
      (Datapath.umem frameCount).count d := by
  unfold Datapath.bind at h
  split_ifs at h
  cases h
  have hlen : (Datapath.umem frameCount).length = frameCount := length_range
  have hcount : ((Datapath.umem frameCount).take (frameCount / 2)).count d +
      ((Datapath.umem frameCount).drop (frameCount / 2)).count d =
        (Datapath.umem frameCount).count d := by
    rw [← count_append, take_append_drop]
  -- the fill ring is filled as at the end of a batch
  have hrefill := Datapath.places_refill
    { fillQ := BoundedQueue.empty fillSize, txQ := BoundedQueue.empty txSize,
      freeDescs := ((Datapath.umem frameCount).drop (frameCount / 2)).reverse }
    d ((Datapath.umem frameCount).take (frameCount / 2))
  have hroom : (BoundedQueue.empty fillSize : BoundedQueue FrameDesc).items.length +
      ((Datapath.umem frameCount).take (frameCount / 2)).length ≤ fillSize ↔
        frameCount / 2 ≤ fillSize := by
    rw [length_take, hlen, Nat.min_eq_left (Nat.div_le_self _ _)]
    simp
  simp only [Datapath.HasRoom, BoundedQueue.capacity_empty, hroom] at hrefill
  simp only [Datapath.refill] at hrefill
  rw [hlen, lostInBind, hrefill]
  simp only [Datapath.places, BoundedQueue.empty, map_nil, count_nil, count_reverse]
  omega

theorem lostInBind_eq_nil_iff (frameCount fillSize : Nat) :
    lostInBind frameCount fillSize = [] ↔ frameCount / 2 ≤ fillSize := by
  by_cases hfits : frameCount / 2 ≤ fillSize
  · exact iff_of_true (if_pos hfits) hfits
  · rw [lostInBind, if_neg hfits, take_eq_nil_iff, Datapath.umem, range_eq_nil]
    omega

/-- Between the rounds of any run every descriptor is in exactly one place, if and only if
`bind` found room for its half of them and every round kept what it had. -/
theorem descriptors_conserved_iff {σ κ ε : Type} (S : XdpStack σ κ ε)
    {frameCount fillSize txSize : Nat} {dp : Datapath}
    (hbind : Datapath.bind frameCount fillSize txSize = .ok dp) (actions : List (Action σ)) :
    (∀ taken, taken <+: actions →
        ∀ d ∈ Datapath.umem frameCount, ((ledger S).run dp taken).places d = 1) ↔
      frameCount / 2 ≤ fillSize ∧ (ledger S).Along (Keeps S) dp actions := by
  rw [← lostInBind_eq_nil_iff]
  exact (ledger S).conserved_iff (lost_eq_nil_iff S) nodup_range (places_of_bind hbind) actions

/-- A stack that sends every frame back and refuses empty ones. -/
def echo : XdpStack Unit Unit Unit where
  onRx stack frame out :=
    if frame.isEmpty then (.error (), stack, out) else (.ok none, stack, out ++ [frame])
  pollTimers stack out := (.ok (), stack, out)
  dropConnection stack _ := stack
  message _ := "empty frame"

/-- One frame goes through the fill ring and the rx ring, and its echo through the tx ring
and the completion ring. -/
theorem descriptors_conserved_echo :
    ∃ dp, Datapath.bind 4 2 2 = .ok dp ∧
      ∀ taken, taken <+: [Action.kernel .takeFill, .kernel (.receive 0 [7]), .poll () {} {},
          .kernel .takeTx, .kernel (.complete 3), .poll () {} {}] →
        ∀ d ∈ Datapath.umem 4, ((ledger echo).run dp taken).places d = 1 := by
  refine ⟨_, rfl, (descriptors_conserved_iff echo rfl _).mpr ⟨by decide, ?_⟩⟩
  exact ⟨trivial, trivial, ⟨⟨rfl, by decide⟩, (flatMap_lost_eq_nil_iff _).mp rfl⟩, trivial, trivial,
    ⟨⟨rfl, by decide⟩, (flatMap_lost_eq_nil_iff _).mp rfl⟩, trivial⟩

/-- The second frame of a batch is refused, and the descriptors of both are gone. -/
theorem descriptors_lost :
    ∃ dp, Datapath.bind 4 2 2 = .ok dp ∧
      ∀ d ∈ [0, 1], d ∈ Datapath.umem 4 ∧
        ((ledger echo).run dp [.kernel .takeFill, .kernel .takeFill, .kernel (.receive 0 [7]),
          .kernel (.receive 1 []), .poll () {} {}]).places d = 0 :=
  ⟨_, rfl, by decide⟩

end IronSbe.Transport.Xdp
