import IronSbe.Transport.Xdp.Rounds

/-!
# The way of sent messages into the transmit queue

`UdpConnection::send` builds a frame and puts it in `pending_tx`.  The datapath knows the
stack only by `on_rx` and `poll_timers`, and neither of them looks at `pending_tx`; the
function that would, `drain_pending_tx`, has no caller outside of the tests.

`Transmits` says what is expected of a history of sends and rounds, and the system
records its history.

* `pushed_pollOnce`: a round puts the answers to its frames in the transmit queue and
  nothing else.
* `transmits_iff`: the histories that are as expected.
-/

namespace IronSbe.Transport.Xdp

open Lib UdpStack List

/-- A round pushes the answers to the frames that it has handed to the stack. -/
theorem pushed_pollOnce (ether : Etherparse) (arrivals : Arrivals) (answers : Answers)
    (dp : Datapath) (stack : UdpStack) :
    (pollOnce (udpStack ether) arrivals answers dp stack).pushed =
      repliesTo ether stack.config
        (pollOnce (udpStack ether) arrivals answers dp stack).handed := by
  rcases accepted_or_first_rejected ether stack.config (dp.frames arrivals) with
    hall | ⟨good, bad, rest, hframes, hgood, hbad⟩
  · rw [pollOnce_of_all_accepted hall, pollOnce_skipping, pushed_transmit, handed_transmit,
      txBuf_handleAll]
    rfl
  · obtain ⟨hhanded, -, -, hpushed⟩ := pollOnce_of_rejected hframes hgood hbad answers
    obtain ⟨e, hverdict⟩ := exists_verdict_of_rejects ether hbad
    rw [hhanded, hpushed, repliesTo, repliesTo, flatMap_append, flatMap_singleton, hverdict]
    exact (append_nil _).symm

namespace Outbound

/-! ## What is expected -/

/-- The second list and the third, in their orders, make up the first. -/
inductive Interleaves {α : Type} : List α → List α → List α → Prop
  | nil : Interleaves [] [] []
  | left {x : α} {zs xs ys : List α} (h : Interleaves zs xs ys) : Interleaves (x :: zs) (x :: xs) ys
  | right {y : α} {zs xs ys : List α} (h : Interleaves zs xs ys) :
      Interleaves (y :: zs) xs (y :: ys)

theorem Interleaves.length_eq {α : Type} {zs xs ys : List α} (h : Interleaves zs xs ys) :
    zs.length = xs.length + ys.length := by
  induction h with
  | nil => rfl
  | left _ ih => rw [length_cons, length_cons, ih, Nat.add_right_comm]
  | right _ ih => rw [length_cons, length_cons, ih, Nat.add_assoc]

/-- A list is made up of itself and nothing else. -/
theorem interleaves_self_iff {α : Type} {xs ys : List α} : Interleaves xs xs ys ↔ ys = [] := by
  constructor
  · intro h
    have hlength := h.length_eq
    exact eq_nil_of_length_eq_zero (by omega)
  · rintro rfl
    induction xs with
    | nil => exact .nil
    | cons x xs ih => exact .left ih

/-- A frame was built by a `send` that returned `Ok`, or a round took place: the frames that
it handed to the stack, those that were put in its transmit queue, and whether it ran to
completion. -/
inductive Event where
  | sent (frame : List UInt8)
  | round (handed pushed : List (List UInt8)) (completed : Bool)
  deriving DecidableEq, Repr

namespace Event

/-- A frame was sent. -/
def isSent : Event → Bool
  | .sent _ => true
  | .round _ _ _ => false

/-- A round ran to completion. -/
def isCompleted : Event → Bool
  | .sent _ => false
  | .round _ _ completed => completed

/-- The frames that the event has built. -/
def built : Event → List (List UInt8)
  | .sent frame => [frame]
  | .round _ _ _ => []

end Event

/-- Every frame that was sent is pushed once, in the order of the sends, in a later round,
and no later than in the next round that runs to completion.  `owed` are the frames that
were sent and not pushed before. -/
def Transmits (replies : List (List UInt8) → List (List UInt8)) :
    List (List UInt8) → List Event → Prop
  | _, [] => True
  | owed, .sent frame :: events => Transmits replies (owed ++ [frame]) events
  | owed, .round handed pushed completed :: events =>
    ∃ now later, owed = now ++ later ∧ Interleaves pushed (replies handed) now ∧
      (completed = true → later = []) ∧ Transmits replies later events

/-- If rounds push nothing but replies, they must not complete while a frame is owed. -/
theorem transmits_iff_of_replies {replies : List (List UInt8) → List (List UInt8)}
    {events : List Event}
    (h : ∀ handed pushed completed, .round handed pushed completed ∈ events →
      pushed = replies handed) (owed : List (List UInt8)) :
    Transmits replies owed events ↔
      (owed = [] ∨ ∀ event ∈ events, event.isCompleted = false) ∧
        events.Pairwise fun earlier later =>
          earlier.isSent = true → later.isCompleted = false := by
  induction events generalizing owed with
  | nil => simp [Transmits]
  | cons event events ih =>
    have hrest := ih fun handed pushed completed hmem =>
      h handed pushed completed (mem_cons_of_mem _ hmem)
    rw [pairwise_cons, forall_mem_cons]
    cases event with
    | sent frame =>
      rw [Transmits, hrest]
      constructor
      · rintro ⟨howed | hnone, hpair⟩
        · exact absurd howed (by simp)
        · exact ⟨.inr ⟨rfl, hnone⟩, fun later hlater _ => hnone later hlater, hpair⟩
      · rintro ⟨-, hnone, hpair⟩
        exact ⟨.inr fun later hlater => hnone later hlater rfl, hpair⟩
    | round handed pushed completed =>
      obtain rfl := h handed pushed completed mem_cons_self
      have hround : Transmits replies owed (.round handed (replies handed) completed :: events) ↔
          (completed = true → owed = []) ∧ Transmits replies owed events := by
        simp only [Transmits, interleaves_self_iff]
        constructor
        · rintro ⟨now, later, rfl, rfl, hcompleted, hlater⟩
          exact ⟨hcompleted, hlater⟩
        · rintro ⟨hcompleted, howed⟩
          exact ⟨[], owed, rfl, rfl, hcompleted, howed⟩
      rw [hround, hrest]
      by_cases howed : owed = []
      · simp [howed, Event.isSent]
      · simp [howed, Event.isSent, Event.isCompleted, and_assoc]

/-! ## The system -/

/-- The datapath with its stack, and what has happened. -/
structure World where
  datapath : Datapath
  stack : UdpStack
  history : List Event := []

/-- A call of a connection, or a round. -/
inductive Action where
  | send (peer : SocketAddrV4) (msg : List UInt8)
  | recv (peer : SocketAddrV4) (waker : Nat)
  | drop (peer : SocketAddrV4)
  | round (arrivals : Arrivals) (answers : Answers)

section System

variable (ether : Etherparse)

/-- A new stack, with nothing sent. -/
def start (datapath : Datapath) (config : UdpStackConfig) : World where
  datapath := datapath
  stack := .new config

/-- The record of a round. -/
def roundEvent (r : Round UdpStack SocketAddrV4) : Event :=
  .round r.handed r.pushed (match r.result with
    | .ok _ => true
    | .error _ => false)

/-- A step, with its event in the history. -/
def step (w : World) : Action → World
  | .send peer msg =>
    match w.stack.buildOutbound ether peer msg with
    | .error _ => w
    | .ok frame =>
      { w with
        stack := (w.stack.sendOwned ether peer msg).2
        history := w.history ++ [.sent frame] }
  | .recv peer waker => { w with stack := (w.stack.pollRecv peer waker).2 }
  | .drop peer => { w with stack := w.stack.dropConnection peer }
  | .round arrivals answers =>
    let r := pollOnce (udpStack ether) arrivals answers w.datapath w.stack
    { datapath := r.datapath, stack := r.stack, history := w.history ++ [roundEvent r] }

/-- What holds in every state of the system: the rounds have pushed replies only, and all
frames that were built are still in the queue of the stack. -/
structure Inv (config : UdpStackConfig) (w : World) : Prop where
  config_eq : w.stack.config = config
  replies : ∀ handed pushed completed, .round handed pushed completed ∈ w.history →
    pushed = repliesTo ether config handed
  pendingTx : w.stack.pendingTx = w.history.flatMap Event.built

variable {ether} {config : UdpStackConfig} {w : World}

/-- A step that leaves the history alone, and the configuration and the queue of the
stack. -/
theorem Inv.of_stack {stack : UdpStack} (h : Inv ether config w)
    (hconfig : stack.config = w.stack.config) (hpending : stack.pendingTx = w.stack.pendingTx) :
    Inv ether config { w with stack := stack } :=
  ⟨hconfig.trans h.config_eq, h.replies, hpending.trans h.pendingTx⟩

theorem Inv.send (h : Inv ether config w) (peer : SocketAddrV4) (msg : List UInt8) :
    Inv ether config (step ether w (.send peer msg)) := by
  cases hbuild : w.stack.buildOutbound ether peer msg with
  | error e =>
    simp only [step, hbuild]
    exact h
  | ok frame =>
    simp only [step, sendOwned, hbuild]
    refine ⟨h.config_eq, fun handed pushed completed hmem => ?_, ?_⟩
    · have hold : .round handed pushed completed ∈ w.history := by simpa using hmem
      exact h.replies handed pushed completed hold
    · rw [flatMap_append, ← h.pendingTx]
      rfl

theorem Inv.round (h : Inv ether config w) (arrivals : Arrivals) (answers : Answers) :
    Inv ether config (step ether w (.round arrivals answers)) := by
  have hstack := stack_pollOnce (S := udpStack ether)
    (P := fun stack => stack.config = config ∧ stack.pendingTx = w.history.flatMap Event.built)
    (fun stack peer hs => by simpa [udpStack] using hs)
    (fun stack frame out hs => by simpa [udpStack, onRx_eq] using hs)
    (fun stack out hs => hs) ⟨h.config_eq, h.pendingTx⟩ arrivals answers w.datapath
  refine ⟨hstack.1, fun handed pushed completed hmem => ?_, ?_⟩
  · rcases mem_append.mp hmem with hold | hnew
    · exact h.replies handed pushed completed hold
    · obtain ⟨rfl, rfl, -⟩ := Event.round.inj (mem_singleton.mp hnew)
      rw [← h.config_eq]
      exact pushed_pollOnce ether arrivals answers w.datapath w.stack
  · rw [step, flatMap_append, ← hstack.2]
    exact (append_nil _).symm

theorem Inv.step (h : Inv ether config w) (action : Action) :
    Inv ether config (step ether w action) := by
  cases action with
  | send peer msg => exact h.send peer msg
  | recv peer waker => exact h.of_stack (config_pollRecv _ _ _) (pendingTx_pollRecv _ _ _)
  | drop peer => exact h.of_stack (config_dropConnection _ _) (pendingTx_dropConnection _ _)
  | round arrivals answers => exact h.round arrivals answers

theorem inv_foldl (h : Inv ether config w) (actions : List Action) :
    Inv ether config (actions.foldl (step ether) w) :=
  foldlRecOn actions (step ether) h fun _ hw action _ => hw.step action

theorem inv_start (datapath : Datapath) : Inv ether config (start datapath config) :=
  ⟨rfl, fun _ _ _ hmem => absurd hmem not_mem_nil, rfl⟩

/-- What was sent is transmitted as expected if and only if no round runs to completion
after a `send` has been accepted. -/
theorem transmits_iff (ether : Etherparse) (datapath : Datapath) (config : UdpStackConfig)
    (actions : List Action) :
    Transmits (repliesTo ether config) []
        (actions.foldl (step ether) (start datapath config)).history ↔
      (actions.foldl (step ether) (start datapath config)).history.Pairwise fun earlier later =>
        earlier.isSent = true → later.isCompleted = false := by
  have hinv : Inv ether config (actions.foldl (step ether) (start datapath config)) :=
    inv_foldl (inv_start datapath) actions
  rw [transmits_iff_of_replies hinv.replies]
  exact and_iff_right (.inl rfl)

end System

/-- A datagram opens a connection, an answer is accepted, and the next round, which has
nothing else to do, completes without it. -/
theorem answer_not_transmitted :
    ∃ dp, Datapath.bind 8 4 4 = .ok dp ∧
      ∃ frame, ([.round (arrivalsOf [fromPeer [1, 0, 0, 0, 7]]) {}, .send somePeer [1, 2, 3],
          .round {} {}].foldl (step .plain) (start dp localConfig)).history =
          [.round [fromPeer [1, 0, 0, 0, 7]] [] true, .sent frame, .round [] [] true] ∧
        ¬ Transmits (repliesTo .plain localConfig) []
          [.round [fromPeer [1, 0, 0, 0, 7]] [] true, .sent frame, .round [] [] true] := by
  refine ⟨_, rfl, _, rfl, ?_⟩
  rintro ⟨now, later, -, -, -, now', later', howed, hpushed, hcompleted, -⟩
  have hnone := interleaves_self_iff.mp hpushed
  rw [hnone, hcompleted rfl] at howed
  simp at howed

end Outbound

end IronSbe.Transport.Xdp
