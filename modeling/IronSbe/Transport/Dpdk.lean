import IronSbe.Lib.Transition
import IronSbe.Transport.Xdp.Rounds

/-!
# The packet buffers of the DPDK listener

`DpdkListener::accept` gets the mbufs of a burst from the driver, hands the frames in them to
the stack and frees them one by one.  For every frame that the stack wants to send it allocates
an mbuf, which the driver takes or which is freed.  An error of the stack ends the call with
`?` wherever it comes up.

The listener of this file keeps a record of every mbuf it has got.  Mbufs have the numbers of
their records: one that comes back from the pool after it was freed is a new one.

* `mbufs_receive`: the loop over a burst frees all of it, or stops in front of an mbuf.
* `released_transmit`: the loop over the frames to send leaves nothing behind.
* `released_poll_iff`: one pass of the loop in `accept`.
* `accept_releases_iff`: all passes of all calls.
* `leaks_on_cut_datagram`: a datagram that is too short for its length is enough.
-/

namespace IronSbe.Transport.Dpdk

open Lib.Transition Xdp List

/-! ## Mbufs -/

/-- Maximum burst size. -/
def maxBurst : Nat := 32

/-- Where an mbuf has come from: `rx_burst`, or an allocation for a frame to send. -/
inductive Origin where
  | received
  | allocated
  deriving DecidableEq, Repr

/-- How often an mbuf has been freed and how often `tx_burst` has accepted it. -/
structure Mbuf where
  origin : Origin
  freed : Nat := 0
  accepted : Nat := 0
  deriving DecidableEq, Repr

/-- A received mbuf has been freed once, an allocated one has been accepted or freed once. -/
def Mbuf.Released (m : Mbuf) : Prop :=
  match m.origin with
  | .received => m.freed = 1
  | .allocated => m.accepted + m.freed = 1

instance (m : Mbuf) : Decidable m.Released := by
  unfold Mbuf.Released
  split <;> infer_instance

/-- All the buffers have been given back. -/
def Released (mbufs : List Mbuf) : Prop := ∀ m ∈ mbufs, m.Released

instance (mbufs : List Mbuf) : Decidable (Released mbufs) :=
  inferInstanceAs (Decidable (∀ m ∈ mbufs, m.Released))

/-- `ironsbe_pktmbuf_free`. -/
def free (mbufs : List Mbuf) (mbuf : Nat) : List Mbuf :=
  mbufs.modify mbuf fun m => { m with freed := m.freed + 1 }

/-- `tx_burst` becomes the owner. -/
def accept (mbufs : List Mbuf) (mbuf : Nat) : List Mbuf :=
  mbufs.modify mbuf fun m => { m with accepted := m.accepted + 1 }

/-! ## The loop of `accept` -/

/-- The answers of the driver for one frame to send: whether there is an mbuf, whether the frame
fits into it, and whether `tx_burst` takes it. -/
structure TxAnswer where
  alloc : Bool
  append : Bool
  takes : Bool
  deriving DecidableEq, Repr

/-- What a pass of the loop meets: what the application has done to the stack since the last
one, the burst, and the answers for the frames to send by their position. -/
structure Pass (σ : Type) where
  meanwhile : σ → σ := id
  burst : List (List UInt8)
  burst_le : burst.length ≤ maxBurst
  answers : Nat → TxAnswer

/-- The listener with its stack, the connections that wait, and all buffers. -/
structure DpdkListener (σ κ : Type) where
  stack : σ
  pendingConns : List κ := []
  mbufs : List Mbuf := []

/-- How a pass ends: `accept` returns, it yields, or it goes on at once. -/
inductive Outcome (κ : Type) where
  | returned (result : Except String κ)
  | yielded
  | again
  deriving DecidableEq, Repr

section accept

variable {σ κ ε : Type} (S : XdpStack σ κ ε)

/-- The loop over the mbufs of a burst; the first component is the error that has ended it. -/
def receive : List (List UInt8 × Nat) → DpdkListener σ κ → List (List UInt8) →
    Option ε × DpdkListener σ κ × List (List UInt8)
  | [], l, txBuf => (none, l, txBuf)
  | (frame, mbuf) :: rest, l, txBuf =>
    match S.onRx l.stack frame txBuf with
    | (.error e, stack, txBuf) => (some e, { l with stack := stack }, txBuf)
    | (.ok conn, stack, txBuf) =>
      receive rest
        { stack := stack
          pendingConns := l.pendingConns ++ conn.toList
          mbufs := free l.mbufs mbuf }
        txBuf

/-- Send one frame, or drop it with a warning. -/
def send (answer : TxAnswer) (frame : List UInt8) (mbufs : List Mbuf) : List Mbuf :=
  if 2 ^ 16 ≤ frame.length then mbufs
  else if !answer.alloc then mbufs
  else
    let mbuf := mbufs.length
    let mbufs := mbufs ++ [{ origin := .allocated }]
    if !answer.append then free mbufs mbuf
    else
      let sent := if answer.takes then 1 else 0
      let mbufs := if sent = 1 then accept mbufs mbuf else mbufs
      if sent = 0 then free mbufs mbuf else mbufs

/-- The loop over the frames to send. -/
def transmit (answers : Nat → TxAnswer) : Nat → List (List UInt8) → List Mbuf → List Mbuf
  | _, [], mbufs => mbufs
  | i, frame :: txBuf, mbufs => transmit answers (i + 1) txBuf (send (answers i) frame mbufs)

/-- The loop over the burst of a pass.  The records of its mbufs are the next ones. -/
def rxBurst (p : Pass σ) (l : DpdkListener σ κ) :
    Option ε × DpdkListener σ κ × List (List UInt8) :=
  receive S (p.burst.zipIdx l.mbufs.length)
    { l with mbufs := l.mbufs ++ List.replicate p.burst.length { origin := .received } } []

/-- A pass of the loop in `accept`. -/
def poll (p : Pass σ) (l : DpdkListener σ κ) : Outcome κ × DpdkListener σ κ :=
  let l := { l with stack := p.meanwhile l.stack }
  match l.pendingConns with
  | conn :: pendingConns => (.returned (.ok conn), { l with pendingConns := pendingConns })
  | [] =>
    match rxBurst S p l with
    | (some e, l, _) => (.returned (.error (S.message e)), l)
    | (none, l, txBuf) =>
      match S.pollTimers l.stack txBuf with
      | (.error e, stack, _) => (.returned (.error (S.message e)), { l with stack := stack })
      | (.ok (), stack, txBuf) =>
        let mbufs := transmit p.answers 0 txBuf l.mbufs
        (if p.burst.length = 0 then .yielded else .again, { l with stack := stack, mbufs := mbufs })

/-- The error of `on_rx` in a pass, if there is one. -/
def rxError (p : Pass σ) (l : DpdkListener σ κ) : Option ε :=
  match l.pendingConns with
  | _ :: _ => none
  | [] => (rxBurst S p { l with stack := p.meanwhile l.stack }).1

end accept

/-! ## One pass -/

theorem modify_length_append {α : Type} (f : α → α) (front : List α) (x : α) (rest : List α) :
    (front ++ x :: rest).modify front.length f = front ++ f x :: rest := by
  induction front with
  | nil => rfl
  | cons y front ih => exact congrArg (y :: ·) ih

theorem released_append {front rest : List Mbuf} :
    Released (front ++ rest) ↔ Released front ∧ Released rest :=
  forall_mem_append

section pass

variable {σ κ ε : Type} (S : XdpStack σ κ ε)

/-- The mbufs in front of the error are freed.  The one that it came up at is not, nor are those
behind it. -/
theorem mbufs_receive (frames : List (List UInt8)) (front : List Mbuf) (l : DpdkListener σ κ)
    (txBuf : List (List UInt8))
    (hl : l.mbufs = front ++ List.replicate frames.length { origin := .received }) :
    ((receive S (frames.zipIdx front.length) l txBuf).1 = none →
      (receive S (frames.zipIdx front.length) l txBuf).2.1.mbufs =
        front ++ List.replicate frames.length { origin := .received, freed := 1 }) ∧
    ((receive S (frames.zipIdx front.length) l txBuf).1 ≠ none →
      { origin := .received } ∈ (receive S (frames.zipIdx front.length) l txBuf).2.1.mbufs) := by
  induction frames generalizing front l txBuf with
  | nil => exact ⟨fun _ => hl, fun h => absurd rfl h⟩
  | cons frame frames ih =>
    rw [zipIdx_cons, receive]
    rcases S.onRx l.stack frame txBuf with ⟨e | conn, stack, txBuf⟩
    · refine ⟨nofun, fun _ => ?_⟩
      rw [hl]
      simp [replicate_succ]
    · have hfree : free l.mbufs front.length =
          (front ++ [{ origin := .received, freed := 1 }]) ++
            replicate frames.length { origin := .received } := by
        rw [hl, length_cons, replicate_succ, free, modify_length_append,
          append_assoc]
        rfl
      have hrest := ih (front ++ [{ origin := .received, freed := 1 }])
        { stack := stack, pendingConns := l.pendingConns ++ conn.toList,
          mbufs := free l.mbufs front.length } txBuf hfree
      rw [length_append, length_singleton] at hrest
      rw [length_cons, replicate_succ]
      rw [append_assoc, singleton_append] at hrest
      exact hrest

theorem send_cases (answer : TxAnswer) (frame : List UInt8) (mbufs : List Mbuf) :
    send answer frame mbufs = mbufs ∨
      ∃ m, send answer frame mbufs = mbufs ++ [m] ∧ m.Released := by
  have hfree : free (mbufs ++ [{ origin := .allocated }]) mbufs.length =
      mbufs ++ [{ origin := .allocated, freed := 1 }] :=
    modify_length_append _ mbufs _ []
  have haccept : accept (mbufs ++ [{ origin := .allocated }]) mbufs.length =
      mbufs ++ [{ origin := .allocated, accepted := 1 }] :=
    modify_length_append _ mbufs _ []
  obtain ⟨alloc, append, takes⟩ := answer
  by_cases hlen : 2 ^ 16 ≤ frame.length
  · exact .inl (if_pos hlen)
  · rw [send, if_neg hlen]
    cases alloc with
    | false => exact .inl rfl
    | true =>
      refine .inr ?_
      cases append with
      | false => exact ⟨_, hfree, rfl⟩
      | true =>
        cases takes with
        | false => exact ⟨_, hfree, rfl⟩
        | true => exact ⟨_, haccept, rfl⟩

theorem released_transmit (answers : Nat → TxAnswer) (i : Nat) (txBuf : List (List UInt8))
    {mbufs : List Mbuf} (h : Released mbufs) : Released (transmit answers i txBuf mbufs) := by
  induction txBuf generalizing i mbufs with
  | nil => exact h
  | cons frame txBuf ih =>
    refine ih (i + 1) ?_
    rcases send_cases (answers i) frame mbufs with heq | ⟨m, heq, hm⟩
    · rwa [heq]
    · rw [heq]
      exact released_append.mpr ⟨h, forall_mem_singleton.mpr hm⟩

/-- The mbufs of a burst are all released, or one of them has not been freed. -/
theorem released_rxBurst_iff (p : Pass σ) {l : DpdkListener σ κ} (h : Released l.mbufs) :
    Released (rxBurst S p l).2.1.mbufs ↔ (rxBurst S p l).1 = none := by
  obtain ⟨hnone, hsome⟩ := mbufs_receive S p.burst l.mbufs
    { l with mbufs := l.mbufs ++ replicate p.burst.length { origin := .received } } [] rfl
  constructor
  · intro hall
    by_contra herror
    exact absurd (hall _ (hsome herror)) (by decide)
  · intro herror
    have hmbufs : (rxBurst S p l).2.1.mbufs = _ := hnone herror
    rw [hmbufs]
    refine released_append.mpr ⟨h, fun m hm => ?_⟩
    rw [eq_of_mem_replicate hm]
    decide

/-- A pass leaves nothing behind exactly if `on_rx` has taken every frame, and it returns the
error of `on_rx` otherwise. -/
theorem released_poll_iff (p : Pass σ) {l : DpdkListener σ κ} (h : Released l.mbufs) :
    (Released (poll S p l).2.mbufs ↔ rxError S p l = none) ∧
      ∀ e, rxError S p l = some e → (poll S p l).1 = .returned (.error (S.message e)) := by
  obtain ⟨stack, pendingConns, mbufs⟩ := l
  unfold poll rxError
  cases pendingConns with
  | cons conn pendingConns => exact ⟨iff_of_true h rfl, nofun⟩
  | nil =>
    have hburst : Released (rxBurst S p ⟨p.meanwhile stack, [], mbufs⟩).2.1.mbufs ↔ _ :=
      released_rxBurst_iff S p h
    dsimp only
    generalize rxBurst S p ⟨p.meanwhile stack, [], mbufs⟩ = r at hburst ⊢
    obtain ⟨_ | e, l, txBuf⟩ := r
    · have hl : Released l.mbufs := hburst.mpr rfl
      refine ⟨iff_of_true ?_ rfl, nofun⟩
      dsimp only
      rcases S.pollTimers l.stack txBuf with ⟨e | ⟨⟩, stack, txBuf⟩
      · exact hl
      · exact released_transmit p.answers 0 txBuf hl
    · refine ⟨hburst, fun e' he => ?_⟩
      cases he
      rfl

end pass

/-! ## All calls -/

section calls

variable {σ κ ε : Type} (S : XdpStack σ κ ε)

/-- The listener, and how the last pass has ended. -/
structure History (σ κ : Type) where
  listener : DpdkListener σ κ
  last : Option (Outcome κ) := none

/-- The next pass, of the same call or of the next one. -/
def next (s : History σ κ) (p : Pass σ) : History σ κ :=
  ⟨(poll S p s.listener).2, some (poll S p s.listener).1⟩

/-- The passes of all calls of `accept` on a new listener. -/
def history (stack : σ) (passes : List (Pass σ)) : History σ κ :=
  passes.foldl (next S) ⟨{ stack := stack }, none⟩

/-- `accept` has just returned or yielded. -/
def AtRest (s : History σ κ) : Prop := s.last ≠ none ∧ s.last ≠ some .again

/-- Whenever `accept` returns or yields, every mbuf has been released, exactly if `on_rx`
has never returned an error. -/
theorem accept_releases_iff (stack : σ) (passes : List (Pass σ)) :
    (∀ before after, passes = before ++ after → AtRest (history S stack before) →
        Released (history S stack before).listener.mbufs) ↔
      ∀ before p after, passes = before ++ p :: after →
        rxError S p (history S stack before).listener = none := by
  have hpass : ∀ (s : History σ κ) (p : Pass σ), Released s.listener.mbufs →
      ((AtRest (next S s p) → Released (next S s p).listener.mbufs) ↔
        rxError S p s.listener = none) := by
    intro s p hs
    obtain ⟨hiff, hreturned⟩ := released_poll_iff S p hs
    refine ⟨fun h => ?_, fun h _ => hiff.mpr h⟩
    cases herror : rxError S p s.listener with
    | none => rfl
    | some e =>
      have hlast : (next S s p).last = some (.returned (.error (S.message e))) :=
        congrArg some (hreturned e herror)
      rw [← herror]
      exact hiff.mp (h ⟨by rw [hlast]; nofun, by rw [hlast]; nofun⟩)
  refine always_foldl_iff (I := fun s => Released s.listener.mbufs)
    (P := fun s => AtRest s → Released s.listener.mbufs)
    (C := fun s p => rxError S p s.listener = none) (fun _ => nofun) nofun ?_ ?_
  · intro s p _ hs h
    exact (released_poll_iff S p hs).1.mpr ((hpass s p hs).mp h)
  · intro s p _ hs
    exact hpass s p hs

end calls

/-! ## The UDP stack -/

/-- A burst of three datagrams; the length in the second one is longer than its message. -/
def cutDatagram : Pass UdpStack where
  burst := [fromPeer [1, 0, 0, 0, 7], fromPeer [5, 0, 0, 0, 8], fromPeer [1, 0, 0, 0, 9]]
  burst_le := by decide
  answers := fun _ => ⟨true, true, true⟩

/-- `accept` returns an error, and the second and the third mbuf are never freed. -/
theorem leaks_on_cut_datagram :
    (history (udpStack .plain) (.new localConfig) [cutDatagram]).last =
        some (.returned (.error
          "frame error: malformed frame: udp payload 5 too short for frame_len 5")) ∧
      (history (udpStack .plain) (.new localConfig) [cutDatagram]).listener.mbufs =
        [⟨.received, 1, 0⟩, ⟨.received, 0, 0⟩, ⟨.received, 0, 0⟩] ∧
      ¬ ∀ before after, [cutDatagram] = before ++ after →
        AtRest (history (udpStack .plain) (.new localConfig) before) →
          Released (history (udpStack .plain) (.new localConfig) before).listener.mbufs := by
  have hlast : (history (udpStack .plain) (.new localConfig) [cutDatagram]).last =
      some (.returned (.error
        "frame error: malformed frame: udp payload 5 too short for frame_len 5")) := rfl
  have hmbufs : (history (udpStack .plain) (.new localConfig) [cutDatagram]).listener.mbufs =
      [⟨.received, 1, 0⟩, ⟨.received, 0, 0⟩, ⟨.received, 0, 0⟩] := rfl
  refine ⟨hlast, hmbufs, fun h => ?_⟩
  have hreleased := h [cutDatagram] [] rfl ⟨by rw [hlast]; nofun, by rw [hlast]; nofun⟩
  rw [hmbufs] at hreleased
  exact absurd hreleased (by decide)

end IronSbe.Transport.Dpdk
