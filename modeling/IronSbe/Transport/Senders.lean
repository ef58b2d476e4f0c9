import IronSbe.Transport.Receivers

/-!
# Three senders

A message that `send` has accepted should come out at the other end, whatever backend the
other end uses.  All three senders write the same frame.  The tokio codec and the io_uring
connection refuse a message above `max_frame_size`; the smoltcp connection looks at the
limit of the length prefix only, and leaves it to the receivers to refuse the frame.

* `Delivered`: all three receivers take the message off the front of the bytes.
* `delivered_iff`: which accepted messages are delivered.
-/

namespace IronSbe.Transport

open Lib.Bytes Lib.Framing

/-- A connection that can send. -/
inductive Sender where
  | tcp (codec : SbeFrameCodec)
  | uring (conn : UringConnection)
  | smoltcp (stack : Smoltcp.SmoltcpStackInner) (sessionIdx : Nat)

namespace Sender

/-- The limit of the connection. -/
def maxFrameSize : Sender → Nat
  | .tcp codec => codec.maxFrameSize
  | .uring conn => conn.maxFrameSize
  | .smoltcp stack _ => stack.config.maxFrameSize

/-- The encoding of a message that `send` accepts, or `none` if it returns an error.  The
smoltcp stack encodes in its next round what it has accepted. -/
def send (msg : List UInt8) : Sender → Option (List UInt8)
  | .tcp codec =>
    match codec.encode msg [] with
    | (.ok (), bytes) => some bytes
    | (.error _, _) => none
  | .uring conn =>
    match conn.sendOwned msg with
    | .ok bytes => some bytes
    | .error _ => none
  | .smoltcp stack sessionIdx =>
    match stack.sendOwned sessionIdx msg with
    | (.ok (), _) => some (leBytes 4 msg.length ++ msg)
    | (.error _, _) => none

/-- A smoltcp session that is there to take messages. -/
def IsSmoltcpSession : Sender → Prop
  | .smoltcp stack sessionIdx => sessionIdx < stack.sessions.length
  | _ => False

end Sender

/-- The three receivers take the message off the front of the bytes. -/
def Delivered (maxFrameSize : Nat) (msg bytes : List UInt8) : Prop :=
  ∀ rest,
    SbeFrameCodec.decode ⟨maxFrameSize⟩ (bytes ++ rest) = (.ok (some msg), rest) ∧
      UringConnection.takeFrom maxFrameSize (bytes ++ rest) = (.ok (some msg), rest) ∧
      Smoltcp.decodeStep maxFrameSize (bytes ++ rest) = (.ok (some msg), rest)

theorem delivered_frame {maxFrameSize : Nat} {msg : List UInt8} (hmax : msg.length ≤ maxFrameSize)
    (hfit : msg.length < 2 ^ 32) : Delivered maxFrameSize msg (frame msg) := by
  intro rest
  have hhead := head_frame_append hmax hfit rest
  refine ⟨?_, ?_, ?_⟩
  · rw [SbeFrameCodec.decode_eq_head, hhead]
  · exact (UringConnection.implements_tryTakeFrame maxFrameSize).complete _ _ _ hhead
  · exact (Smoltcp.implements_decodeStep maxFrameSize).complete _ _ _ hhead

/-- A frame above the limit is delivered by no receiver. -/
theorem not_delivered_frame {maxFrameSize : Nat} {msg : List UInt8}
    (hmax : maxFrameSize < msg.length) (hfit : msg.length < 2 ^ 32) :
    ¬ Delivered maxFrameSize msg (frame msg) := by
  intro h
  have hdecode := (h []).1
  rw [SbeFrameCodec.decode_eq_head, head_frame_append_of_lt hmax hfit] at hdecode
  exact absurd (Prod.mk.inj hdecode).1 nofun

namespace Sender

/-- What the senders look at. -/
def Accepts (msg : List UInt8) : Sender → Prop
  | .smoltcp stack sessionIdx => msg.length < 2 ^ 32 ∧ sessionIdx < stack.sessions.length
  | s => msg.length ≤ s.maxFrameSize

/-- The encoding of an accepted message is its frame. -/
theorem send_of_accepts {s : Sender} {msg : List UInt8} (hlimit : s.maxFrameSize < 2 ^ 32)
    (h : s.Accepts msg) : s.send msg = some (frame msg) ∧ msg.length < 2 ^ 32 := by
  cases s with
  | tcp codec =>
    have hmax : msg.length ≤ codec.maxFrameSize := h
    have hfit : msg.length < 2 ^ 32 := hmax.trans_lt hlimit
    refine ⟨?_, hfit⟩
    simp only [send, SbeFrameCodec.encode, if_neg (Nat.not_lt.mpr hmax), Nat.mod_eq_of_lt hfit]
    rfl
  | uring conn =>
    have hmax : msg.length ≤ conn.maxFrameSize := h
    have hfit : msg.length < 2 ^ 32 := hmax.trans_lt hlimit
    have htotal : ¬ 2 ^ 64 ≤ UringConnection.lengthPrefixBytes + msg.length := by
      rw [UringConnection.lengthPrefixBytes]
      omega
    refine ⟨?_, hfit⟩
    simp only [send, UringConnection.sendOwned, if_neg (Nat.not_lt.mpr hmax),
      if_neg (Nat.not_le.mpr hfit), if_neg htotal]
    rfl
  | smoltcp stack sessionIdx =>
    obtain ⟨hfit, hsession⟩ := h
    refine ⟨?_, hfit⟩
    simp only [send, Smoltcp.SmoltcpStackInner.sendOwned, if_neg (Nat.not_le.mpr hfit),
      List.getElem?_eq_getElem hsession]
    rfl

theorem send_of_not_accepts {s : Sender} {msg : List UInt8} (h : ¬ s.Accepts msg) :
    s.send msg = none := by
  cases s with
  | tcp codec =>
    have hmax : codec.maxFrameSize < msg.length := Nat.lt_of_not_le h
    simp only [send, SbeFrameCodec.encode, if_pos hmax]
  | uring conn =>
    have hmax : conn.maxFrameSize < msg.length := Nat.lt_of_not_le h
    simp only [send, UringConnection.sendOwned, if_pos hmax]
  | smoltcp stack sessionIdx =>
    by_cases hfit : msg.length < 2 ^ 32
    · have hnone : stack.sessions[sessionIdx]? = none :=
        List.getElem?_eq_none (Nat.le_of_not_lt fun hlt => h ⟨hfit, hlt⟩)
      simp only [send, Smoltcp.SmoltcpStackInner.sendOwned, if_neg (Nat.not_le.mpr hfit), hnone]
    · simp only [send, Smoltcp.SmoltcpStackInner.sendOwned, if_pos (Nat.le_of_not_lt hfit)]

/-- An accepted message is above the limit only in a smoltcp session. -/
theorem accepts_and_lt_iff (s : Sender) (msg : List UInt8) :
    s.Accepts msg ∧ s.maxFrameSize < msg.length ↔
      ¬ (s.IsSmoltcpSession → msg.length ≤ s.maxFrameSize ∨ 2 ^ 32 ≤ msg.length) := by
  cases s with
  | tcp codec | uring conn =>
    simp only [Accepts, IsSmoltcpSession, false_imp_iff, not_true_eq_false, iff_false]
    exact fun h => absurd h.2 (Nat.not_lt.mpr h.1)
  | smoltcp stack sessionIdx =>
    simp only [Accepts, IsSmoltcpSession, Classical.not_imp, not_or, Nat.not_le]
    tauto

end Sender

/-- For a connection and a message: an accepted message is delivered by all three receivers
with the same limit if and only if a message above the limit is refused, and if and only
if the connection is no smoltcp session, or the message is within the limit, or its length
is no `u32`. -/
theorem delivered_iff {s : Sender} (hlimit : s.maxFrameSize < 2 ^ 32) (msg : List UInt8) :
    ((∀ bytes, s.send msg = some bytes → Delivered s.maxFrameSize msg bytes) ↔
        (s.maxFrameSize < msg.length → s.send msg = none)) ∧
      ((∀ bytes, s.send msg = some bytes → Delivered s.maxFrameSize msg bytes) ↔
        (s.IsSmoltcpSession → msg.length ≤ s.maxFrameSize ∨ 2 ^ 32 ≤ msg.length)) := by
  have hcondition := not_congr (s.accepts_and_lt_iff msg)
  rw [Classical.not_not] at hcondition
  rw [← hcondition, not_and, Nat.not_lt]
  by_cases haccepts : s.Accepts msg
  · obtain ⟨hsend, hfit⟩ := Sender.send_of_accepts hlimit haccepts
    have hdelivered : (∀ bytes, s.send msg = some bytes → Delivered s.maxFrameSize msg bytes) ↔
        msg.length ≤ s.maxFrameSize := by
      constructor
      · intro h
        by_contra hlong
        exact not_delivered_frame (Nat.lt_of_not_le hlong) hfit (h _ hsend)
      · intro hmax bytes hbytes
        cases hsend.symm.trans hbytes
        exact delivered_frame hmax hfit
    rw [hdelivered, hsend]
    simp [haccepts]
  · have hsend := Sender.send_of_not_accepts haccepts
    simp [hsend, haccepts]

/-- The message is as long as the limit allows, for each of the senders. -/
theorem delivered_iff_two :
    ∃ stack, Smoltcp.SmoltcpStackInner.new ⟨9000, 64, 4, 2⟩ = .ok stack ∧
      ∀ s ∈ [Sender.tcp ⟨2⟩, .uring ⟨2, []⟩,
          .smoltcp (stack.onRx (Smoltcp.established 64)).2 0],
        s.maxFrameSize < 2 ^ 32 ∧ s.send [7, 8] = some [2, 0, 0, 0, 7, 8] ∧
          Delivered 2 [7, 8] [2, 0, 0, 0, 7, 8] := by
  refine ⟨Smoltcp.listening ⟨9000, 64, 4, 2⟩, rfl, ?_⟩
  intro s hs
  have hboth : s.maxFrameSize = 2 ∧ s.send [7, 8] = some [2, 0, 0, 0, 7, 8] := by
    rcases hs with _ | ⟨_, _ | ⟨_, _ | ⟨_, h⟩⟩⟩
    · exact ⟨rfl, rfl⟩
    · exact ⟨rfl, rfl⟩
    · exact ⟨rfl, rfl⟩
    · cases h
  have hlimit : s.maxFrameSize < 2 ^ 32 := by
    rw [hboth.1]
    decide
  have hdelivered := ((delivered_iff hlimit [7, 8]).2.mpr fun _ => .inl hboth.1.ge) _ hboth.2
  rw [hboth.1] at hdelivered
  exact ⟨hlimit, hboth.2, hdelivered⟩

/-- A smoltcp session accepts two bytes where one is allowed, and nobody delivers them. -/
theorem oversized_accepted :
    ∃ stack, Smoltcp.SmoltcpStackInner.new ⟨9000, 64, 4, 1⟩ = .ok stack ∧
      let s := Sender.smoltcp (stack.onRx (Smoltcp.established 64)).2 0
      s.maxFrameSize = 1 ∧ s.send [7, 8] = some [2, 0, 0, 0, 7, 8] ∧
        ¬ Delivered 1 [7, 8] [2, 0, 0, 0, 7, 8] := by
  refine ⟨Smoltcp.listening ⟨9000, 64, 4, 1⟩, rfl, rfl, rfl, ?_⟩
  exact not_delivered_frame (by decide) (by decide)

end IronSbe.Transport
