import IronSbe.Transport.Smoltcp
import IronSbe.Transport.Uring

/-!
# One wire format, three receivers

The tokio codec, the io_uring connection and the smoltcp stack were written one by
one, with buffers of their own and with different ways to report a length above the
limit.  All three are receivers in the sense of `Lib.Framing.Implements`, so what they
deliver is a function of the stream.
-/

namespace IronSbe.Transport

open Lib.Framing

namespace Smoltcp

/-- The rounds of a session whose peer stays connected, for the bytes that the socket
receives before each of them, up to the round that closes the session. -/
def rounds (maxFrameSize : Nat) :
    List (List UInt8) → Socket → SessionState → List UInt8 → SessionState
  | [], _, session, _ => session
  | chunk :: chunks, sock, session, buf =>
    let r := pollSession maxFrameSize { sock with active := true, received := chunk } session buf
    if r.2.1.closed then r.2.1 else rounds maxFrameSize chunks r.1 r.2.1 r.2.2

/-- The rounds queue what a receiver of the library delivers, and close the session
where it ends on an error. -/
theorem rounds_eq_feedWith {maxFrameSize : Nat} {chunks : List (List UInt8)} (sock : Socket)
    {session : SessionState} {buf : List UInt8} {r : Received Unit}
    (hopen : session.closed = false)
    (hfeed : feedWith (decodeStep maxFrameSize) chunks buf = some r) :
    (rounds maxFrameSize chunks sock session buf).rxQueue = session.rxQueue ++ r.frames ∧
      ((rounds maxFrameSize chunks sock session buf).closed = true ↔
        ∃ e, r.outcome = .error e) := by
  induction chunks generalizing sock session buf r with
  | nil =>
    cases hfeed
    simp [rounds, hopen]
  | cons chunk chunks ih =>
    obtain ⟨d, hdrain, hqueue, hclosed, hleft⟩ :=
      pollSession_received maxFrameSize { sock with active := true, received := chunk } session buf
    rw [feedWith, hdrain] at hfeed
    rw [rounds]
    generalize pollSession maxFrameSize _ session buf = round at hqueue hclosed hleft ⊢
    obtain ⟨frames, outcome, left⟩ := d
    obtain rfl : round.2.2 = left := hleft
    cases outcome with
    | error e =>
      cases hfeed
      have hround : round.2.1.closed = true := hclosed.trans (by rw [hopen]; rfl)
      rw [if_pos hround]
      exact ⟨hqueue, fun _ => ⟨e, rfl⟩, fun _ => hround⟩
    | ok _ =>
      obtain ⟨r', hr', rfl⟩ := Option.map_eq_some_iff.mp hfeed
      have hround : round.2.1.closed = false := hclosed.trans (by rw [hopen]; rfl)
      rw [if_neg (Bool.eq_false_iff.mp hround)]
      obtain ⟨hqueue', hclosed'⟩ := ih round.1 hround hr'
      refine ⟨?_, hclosed'⟩
      rw [hqueue', hqueue, List.append_assoc]
      rfl

end Smoltcp

/-- The three receivers deliver the same frames of a stream, wherever each of them sees
it cut: those before the first length above the limit.  They refuse that length, with
an error, an error and a closed session, and end without one if there is none. -/
theorem receivers_agree (maxFrameSize : Nat) (bytes : List UInt8)
    {tcpChunks uringChunks smoltcpChunks : List (List UInt8)} (htcp : tcpChunks.flatten = bytes)
    (huring : uringChunks.flatten = bytes) (hsmoltcp : smoltcpChunks.flatten = bytes)
    (sock : Smoltcp.Socket) (handle : Nat) :
    ∃ tcp uring, SbeFrameCodec.feed ⟨maxFrameSize⟩ tcpChunks [] = some tcp ∧
      feedWith (UringConnection.takeFrom maxFrameSize) uringChunks [] = some uring ∧
      let session := Smoltcp.rounds maxFrameSize smoltcpChunks sock { handle := handle } []
      let whole := parse maxFrameSize bytes
      (tcp.frames = whole.1 ∧ uring.frames = whole.1 ∧ session.rxQueue = whole.1) ∧
        ((∃ e, tcp.outcome = .error e) ↔ Refused maxFrameSize whole.2) ∧
        ((∃ e, uring.outcome = .error e) ↔ Refused maxFrameSize whole.2) ∧
        (session.closed = true ↔ Refused maxFrameSize whole.2) := by
  obtain ⟨tcp, htcpFeed, htcpFrames, htcpEnds⟩ :=
    (SbeFrameCodec.implements_decode ⟨maxFrameSize⟩).feedWith_nil tcpChunks
  obtain ⟨uring, huringFeed, huringFrames, huringEnds⟩ :=
    (UringConnection.implements_tryTakeFrame maxFrameSize).feedWith_nil uringChunks
  obtain ⟨r, hfeed, hframes, hends⟩ :=
    (Smoltcp.implements_decodeStep maxFrameSize).feedWith_nil smoltcpChunks
  have hopen : ({ handle := handle } : Smoltcp.SessionState).closed = false := rfl
  obtain ⟨hqueue, hclosed⟩ := Smoltcp.rounds_eq_feedWith sock hopen hfeed
  rw [htcp] at htcpFrames htcpEnds
  rw [huring] at huringFrames huringEnds
  rw [hsmoltcp] at hframes hends
  refine ⟨tcp, uring, htcpFeed, huringFeed,
    ⟨htcpFrames, huringFrames, hqueue.trans hframes⟩, ?_, ?_, ?_⟩
  · exact htcpEnds.error_iff
  · exact huringEnds.error_iff
  · exact hclosed.trans hends.error_iff

/-- Two frames and then a length above the limit, cut at different places. -/
theorem receivers_agree_two :
    ∃ tcp uring,
      SbeFrameCodec.feed ⟨2⟩ [[1, 0], [0, 0, 7, 0, 0, 0, 0, 3], [0, 0, 0]] [] = some tcp ∧
      feedWith (UringConnection.takeFrom 2) [[1], [0, 0, 0, 7], [0, 0, 0, 0, 3, 0, 0, 0]] [] =
        some uring ∧
      let session :=
        Smoltcp.rounds 2 [[1, 0, 0, 0, 7, 0, 0, 0], [], [0, 3, 0, 0, 0]] {} { handle := 0 } []
      (tcp.frames = [[7], []] ∧ uring.frames = [[7], []] ∧ session.rxQueue = [[7], []]) ∧
        (∃ e, tcp.outcome = .error e) ∧ (∃ e, uring.outcome = .error e) ∧
        session.closed = true := by
  have htcp : [[1, 0], [0, 0, 7, 0, 0, 0, 0, 3], [0, 0, 0]].flatten =
      ([1, 0, 0, 0, 7, 0, 0, 0, 0, 3, 0, 0, 0] : List UInt8) := rfl
  have huring : [[1], [0, 0, 0, 7], [0, 0, 0, 0, 3, 0, 0, 0]].flatten =
      ([1, 0, 0, 0, 7, 0, 0, 0, 0, 3, 0, 0, 0] : List UInt8) := rfl
  have hsmoltcp : [[1, 0, 0, 0, 7, 0, 0, 0], [], [0, 3, 0, 0, 0]].flatten =
      ([1, 0, 0, 0, 7, 0, 0, 0, 0, 3, 0, 0, 0] : List UInt8) := rfl
  have hfirst : head 2 [1, 0, 0, 0, 7, 0, 0, 0, 0, 3, 0, 0, 0] =
      .complete [7] [0, 0, 0, 0, 3, 0, 0, 0] := by decide
  have hsecond : head 2 [0, 0, 0, 0, 3, 0, 0, 0] = .complete [] [3, 0, 0, 0] := by decide
  have hthird : head 2 [3, 0, 0, 0] = .oversized 3 := by decide
  have hparse : parse 2 [1, 0, 0, 0, 7, 0, 0, 0, 0, 3, 0, 0, 0] = ([[7], []], [3, 0, 0, 0]) := by
    rw [parse_of_complete hfirst, parse_of_complete hsecond,
      parse_of_not_complete (by rw [hthird]; simp)]
  have hagree := receivers_agree 2 _ htcp huring hsmoltcp {} 0
  rw [hparse] at hagree
  obtain ⟨tcp, uring, htcpFeed, huringFeed, hframes, htcpEnd, huringEnd, hclosed⟩ := hagree
  exact ⟨tcp, uring, htcpFeed, huringFeed, hframes, htcpEnd.mpr ⟨3, hthird⟩,
    huringEnd.mpr ⟨3, hthird⟩, hclosed.mpr ⟨3, hthird⟩⟩

end IronSbe.Transport
