import IronSbe.MarketData.Gaps
import IronSbe.MarketData.Instrument
import IronSbe.Transport.SeqLimit

/-!
# The last sequence number of an instrument

An update with the number `u64::MAX` is applied only if it is the next one; in the other cases
it waits in the queue, and the next snapshot for the instrument meets it there.  Until then
nothing is old: what comes behind it is queued too.

* `gapCallsSafe_iff`: `check_gap` of the arbitrator of the instruments.
* `Slot.BehindMax`: an instrument that has got the last number, and still runs.
* `messagesSafe_iff`: the handler.
* `seqNumbersSafe_iff`: all of the places where the next number is computed.
-/

namespace IronSbe.MarketData

open List

open Transport (maxSeq SeqSafe seqSafe_iff FeedArbitrator PacketsSafe packetsSafe_iff sequenceOf)
open Lib.Accumulate (forall_split_foldl_iff forall_split_cons_iff forall_split_nil)

/-! ## `check_gap` -/

namespace InstrumentArbitrator

/-- The arbitrator after calls of `check_gap` with an instrument and a number. -/
def afterGapCalls (calls : List (UInt64 × UInt64)) : InstrumentArbitrator :=
  calls.foldl (fun a call => (a.checkGap call.1 call.2.toNat).2) new

/-- The first call has the last number, and the later one a smaller one for the same
instrument. -/
def GapCallBehind (first later : UInt64 × UInt64) : Prop :=
  first.1 = later.1 ∧ first.2.toNat = maxSeq ∧ later.2.toNat < maxSeq

/-- `check_gap` never overflows, and behind the last number of an instrument there is no gap
and nothing moves the expected number. -/
def GapCallsSafe : List (UInt64 × UInt64) → Prop :=
  SeqSafe GapCallBehind
    (fun before call =>
      ∃ gap, ((afterGapCalls before).checkGap call.1 call.2.toNat).1 = .ok gap)
    (fun before call =>
      (afterGapCalls before).checkGap call.1 call.2.toNat = (.ok none, afterGapCalls before))

/-- No expected number is greater than the last one. -/
def BelowMax (a : InstrumentArbitrator) : Prop := ∀ id, a.expected id ≤ maxSeq

theorem BelowMax.checkGap_max {a : InstrumentArbitrator} (ha : BelowMax a)
    {call : UInt64 × UInt64} (hmax : call.2.toNat = maxSeq) :
    ¬ ∃ gap, (a.checkGap call.1 call.2.toNat).1 = .ok gap := by
  rintro ⟨gap, hgap⟩
  rw [(Gaps.expected_checkGap a call.1 call.2.toNat).1, hmax,
    Transport.advanceExpected_max (ha call.1)] at hgap
  cases hgap

theorem BelowMax.checkGap {a : InstrumentArbitrator} (ha : BelowMax a)
    {call : UInt64 × UInt64} (hmax : call.2.toNat ≠ maxSeq) :
    (∃ gap, (a.checkGap call.1 call.2.toNat).1 = .ok gap) ∧
      BelowMax (a.checkGap call.1 call.2.toNat).2 := by
  obtain ⟨hresult, hafter, hothers⟩ := Gaps.expected_checkGap a call.1 call.2.toNat
  have hlt : call.2.toNat < maxSeq := by
    have hrange := call.2.toNat_lt
    unfold maxSeq at hmax ⊢
    omega
  refine ⟨?_, fun id => ?_⟩
  · rw [hresult]
    exact Transport.advanceExpected_ok hlt
  · by_cases hid : id = call.1
    · rw [hid, hafter]
      exact Transport.expectedAfter_le (ha call.1) _
    · rw [hothers id hid]
      exact ha id

theorem belowMax_new : BelowMax new := by
  intro id
  show 1 ≤ maxSeq
  decide

/-- The calls are safe if and only if none has the last number. -/
theorem gapCallsSafe_iff (calls : List (UInt64 × UInt64)) :
    GapCallsSafe calls ↔ ∀ call ∈ calls, call.2.toNat ≠ maxSeq := by
  refine seqSafe_iff (L := fun call : UInt64 × UInt64 => call.2.toNat = maxSeq)
    (fun _ _ hbehind => hbehind.2.1) ?_
  exact forall_split_foldl_iff (fun a call ha => ha.checkGap_max)
    (fun a call ha => ha.checkGap) belowMax_new calls

end InstrumentArbitrator

/-! ## The handler -/

/-- A market data message. -/
inductive Message where
  | incremental (u : BookUpdate)
  | snapshot (s : BookSnapshot)
  deriving DecidableEq, Repr

namespace Message

/-- The call that delivers the message. -/
def toOperation : Message → Operation
  | .incremental u => .onIncremental u
  | .snapshot s => .onSnapshot s

/-- The sequence number of the message. -/
def seqNum : Message → Nat
  | .incremental u => u.seqNum
  | .snapshot s => s.seqNum

/-- The instrument of the message. -/
def instrument (m : Message) : UInt64 := m.toOperation.instrument

/-- The first message has the last number, and the later one a smaller one for the same
instrument. -/
def Behind (first later : Message) : Prop :=
  first.instrument = later.instrument ∧ first.seqNum = maxSeq ∧ later.seqNum < maxSeq

end Message

namespace Slot

/-- An instrument that has got the last number is unknown, or the number is in its queue. -/
def BehindMax (s : Slot) : Prop := s.book = none ∨ ∃ u ∈ s.queued, u.seqNum = maxSeq

variable {s s' : Slot} {m : Message} {events : List MarketDataEvent}

theorem BehindMax.enqueue (h : BehindMax s) (u : BookUpdate) (state : Option InstrumentState) :
    BehindMax { s.enqueue u with state := state } :=
  h.imp_right fun ⟨v, hv, hmax⟩ => ⟨v, mem_append_left [u] hv, hmax⟩

theorem behindMax_enqueue {u : BookUpdate} (hmax : u.seqNum = maxSeq)
    (state : Option InstrumentState) : BehindMax { s.enqueue u with state := state } :=
  .inr ⟨u, mem_append_right _ mem_cons_self, hmax⟩

/-- An instrument with the last number in its queue is not active. -/
theorem BehindMax.not_active (h : BehindMax s) (hs : s.Linked) : s.state ≠ some .active := by
  intro hactive
  obtain ⟨hpending, book, hbook, -⟩ := hs.active hactive
  rcases h with hnone | ⟨u, hu, -⟩
  · rw [hbook] at hnone
    cases hnone
  · rw [queued, hpending] at hu
    cases hu

/-- A snapshot comes through for an unknown instrument only. -/
theorem BehindMax.book_eq_none (h : BehindMax s) {snapshot : BookSnapshot}
    (hreturns : s.Returns (.onSnapshot snapshot)) : s.book = none := by
  rcases h with hnone | ⟨u, hu, hmax⟩
  · exact hnone
  · by_contra hbook
    obtain ⟨hseq, hus⟩ := hreturns (Option.isSome_iff_ne_none.mpr hbook)
    unfold maxSeq at hmax
    have hmem : u ∈ s.replayed snapshot.seqNum :=
      mem_filter.mpr ⟨hu, decide_eq_true (by omega)⟩
    have hlt := hus u hmem
    omega

/-- A message with the last number that comes through. -/
theorem Step.behindMax (hs : s.Linked) (hstep : s.Step m.toOperation s' events)
    (hmax : m.seqNum = maxSeq) : BehindMax s' := by
  have hmax' : m.seqNum + 1 = 2 ^ 64 := by
    rw [hmax]
    rfl
  cases m with
  | incremental u =>
    change u.seqNum + 1 = 2 ^ 64 at hmax'
    cases hstep with
    | queued | revived | gap => exact behindMax_enqueue hmax _
    | old u expected hactive hexp hold =>
      obtain ⟨-, book, hbook, -⟩ := hs.active hactive
      have hlt := (hs.expected_le book expected hbook hexp).2
      omega
    | applied u book hactive hexp hbook hseq => omega
  | snapshot snapshot =>
    change snapshot.seqNum + 1 = 2 ^ 64 at hmax'
    cases hstep with
    | unknown snapshot hbook => exact .inl hbook
    | recovered snapshot book hbook hseq hus => omega

/-- The next messages that come through. -/
theorem BehindMax.step (h : BehindMax s) (hs : s.Linked)
    (hstep : s.Step m.toOperation s' events) : BehindMax s' := by
  cases m with
  | incremental u =>
    cases hstep with
    | queued | revived | gap => exact h.enqueue u _
    | old u expected hactive hexp hold => exact h
    | applied u book hactive hexp hbook hseq => exact absurd hactive (h.not_active hs)
  | snapshot snapshot =>
    cases hstep with
    | unknown snapshot hbook => exact h
    | recovered snapshot book hbook hseq hus =>
      rw [h.book_eq_none fun _ => ⟨hseq, hus⟩] at hbook
      cases hbook

/-- No update is ignored. -/
theorem BehindMax.step_ne (h : BehindMax s) (hs : s.Linked) {u : BookUpdate}
    (hstep : s.Step (.onIncremental u) s' events) : s' ≠ s := by
  have hlonger : ∀ state, { s.enqueue u with state := state } ≠ s := by
    intro state heq
    have hqueued := congrArg (fun s => s.queued.length) heq
    simp [queued, Slot.enqueue] at hqueued
  cases hstep with
  | queued | revived | gap => exact hlonger _
  | old u expected hactive hexp hold | applied u book hactive hexp hbook hseq =>
    exact absurd hactive (h.not_active hs)

end Slot

namespace MarketDataHandler

variable {h g : MarketDataHandler} {setup : List Operation} {messages : List Message}

/-- The handler after the messages. -/
def runMessages (h : MarketDataHandler) (messages : List Message) : Option MarketDataHandler :=
  h.run (messages.map Message.toOperation)

/-- `on_incremental` and `on_snapshot` never overflow, and behind the last number of an
instrument the smaller ones are ignored. -/
def MessagesSafe (h : MarketDataHandler) : List Message → Prop :=
  SeqSafe Message.Behind
    (fun before m => ∀ g, h.runMessages before = some g → (g.exec m.toOperation).isSome = true)
    (fun before m => ∀ g, h.runMessages before = some g → g.exec m.toOperation = some g)

/-- No message has a next number that is out of range, and no update is behind the last number
of its instrument. -/
structure MessagesBelow (h : MarketDataHandler) (messages : List Message) : Prop where
  returns : ∀ before m after, messages = before ++ m :: after →
    ∀ g, h.runMessages before = some g → (g.slot m.instrument).Returns m.toOperation
  inOrder : ∀ before first mid u after,
    messages = before ++ first :: (mid ++ .incremental u :: after) → ¬ first.Behind (.incremental u)

theorem run_messages (hrun : new.run setup = some h) (hg : h.runMessages messages = some g) :
    new.run (setup ++ messages.map Message.toOperation) = some g := by
  rw [run_eq, Lib.Transition.run_append, ← run_eq, hrun]
  exact hg

/-- The last message of several. -/
theorem runMessages_concat (h : MarketDataHandler) (messages : List Message) (m : Message) :
    h.runMessages (messages ++ [m]) =
      (h.runMessages messages).bind fun g => g.exec m.toOperation := by
  unfold runMessages
  rw [map_append, map_singleton, run_eq, Lib.Transition.run_concat]
  rfl

/-- If no message panics, all of them are reached. -/
theorem exists_runMessages (hall : ∀ before m after, messages = before ++ m :: after →
      ∀ g, h.runMessages before = some g → (g.exec m.toOperation).isSome = true)
    {before after : List Message} (hsplit : messages = before ++ after) :
    ∃ g, h.runMessages before = some g := by
  induction before using reverseRecOn generalizing after with
  | nil => exact ⟨h, rfl⟩
  | append_singleton before m ih =>
    have hm : messages = before ++ m :: after := by rw [hsplit, append_assoc]; rfl
    obtain ⟨g, hg⟩ := ih hm
    obtain ⟨g', hop⟩ := Option.isSome_iff_exists.mp (hall before m after hm g hg)
    refine ⟨g', ?_⟩
    rw [runMessages_concat, hg, Option.bind_some, hop]

/-- An instrument that has got the last number, for as long as the messages come through. -/
theorem behindMax_run (hrun : new.run setup = some h) {before mid : List Message}
    {first : Message} (hmax : first.seqNum = maxSeq)
    (hg : h.runMessages (before ++ first :: mid) = some g) :
    (g.slot first.instrument).BehindMax := by
  induction mid using reverseRecOn generalizing g with
  | nil =>
    rw [runMessages_concat] at hg
    obtain ⟨g₀, hbefore, hop⟩ := Option.bind_eq_some_iff.mp hg
    have hreached := run_messages hrun hbefore
    obtain ⟨events, hstep, -, -⟩ := step_of_run hreached hop
    exact hstep.behindMax (linked_of_run hreached _) hmax
  | append_singleton mid m ih =>
    rw [← cons_append, ← append_assoc, runMessages_concat] at hg
    obtain ⟨g₀, hbefore, hop⟩ := Option.bind_eq_some_iff.mp hg
    have hreached := run_messages hrun hbefore
    have hmax₀ := ih hbefore
    obtain ⟨events, hstep, -, hframe⟩ := step_of_run hreached hop
    by_cases hid : first.instrument = m.toOperation.instrument
    · rw [hid] at hmax₀ ⊢
      exact hmax₀.step (linked_of_run hreached _) hstep
    · rw [hframe _ hid]
      exact hmax₀

/-- A handler is safe from the messages if and only if the next numbers are in range, and no
update comes behind the last number of its instrument. -/
theorem messagesSafe_iff (hrun : new.run setup = some h) (messages : List Message) :
    MessagesSafe h messages ↔ MessagesBelow h messages := by
  constructor
  · intro hsafe
    refine ⟨fun before m after hm g hg => ?_, ?_⟩
    · exact (exec_isSome_iff (run_messages hrun hg) _).mp
        (hsafe.noOverflow before m after hm g hg)
    · intro before first mid u after hm hbehind
      obtain ⟨g, hg⟩ := exists_runMessages hsafe.noOverflow
        (show messages = (before ++ first :: mid) ++ .incremental u :: after by simpa using hm)
      have hreached := run_messages hrun hg
      have hmax := behindMax_run hrun hbehind.2.1 hg
      rw [hbehind.1] at hmax
      -- the update is old, but it is queued
      have hsame := hsafe.isOld before first mid (.incremental u) after hm hbehind g hg
      obtain ⟨events, hstep, -, -⟩ := step_of_run hreached hsame
      exact hmax.step_ne (linked_of_run hreached _) hstep rfl
  · intro hbelow
    refine ⟨fun before m after hm g hg => ?_, ?_⟩
    · exact (exec_isSome_iff (run_messages hrun hg) _).mpr (hbelow.returns before m after hm g hg)
    · intro before first mid later after hm hbehind g hg
      cases later with
      | incremental u => exact absurd hbehind (hbelow.inOrder before first mid u after hm)
      | snapshot s =>
        have hmax := behindMax_run hrun hbehind.2.1 hg
        rw [hbehind.1] at hmax
        have hreturns := hbelow.returns (before ++ first :: mid) (.snapshot s) after
          (by simpa using hm) g hg
        have hnone : g.books s.instrumentId = none := hmax.book_eq_none hreturns
        show g.onSnapshot s = some g
        simp only [onSnapshot, hnone]

end MarketDataHandler

/-- Packets for a receiver, calls of `check_gap` and messages for a handler: no sequence number
makes an addition overflow, and behind the last number the smaller ones are old. -/
structure SeqNumbersSafe (a : FeedArbitrator) (packets : List (List UInt8))
    (calls : List (UInt64 × UInt64)) (h : MarketDataHandler) (messages : List Message) : Prop where
  packets : PacketsSafe a packets
  gapCalls : InstrumentArbitrator.GapCallsSafe calls
  messages : h.MessagesSafe messages

/-- With a new arbitrator, and a handler at any time, this is so if and only if no packet and
no call has the last number, and the messages are in range and in order. -/
theorem seqNumbersSafe_iff {cacheSize : Nat} {a : FeedArbitrator}
    (hnew : FeedArbitrator.new cacheSize = some a) {setup : List Operation}
    {h : MarketDataHandler} (hrun : MarketDataHandler.new.run setup = some h)
    (packets : List (List UInt8)) (calls : List (UInt64 × UInt64)) (messages : List Message) :
    SeqNumbersSafe a packets calls h messages ↔
      (∀ data ∈ packets, sequenceOf data ≠ some maxSeq) ∧
        (∀ call ∈ calls, call.2.toNat ≠ maxSeq) ∧ h.MessagesBelow messages := by
  rw [← packetsSafe_iff (FeedArbitrator.belowMax_of_new hnew),
    ← InstrumentArbitrator.gapCallsSafe_iff, ← MarketDataHandler.messagesSafe_iff hrun]
  constructor
  · intro hsafe
    exact ⟨hsafe.packets, hsafe.gapCalls, hsafe.messages⟩
  · rintro ⟨hpackets, hcalls, hmessages⟩
    exact ⟨hpackets, hcalls, hmessages⟩

/-- A packet, a call and a snapshot with small numbers. -/
theorem seqNumbersSafe_of_small :
    ∃ a h, FeedArbitrator.new 10000 = some a ∧
      MarketDataHandler.new.run [.subscribe 1] = some h ∧
      SeqNumbersSafe a [[7, 0, 0, 0, 0, 0, 0, 0, 42]] [(1, 5)] h [.snapshot ⟨1, 5, [], []⟩] := by
  have hrun : MarketDataHandler.new.run [.subscribe 1] = some (.subscribe .new 1) := rfl
  have hnew : FeedArbitrator.new 10000 = some ⟨0, .empty 10000, 1⟩ := rfl
  refine ⟨_, _, hnew, hrun, (seqNumbersSafe_iff hnew hrun _ _ _).mpr ⟨?_, ?_, ?_⟩⟩
  · exact forall_mem_singleton.mpr (by decide)
  · exact forall_mem_singleton.mpr (by decide)
  refine ⟨forall_split_cons_iff.mpr ⟨?_, forall_split_nil⟩, ?_⟩
  · rintro g hg -
    cases hg
    exact ⟨by decide, by decide⟩
  · intro before first mid u after hsplit
    have hlength := congrArg length hsplit
    simp only [length_cons, length_append, length_nil] at hlength
    omega

/-- The last number makes each of the four functions overflow. -/
theorem seqNumbers_overflow :
    ∃ a h, FeedArbitrator.new 10000 = some a ∧
      MarketDataHandler.new.run [.subscribe 1] = some h ∧
      ¬ PacketsSafe a [List.replicate 8 255] ∧
      ¬ InstrumentArbitrator.GapCallsSafe [(1, 0xFFFFFFFFFFFFFFFF)] ∧
      ¬ h.MessagesSafe [.snapshot ⟨1, maxSeq, [], []⟩] ∧
      ¬ h.MessagesSafe [.snapshot ⟨1, maxSeq - 1, [], []⟩,
          .incremental ⟨1, maxSeq, .bid, 100, 3, 1⟩] := by
  refine ⟨_, _, rfl, rfl, ?_, ?_, ?_, ?_⟩
  · intro hsafe
    obtain ⟨result, hresult⟩ := hsafe.noOverflow [] _ [] rfl
    cases hresult
  · intro hsafe
    obtain ⟨gap, hgap⟩ := hsafe.noOverflow [] _ [] rfl
    cases hgap
  · intro hsafe
    have hsome := hsafe.noOverflow [] _ [] rfl _ rfl
    exact absurd hsome (by decide)
  · intro hsafe
    have hsome := hsafe.noOverflow [_] _ [] rfl _ rfl
    exact absurd hsome (by decide)

end IronSbe.MarketData
