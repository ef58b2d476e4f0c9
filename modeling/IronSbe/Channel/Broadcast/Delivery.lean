import IronSbe.Channel.Broadcast

/-!
# What the receivers of a broadcast channel are given

* `delivery`: the buffer after any history, and a receiver that only calls `recv_all`: it loses
  the numbers that are gone when it looks, and no other ones.
* `notStuck_iff`: a receiver that calls `recv` waits for a number.  Once that number is gone, it
  waits for ever, however many items there are behind it.
-/

namespace IronSbe.Channel.Broadcast

open Lib Lib.Numbered Lib.Transition List

variable {T : Type}

/-! ## Receivers that only call `recv_all` -/

/-- The number had been sent and was gone when the receiver next called `recv_all`. -/
def Subscriber.Evicted (sub : Subscriber T) (n : Nat) : Prop :=
  ∃ before look after, sub.looks = before ++ look :: after ∧
    (∀ earlier ∈ before, earlier.sequence ≤ n) ∧ n < look.sequence ∧
    n ∉ look.buffer.map Prod.fst

/-- The numbers that it is given increase, so none comes twice; each comes with the item that was
sent under it; and it misses no number but those that were gone. -/
structure Subscriber.Delivered (sent : List T) (sub : Subscriber T) : Prop where
  increasing : (sub.given.map Prod.fst).Pairwise (· < ·)
  items : ∀ m ∈ sub.given, sent[m.1]? = some m.2
  missed : ∀ n, sub.start ≤ n → n < sub.rx.nextSeq → n ∉ sub.given.map Prod.fst → sub.Evicted n

/-- All that the receiver was given and has seen is behind its next number. -/
structure Subscriber.Follows (sent : List T) (sub : Subscriber T) : Prop
    extends sub.Delivered sent where
  given_lt : ∀ m ∈ sub.given, m.1 < sub.rx.nextSeq
  looks_le : ∀ look ∈ sub.looks, look.sequence ≤ sub.rx.nextSeq

namespace Subscriber

variable {sub : Subscriber T} {sent : List T} {n : Nat}

theorem follows_new (rx : BroadcastReceiver) : (new rx : Subscriber T).Follows sent where
  increasing := List.Pairwise.nil
  items := by
    intro m hm
    cases hm
  missed := by
    intro n hstart hn
    exact absurd hstart (Nat.not_le.mpr hn)
  given_lt := by
    intro m hm
    cases hm
  looks_le := by
    intro look hlook
    cases hlook

/-- More is sent. -/
theorem Follows.concat (h : sub.Follows sent) (item : T) : sub.Follows (sent ++ [item]) where
  increasing := h.increasing
  items := by
    intro m hm
    have hget := h.items m hm
    rw [List.getElem?_append_left (List.getElem?_eq_some_iff.mp hget).1]
    exact hget
  missed := h.missed
  given_lt := h.given_lt
  looks_le := h.looks_le

theorem Evicted.recvAll (h : sub.Evicted n) (state : BroadcastState T) :
    (sub.recvAll state).Evicted n := by
  obtain ⟨before, look, after, hlooks, hearlier, hsent, hgone⟩ := h
  refine ⟨before, look, after ++ [state], ?_, hearlier, hsent, hgone⟩
  show sub.looks ++ [state] = _
  rw [hlooks, append_assoc, cons_append]

end Subscriber

namespace World

variable {w w' : World T} {call : Call T} {capacity k : Nat} {sub : Subscriber T}

theorem mem_drop_sent {m : Nat × T} {i : Nat} :
    m ∈ (numberFrom 0 w.sent).drop i ↔ i ≤ m.1 ∧ w.sent[m.1]? = some m.2 := by
  rw [drop_numberFrom, Nat.zero_add, mem_numberFrom, getElem?_drop]
  refine and_congr_right fun hle => ?_
  rw [Nat.add_sub_cancel' hle]

theorem Holds.mem_buffer (hw : w.Holds capacity) {m : Nat × T} :
    m ∈ w.tx.state.buffer ↔ w.first capacity ≤ m.1 ∧ w.sent[m.1]? = some m.2 := by
  rw [hw.buffer_eq, rtake, length_numberFrom]
  exact mem_drop_sent

/-- A number that was sent after the last call, and is not among those that are there now. -/
theorem evicted_recvAll (hw : w.Holds capacity) (h : sub.Follows w.sent) {n : Nat}
    (hnext : sub.rx.nextSeq ≤ n) (hsent : n < w.sent.length)
    (hmissed : n ∉ ((numberFrom 0 w.sent).drop (max sub.rx.nextSeq (w.first capacity))).map
      Prod.fst) :
    (sub.recvAll w.tx.state).Evicted n := by
  refine ⟨sub.looks, w.tx.state, [], rfl, fun look hlook => ?_, ?_, fun hmem => ?_⟩
  · exact Nat.le_trans (h.looks_le look hlook) hnext
  · rw [hw.sequence_eq]
    exact hsent
  · obtain ⟨m, hm, rfl⟩ := mem_map.mp hmem
    obtain ⟨hfirst, hitem⟩ := hw.mem_buffer.mp hm
    refine hmissed (mem_map.mpr ⟨m, mem_drop_sent.mpr ⟨?_, hitem⟩, rfl⟩)
    omega

theorem follows_recvAll (hw : w.Holds capacity) (hpos : 0 < capacity)
    (hsub : sub.rx.nextSeq ≤ w.sent.length) (h : sub.Follows w.sent) :
    (sub.recvAll w.tx.state).Follows w.sent := by
  have heq := hw.recvAll_eq hpos hsub
  have hgiven : (sub.recvAll w.tx.state).given =
      sub.given ++ (numberFrom 0 w.sent).drop (max sub.rx.nextSeq (w.first capacity)) := by
    rw [Subscriber.recvAll, heq]
  have hnext : (sub.recvAll w.tx.state).rx.nextSeq = w.sent.length := by
    rw [Subscriber.recvAll, heq]
  have hlooks : (sub.recvAll w.tx.state).looks = sub.looks ++ [w.tx.state] := rfl
  refine ⟨⟨?_, ?_, ?_⟩, ?_, ?_⟩
  · rw [hgiven, map_append, pairwise_append, drop_numberFrom]
    refine ⟨h.increasing, pairwise_numberFrom, fun i hi j hj => ?_⟩
    obtain ⟨m, hm, rfl⟩ := mem_map.mp hi
    obtain ⟨m', hm', rfl⟩ := mem_map.mp hj
    have hlt := h.given_lt m hm
    have hle := (mem_numberFrom.mp hm').1
    omega
  · intro m hm
    rw [hgiven, mem_append, mem_drop_sent] at hm
    obtain hold | hnew := hm
    · exact h.items m hold
    · exact hnew.2
  · intro n hstart hn hmissed
    rw [hnext] at hn
    rw [hgiven, map_append, mem_append, not_or] at hmissed
    obtain hlt | hge := Nat.lt_or_ge n sub.rx.nextSeq
    · exact (h.missed n hstart hlt hmissed.1).recvAll w.tx.state
    · exact evicted_recvAll hw h hge hn hmissed.2
  · intro m hm
    rw [hgiven, mem_append, mem_drop_sent] at hm
    rw [hnext]
    obtain hold | hnew := hm
    · exact Nat.lt_of_lt_of_le (h.given_lt m hold) hsub
    · exact (List.getElem?_eq_some_iff.mp hnew.2).1
  · rw [hlooks, hnext]
    refine forall_mem_append.mpr ⟨fun look hold => ?_, forall_mem_singleton.mpr ?_⟩
    · exact Nat.le_trans (h.looks_le look hold) hsub
    · exact Nat.le_of_eq hw.sequence_eq

/-- The subscriber with the number `k` follows, once it is there. -/
def FollowsAt (k : Nat) (w : World T) : Prop :=
  ∀ sub, w.subscribers[k]? = some sub → sub.Follows w.sent

theorem FollowsAt.addSubscriber (h : w.FollowsAt k) (rx : BroadcastReceiver) :
    (w.addSubscriber rx).FollowsAt k := by
  intro sub hsub
  obtain hold | rfl := subscriber_of_add hsub
  · exact h sub hold
  · exact Subscriber.follows_new rx

theorem followsAt_step (hpos : 0 < capacity) (hw : w.Holds capacity) (h : w.FollowsAt k)
    (hcall : call ≠ .recv k) (hstep : w.Step call w') : w'.FollowsAt k := by
  cases hstep with
  | send item _ => exact fun sub hsub => (h sub hsub).concat item
  | subscribe | subscribeFromStart | clone => exact h.addSubscriber _
  | recv j =>
    intro sub hsub
    obtain ⟨old, hold, rfl⟩ := subscriber_of_modify hsub
    rw [if_neg fun hjk => hcall (congrArg Call.recv hjk)]
    exact h old hold
  | recvAll j =>
    intro sub hsub
    obtain ⟨old, hold, rfl⟩ := subscriber_of_modify hsub
    split_ifs with hjk
    · have hnext := follows_recvAll hw hpos (hw.nextSeq_le k old hold) (h old hold)
      exact hnext
    · exact h old hold

theorem holds_of_run (hpos : 0 < capacity) {calls : List (Call T)}
    (hrun : run exec (new capacity) calls = some w) : w.Holds capacity :=
  run_invariant (Holds capacity)
    (fun _ _ _ _ hw hexec => holds_step hpos hw (step_of_exec hexec)) holds_new hrun

/-- The buffer holds the last items with consecutive numbers; and whoever only calls `recv_all`
is given every number once, in order, other than those that were gone when it looked. -/
theorem delivery (capacity : Nat) (hpos : 1 ≤ capacity) (calls : List (Call T))
    (hrun : run exec (new capacity) calls = some w) :
    w.tx.state.sequence = w.sent.length ∧
      w.tx.state.buffer = (numberFrom 0 w.sent).rtake (min w.sent.length capacity) ∧
      ∀ (k : Nat) (sub : Subscriber T), w.subscribers[k]? = some sub → .recv k ∉ calls →
        sub.Delivered w.sent := by
  have hw := holds_of_run hpos hrun
  refine ⟨hw.sequence_eq, ?_, fun k sub hsub honly => ?_⟩
  · rw [hw.buffer_eq, rtake, rtake, length_numberFrom]
    congr 1
    omega
  · have hboth : w.Holds capacity ∧ w.FollowsAt k := by
      refine run_invariant (fun w => w.Holds capacity ∧ w.FollowsAt k) ?_
        ⟨holds_new, by rintro sub ⟨⟩⟩ hrun
      rintro w call w' hmem ⟨hw, hfollows⟩ hexec
      have hcall : call ≠ .recv k := by
        rintro rfl
        exact honly hmem
      have hstep := step_of_exec hexec
      exact ⟨holds_step hpos hw hstep, followsAt_step hpos hw hfollows hcall hstep⟩
    exact (hboth.2 sub hsub).toDelivered

/-- A receiver looks after three items on a channel for two, and again after a fourth one. -/
theorem delivery_slow_receiver : ∃ w : World Nat,
    run exec (new 2) [.subscribe, .send 10, .send 11, .send 12, .recvAll 0, .send 13,
        .recvAll 0] = some w ∧
      w.subscribers.map Subscriber.given = [[(1, 11), (2, 12), (3, 13)]] ∧
      ∀ (k : Nat) (sub : Subscriber Nat), w.subscribers[k]? = some sub →
        .recv k ∉ [Call.subscribe, .send 10, .send 11, .send 12, .recvAll 0, .send 13,
          .recvAll 0] → sub.Delivered w.sent :=
  ⟨_, rfl, rfl, (delivery 2 (by decide) _ rfl).2.2⟩

end World

/-! ## Receivers that call `recv` -/

/-- `recv` returns `None` only when nothing from its number on is buffered, and otherwise the
first such message, which is also the first one of `recv_all`; and calls of it until `None`
return what `recv_all` returns. -/
structure NotStuck (state : BroadcastState T) (rx : BroadcastReceiver) : Prop where
  none_only : (rx.recv state).1 = none → ∀ m ∈ state.buffer, m.1 < rx.nextSeq
  first : (∃ m ∈ state.buffer, rx.nextSeq ≤ m.1) →
    (rx.recv state).1 = state.buffer.find? (fun m => rx.nextSeq ≤ m.1) ∧
      (rx.recv state).1 = (rx.recvAll state).1.head?
  all : ∃ fuel, rx.recvUntilNone state fuel = some (rx.recvAll state).1

namespace World

variable {w : World T} {capacity : Nat} {rx : BroadcastReceiver}

theorem Holds.head_le_iff (hw : w.Holds capacity) (hpos : 0 < capacity) :
    (∀ m ∈ w.tx.state.buffer.head?, m.1 ≤ rx.nextSeq) ↔ w.first capacity ≤ rx.nextSeq := by
  rw [hw.buffer_eq_numberFrom]
  cases hrest : w.sent.drop (w.first capacity) with
  | nil =>
    have hle := drop_eq_nil_iff.mp hrest
    refine iff_of_true (by rintro m ⟨⟩) ?_
    unfold first at hle ⊢
    omega
  | cons a rest => simp

theorem Holds.recvUntilNone_eq (hw : w.Holds capacity) (fuel : Nat) :
    ∀ rx : BroadcastReceiver, w.first capacity ≤ rx.nextSeq → w.sent.length - rx.nextSeq < fuel →
      rx.recvUntilNone w.tx.state fuel = some ((numberFrom 0 w.sent).drop rx.nextSeq) := by
  induction fuel with
  | zero =>
    intro rx _ hfuel
    omega
  | succ fuel ih =>
    intro rx hfirst hfuel
    have hrecv := hw.recv_eq rx
    rw [if_pos hfirst] at hrecv
    have hsnd := recv_snd rx w.tx.state
    rw [BroadcastReceiver.recvUntilNone]
    obtain hlt | hge := Nat.lt_or_ge rx.nextSeq w.sent.length
    · obtain ⟨item, hitem, hdrop⟩ := drop_numberFrom_of_lt hlt
      rw [getElem?_numberFrom, hitem, Option.map_some, Nat.zero_add] at hrecv
      rw [hrecv, Option.isSome_some, if_pos rfl] at hsnd
      have hpair : rx.recv w.tx.state = (some (rx.nextSeq, item), ⟨rx.nextSeq + 1⟩) :=
        Prod.ext hrecv hsnd
      rw [hpair]
      dsimp only
      rw [ih ⟨rx.nextSeq + 1⟩ (Nat.le_succ_of_le hfirst) (by dsimp only; omega), hdrop]
      rfl
    · rw [getElem?_numberFrom, getElem?_eq_none hge, Option.map_none] at hrecv
      rw [hrecv] at hsnd
      have hpair : rx.recv w.tx.state = (none, rx) := Prod.ext hrecv hsnd
      rw [hpair, drop_eq_nil_iff.mpr (by rw [length_numberFrom]; exact hge)]

theorem notStuck_of_first_le (hw : w.Holds capacity) (hpos : 0 < capacity)
    (hrx : rx.nextSeq ≤ w.sent.length) (hfirst : w.first capacity ≤ rx.nextSeq) :
    NotStuck w.tx.state rx := by
  have hrecv := hw.recv_eq rx
  rw [if_pos hfirst] at hrecv
  have hall : (rx.recvAll w.tx.state).1 = (numberFrom 0 w.sent).drop rx.nextSeq := by
    rw [hw.recvAll_eq hpos hrx, max_eq_left hfirst]
  have hhead : (rx.recv w.tx.state).1 = (rx.recvAll w.tx.state).1.head? := by
    rw [hall, head?_drop, hrecv]
  refine ⟨fun hnone m hm => ?_, fun _ => ⟨?_, hhead⟩, ?_⟩
  · rw [hrecv, getElem?_eq_none_iff, length_numberFrom] at hnone
    have hlt := (List.getElem?_eq_some_iff.mp (hw.mem_buffer.mp hm).2).1
    omega
  · rw [← head?_filter, hhead, hall, hw.buffer_eq_numberFrom, filter_numberFrom,
      drop_numberFrom, drop_numberFrom, drop_drop, Nat.add_sub_cancel' hfirst, Nat.zero_add]
  · refine ⟨w.sent.length - rx.nextSeq + 1, ?_⟩
    rw [hall]
    exact hw.recvUntilNone_eq _ rx hfirst (Nat.lt_succ_self _)

theorem first_le_of_notStuck (hw : w.Holds capacity) (hpos : 0 < capacity)
    (h : NotStuck w.tx.state rx) : w.first capacity ≤ rx.nextSeq := by
  by_contra hlt
  have hrecv := hw.recv_eq rx
  rw [if_neg hlt] at hrecv
  have hlength : w.first capacity < w.sent.length := by
    unfold first at hlt ⊢
    omega
  have hmem : (w.first capacity, w.sent[w.first capacity]) ∈ w.tx.state.buffer :=
    hw.mem_buffer.mpr ⟨Nat.le_refl _, getElem?_eq_getElem hlength⟩
  have hbehind := h.none_only hrecv _ hmem
  omega

/-- A receiver is not stuck exactly if the first number in the buffer is not behind the one that
it waits for. -/
theorem notStuck_iff (capacity : Nat) (hpos : 1 ≤ capacity) (calls : List (Call T))
    (hrun : run exec (new capacity) calls = some w) (k : Nat) {sub : Subscriber T}
    (hsub : w.subscribers[k]? = some sub) :
    NotStuck w.tx.state sub.rx ↔ ∀ m ∈ w.tx.state.buffer.head?, m.1 ≤ sub.rx.nextSeq := by
  have hw := holds_of_run hpos hrun
  rw [hw.head_le_iff hpos]
  exact ⟨first_le_of_notStuck hw hpos,
    notStuck_of_first_le hw hpos (hw.nextSeq_le k sub hsub)⟩

/-- A new receiver and two items on a channel for two. -/
theorem notStuck_two_items : ∃ (w : World Nat) (sub : Subscriber Nat),
    run exec (new 2) [.subscribe, .send 10, .send 11] = some w ∧
      w.subscribers[0]? = some sub ∧ NotStuck w.tx.state sub.rx := by
  refine ⟨_, _, rfl, rfl, ?_⟩
  refine (notStuck_iff 2 (by decide) [.subscribe, .send 10, .send 11] rfl 0 rfl).mpr ?_
  rintro m ⟨⟩
  decide

/-- A new receiver and two items on a channel for one: the first item is gone, and the second is
never returned. -/
theorem stuck_two_items : ∃ (w : World Nat) (sub : Subscriber Nat),
    run exec (new 1) [.subscribe, .send 10, .send 11] = some w ∧
      w.subscribers[0]? = some sub ∧ ¬ NotStuck w.tx.state sub.rx := by
  refine ⟨_, _, rfl, rfl, fun h => ?_⟩
  have hbehind := h.none_only rfl (1, 11) (by decide)
  exact absurd hbehind (by decide)

end World

end IronSbe.Channel.Broadcast
