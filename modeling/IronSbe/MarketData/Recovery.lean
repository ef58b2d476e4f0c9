import Mathlib.Data.Finset.Card
import Mathlib.Data.List.Infix
import Mathlib.Data.List.Nodup

/-!
# Requests for lost messages

`RecoveryManager` keeps the requests that are under way, and next to them the set of the
instruments that they are for.  A request ends when it is completed or when it is too old.

* `Consistent`: the set and the requests agree, and no instrument has two requests.
  `consistent_exec` and `consistent_run` are one call and any sequence of them.
* `mem_pending_exec`: which calls end a request.
* `gapsRemembered_iff`: a second request for an instrument is dropped, whatever numbers it asks
  for.  Nothing is lost as long as the first one asks for them too.

Times are in nanoseconds, and the difference to a later time is 0, as it is for
`duration_since`.
-/

namespace IronSbe.MarketData

open List

/-- `RecoveryRequest`. -/
structure RecoveryRequest where
  instrumentId : UInt64
  startSeq : Nat
  endSeq : Nat
  createdAt : Nat
  deriving DecidableEq, Repr

/-- `RecoveryManager`. -/
structure RecoveryManager where
  pending : List RecoveryRequest
  recovering : Finset UInt64
  timeout : Nat
  deriving DecidableEq

namespace RecoveryManager

/-- No requests. -/
def new (timeout : Nat) : RecoveryManager := ⟨[], ∅, timeout⟩

/-- `request_recovery`, at the time `now`. -/
def requestRecovery (m : RecoveryManager) (now : Nat) (instrumentId : UInt64)
    (startSeq endSeq : Nat) : RecoveryManager :=
  if instrumentId ∈ m.recovering then m
  else
    { m with
      recovering := insert instrumentId m.recovering
      pending := m.pending ++ [⟨instrumentId, startSeq, endSeq, now⟩] }

/-- `complete_recovery`. -/
def completeRecovery (m : RecoveryManager) (instrumentId : UInt64) : RecoveryManager :=
  { m with
    recovering := m.recovering.erase instrumentId
    pending := m.pending.filter (·.instrumentId ≠ instrumentId) }

/-- The closure of `retain` in `check_timeouts`: the requests that stay, and those that have
timed out. -/
def sweep (timeout now : Nat) :
    List RecoveryRequest × List RecoveryRequest → RecoveryRequest →
      List RecoveryRequest × List RecoveryRequest
  | (kept, timedOut), r =>
    if timeout < now - r.createdAt then (kept, timedOut ++ [r]) else (kept ++ [r], timedOut)

/-- `check_timeouts`, at the time `now`. -/
def checkTimeouts (m : RecoveryManager) (now : Nat) : List RecoveryRequest × RecoveryManager :=
  let (kept, timedOut) := m.pending.foldl (sweep m.timeout now) ([], [])
  (timedOut,
    { m with
      pending := kept
      recovering := timedOut.foldl (fun set r => set.erase r.instrumentId) m.recovering })

/-- A call that changes the manager. -/
inductive Call where
  | requestRecovery (now : Nat) (instrumentId : UInt64) (startSeq endSeq : Nat)
  | completeRecovery (instrumentId : UInt64)
  | checkTimeouts (now : Nat)
  deriving DecidableEq, Repr

/-- A call. -/
def exec (m : RecoveryManager) : Call → RecoveryManager
  | .requestRecovery now instrumentId startSeq endSeq =>
    m.requestRecovery now instrumentId startSeq endSeq
  | .completeRecovery instrumentId => m.completeRecovery instrumentId
  | .checkTimeouts now => (m.checkTimeouts now).2

/-- Many calls. -/
def run (m : RecoveryManager) (calls : List Call) : RecoveryManager := calls.foldl exec m

/-- The requests that the calls ask for, in order. -/
def requests (calls : List Call) : List RecoveryRequest :=
  calls.filterMap fun
    | .requestRecovery now instrumentId startSeq endSeq =>
      some ⟨instrumentId, startSeq, endSeq, now⟩
    | _ => none

/-! ## What a call does -/

/-- A request is older than the timeout. -/
def Expired (timeout now : Nat) (r : RecoveryRequest) : Prop := r.createdAt + timeout < now

instance (timeout now : Nat) (r : RecoveryRequest) : Decidable (Expired timeout now r) :=
  inferInstanceAs (Decidable (_ < _))

theorem foldl_sweep (timeout now : Nat) (rs kept timedOut : List RecoveryRequest) :
    rs.foldl (sweep timeout now) (kept, timedOut) =
      (kept ++ rs.filter (¬ Expired timeout now ·),
        timedOut ++ rs.filter (Expired timeout now ·)) := by
  induction rs generalizing kept timedOut with
  | nil => simp
  | cons r rest ih =>
    have hiff : timeout < now - r.createdAt ↔ Expired timeout now r := by
      unfold Expired
      omega
    rw [foldl_cons, sweep]
    by_cases hold : Expired timeout now r
    · rw [if_pos (hiff.mpr hold), ih]
      simp [hold]
    · rw [if_neg (mt hiff.mp hold), ih]
      simp [hold]

variable {id : UInt64} {m : RecoveryManager} {r : RecoveryRequest} {calls : List Call}

theorem mem_foldl_erase {rs : List RecoveryRequest} {set : Finset UInt64} :
    id ∈ rs.foldl (fun set r => set.erase r.instrumentId) set ↔
      id ∈ set ∧ id ∉ rs.map RecoveryRequest.instrumentId := by
  induction rs generalizing set with
  | nil => simp
  | cons r rest ih =>
    rw [foldl_cons, ih, Finset.mem_erase, map_cons, mem_cons, not_or]
    tauto

/-- The requests that are too old are returned, in their order, and the others stay. -/
theorem checkTimeouts_eq (m : RecoveryManager) (now : Nat) :
    (m.checkTimeouts now).1 = m.pending.filter (Expired m.timeout now ·) ∧
      (m.checkTimeouts now).2.pending = m.pending.filter (¬ Expired m.timeout now ·) ∧
      (m.checkTimeouts now).2.timeout = m.timeout ∧
      ∀ id, id ∈ (m.checkTimeouts now).2.recovering ↔
        id ∈ m.recovering ∧
          id ∉ (m.checkTimeouts now).1.map RecoveryRequest.instrumentId := by
  unfold checkTimeouts
  rw [foldl_sweep]
  exact ⟨nil_append _, nil_append _, rfl, fun id => mem_foldl_erase⟩

/-- A call ends the requests for an instrument. -/
def Ends (m : RecoveryManager) (id : UInt64) : Call → Prop
  | .requestRecovery .. => False
  | .completeRecovery instrumentId => instrumentId = id
  | .checkTimeouts now => ∃ r ∈ (m.checkTimeouts now).1, r.instrumentId = id

/-- A request stays until it is completed or returned. -/
theorem mem_pending_exec (hr : r ∈ m.pending) (call : Call) :
    r ∈ (m.exec call).pending ∨ call = .completeRecovery r.instrumentId ∨
      ∃ now, call = .checkTimeouts now ∧ r ∈ (m.checkTimeouts now).1 := by
  cases call with
  | requestRecovery now id startSeq endSeq =>
    left
    show r ∈ (m.requestRecovery now id startSeq endSeq).pending
    unfold requestRecovery
    split_ifs
    · exact hr
    · exact mem_append_left _ hr
  | completeRecovery id =>
    by_cases hid : r.instrumentId = id
    · exact .inr (.inl (by rw [hid]))
    · exact .inl (mem_filter.mpr ⟨hr, by simpa using hid⟩)
  | checkTimeouts now =>
    obtain ⟨hout, hkept, -⟩ := checkTimeouts_eq m now
    by_cases hold : Expired m.timeout now r
    · refine .inr (.inr ⟨now, rfl, ?_⟩)
      rw [hout]
      exact mem_filter.mpr ⟨hr, by simpa using hold⟩
    · left
      show r ∈ (m.checkTimeouts now).2.pending
      rw [hkept]
      exact mem_filter.mpr ⟨hr, by simpa using hold⟩

theorem timeout_exec (m : RecoveryManager) (call : Call) : (m.exec call).timeout = m.timeout := by
  cases call with
  | requestRecovery now id startSeq endSeq =>
    show (m.requestRecovery now id startSeq endSeq).timeout = _
    unfold requestRecovery
    split_ifs <;> rfl
  | completeRecovery id => rfl
  | checkTimeouts now => exact (checkTimeouts_eq m now).2.2.1

/-! ## The set and the requests -/

/-- The set holds the instruments of the requests, each of which has one request.  The
requests are in the order of the calls. -/
structure Consistent (calls : List Call) (m : RecoveryManager) : Prop where
  mem_recovering_iff : ∀ id, id ∈ m.recovering ↔ ∃ r ∈ m.pending, r.instrumentId = id
  nodup : (m.pending.map RecoveryRequest.instrumentId).Nodup
  sublist : m.pending.Sublist (requests calls)

section Step

variable {calls : List Call} {m : RecoveryManager}

theorem consistent_new (timeout : Nat) : Consistent [] (new timeout) :=
  ⟨by simp [new], nodup_nil, List.Sublist.refl _⟩

/-- Two requests for one instrument are the same request. -/
theorem Consistent.eq_of_instrument (h : Consistent calls m) {r r' : RecoveryRequest}
    (hr : r ∈ m.pending) (hr' : r' ∈ m.pending) (heq : r.instrumentId = r'.instrumentId) :
    r = r' :=
  inj_on_of_nodup_map h.nodup hr hr' heq

/-- Some of the requests go, and with them the instruments that they are for. -/
theorem Consistent.retain (h : Consistent calls m) {m' : RecoveryManager} {call : Call}
    {keep : RecoveryRequest → Bool}
    (hpending : m'.pending = m.pending.filter keep)
    (hrecovering : ∀ id, id ∈ m'.recovering ↔
      id ∈ m.recovering ∧ ∀ r ∈ m.pending, r.instrumentId = id → keep r = true) :
    Consistent (calls ++ [call]) m' := by
  refine ⟨fun id => ?_, ?_, ?_⟩
  · rw [hrecovering, h.mem_recovering_iff, hpending]
    constructor
    · rintro ⟨⟨r, hr, hid⟩, hkeep⟩
      exact ⟨r, mem_filter.mpr ⟨hr, hkeep r hr hid⟩, hid⟩
    · rintro ⟨r, hr, hid⟩
      obtain ⟨hmem, hkeep⟩ := mem_filter.mp hr
      refine ⟨⟨r, hmem, hid⟩, fun r' hr' hid' => ?_⟩
      rw [h.eq_of_instrument hr' hmem (hid'.trans hid.symm)]
      exact hkeep
  · rw [hpending]
    exact h.nodup.sublist (filter_sublist.map _)
  · rw [hpending, requests, filterMap_append]
    exact (filter_sublist.trans h.sublist).trans (sublist_append_left _ _)

theorem Consistent.requestRecovery (h : Consistent calls m) (now : Nat) (id : UInt64)
    (startSeq endSeq : Nat) :
    Consistent (calls ++ [.requestRecovery now id startSeq endSeq])
      (m.requestRecovery now id startSeq endSeq) := by
  have hrequests : requests (calls ++ [.requestRecovery now id startSeq endSeq]) =
      requests calls ++ [⟨id, startSeq, endSeq, now⟩] := by
    rw [requests, filterMap_append]
    rfl
  unfold RecoveryManager.requestRecovery
  split_ifs with hold
  · refine ⟨h.mem_recovering_iff, h.nodup, ?_⟩
    rw [hrequests]
    exact h.sublist.trans (sublist_append_left _ _)
  · refine ⟨fun id' => ?_, ?_, ?_⟩
    · rw [Finset.mem_insert, h.mem_recovering_iff]
      simp only [mem_append, mem_singleton, or_and_right, exists_or, exists_eq_left]
      rw [or_comm, eq_comm]
    · rw [map_append, map_singleton, ← concat_eq_append, nodup_concat]
      refine ⟨fun hmem => ?_, h.nodup⟩
      obtain ⟨r, hr, hid⟩ := mem_map.mp hmem
      exact hold ((h.mem_recovering_iff id).mpr ⟨r, hr, hid⟩)
    · rw [hrequests]
      exact h.sublist.append_right _

theorem consistent_exec (h : Consistent calls m) (call : Call) :
    Consistent (calls ++ [call]) (m.exec call) := by
  cases call with
  | requestRecovery now id startSeq endSeq => exact h.requestRecovery now id startSeq endSeq
  | completeRecovery id =>
    refine h.retain rfl fun id' => ?_
    show id' ∈ m.recovering.erase id ↔ _
    rw [Finset.mem_erase, and_comm]
    refine and_congr_right fun hmem => ?_
    obtain ⟨r, hr, hid⟩ := (h.mem_recovering_iff id').mp hmem
    constructor
    · intro hne r' _ hid'
      simpa [hid'] using hne
    · intro hall
      simpa [hid] using hall r hr hid
  | checkTimeouts now =>
    obtain ⟨hout, hkept, -, hrecovering⟩ := checkTimeouts_eq m now
    refine h.retain hkept fun id => ?_
    rw [show m.exec (.checkTimeouts now) = (m.checkTimeouts now).2 from rfl, hrecovering, hout]
    refine and_congr_right fun _ => ?_
    simp only [mem_map, mem_filter, decide_eq_true_eq, not_exists, not_and]
    constructor
    · intro hall r hr hid hold
      exact hall r ⟨hr, hold⟩ hid
    · intro hall r hr hid
      exact hall r hr.1 hid hr.2

end Step

theorem run_concat (m : RecoveryManager) (calls : List Call) (call : Call) :
    m.run (calls ++ [call]) = (m.run calls).exec call := by
  rw [run, foldl_append]
  rfl

theorem consistent_run (timeout : Nat) (calls : List Call) :
    Consistent calls ((new timeout).run calls) := by
  induction calls using reverseRecOn with
  | nil => exact consistent_new timeout
  | append_singleton calls call ih =>
    rw [run_concat]
    exact consistent_exec ih call

theorem timeout_run (timeout : Nat) (calls : List Call) :
    ((new timeout).run calls).timeout = timeout := by
  induction calls using reverseRecOn with
  | nil => rfl
  | append_singleton calls call ih => rw [run_concat, timeout_exec, ih]

/-- After any calls, the set has the instruments of the requests, no two requests are for the
same instrument, and the requests are in the order in which they were made.  `check_timeouts`
returns those that are older than the timeout, in that order, and removes them and their
instruments.  No other call than this one and `complete_recovery` removes a request. -/
theorem recovery_consistent (timeout : Nat) (calls : List Call) :
    let m := (new timeout).run calls
    (∀ id, id ∈ m.recovering ↔ ∃ r ∈ m.pending, r.instrumentId = id) ∧
      (m.pending.map RecoveryRequest.instrumentId).Nodup ∧
      m.pending.Sublist (requests calls) ∧
      (∀ now, (m.checkTimeouts now).1 = m.pending.filter (Expired timeout now ·) ∧
        (m.checkTimeouts now).2.pending = m.pending.filter (¬ Expired timeout now ·) ∧
        ∀ id, id ∈ (m.checkTimeouts now).2.recovering ↔
          id ∈ m.recovering ∧
            id ∉ (m.checkTimeouts now).1.map RecoveryRequest.instrumentId) ∧
      ∀ call, ∀ r ∈ m.pending, r ∉ (m.exec call).pending →
        call = .completeRecovery r.instrumentId ∨
          ∃ now, call = .checkTimeouts now ∧ r ∈ (m.checkTimeouts now).1 := by
  intro m
  have h : Consistent calls m := consistent_run timeout calls
  have htimeout : m.timeout = timeout := timeout_run timeout calls
  refine ⟨h.mem_recovering_iff, h.nodup, h.sublist, fun now => ?_, fun call r hr hgone => ?_⟩
  · obtain ⟨hout, hkept, -, hrecovering⟩ := checkTimeouts_eq m now
    rw [htimeout] at hout hkept
    exact ⟨hout, hkept, hrecovering⟩
  · exact (mem_pending_exec hr call).resolve_left hgone

/-! ## What has been asked for -/

/-- Every number of a gap is in a request for the instrument. -/
def Covered (m : RecoveryManager) (id : UInt64) (startSeq endSeq : Nat) : Prop :=
  ∀ n, startSeq ≤ n → n ≤ endSeq →
    ∃ r ∈ m.pending, r.instrumentId = id ∧ r.startSeq ≤ n ∧ n ≤ r.endSeq

/-- None of the calls ends a request for the instrument. -/
def Undisturbed (id : UInt64) : RecoveryManager → List Call → Prop
  | _, [] => True
  | m, call :: calls => ¬ Ends m id call ∧ Undisturbed id (m.exec call) calls

/-- From every request for numbers of an instrument on, and as long as no request for it ends,
these numbers are in a pending request for it. -/
def GapsRemembered (timeout : Nat) (calls : List Call) : Prop :=
  ∀ before now id startSeq endSeq during after,
    calls = before ++ .requestRecovery now id startSeq endSeq :: (during ++ after) →
    startSeq ≤ endSeq →
    let m := ((new timeout).run before).requestRecovery now id startSeq endSeq
    Undisturbed id m during → Covered (m.run during) id startSeq endSeq

/-- Every request for an instrument that has a pending request asks for numbers that this one
asks for as well. -/
def RequestsNested (timeout : Nat) (calls : List Call) : Prop :=
  ∀ before now id startSeq endSeq after,
    calls = before ++ .requestRecovery now id startSeq endSeq :: after → startSeq ≤ endSeq →
    ∀ r ∈ ((new timeout).run before).pending, r.instrumentId = id →
      r.startSeq ≤ startSeq ∧ endSeq ≤ r.endSeq

theorem mem_pending_of_undisturbed (hr : r ∈ m.pending) (hid : r.instrumentId = id)
    (h : Undisturbed id m calls) : r ∈ (m.run calls).pending := by
  induction calls generalizing m with
  | nil => exact hr
  | cons call rest ih =>
    obtain ⟨hcall, hrest⟩ := h
    refine ih ?_ hrest
    rcases mem_pending_exec hr call with hkept | rfl | ⟨now, rfl, hout⟩
    · exact hkept
    · exact absurd hid hcall
    · exact absurd ⟨r, hout, hid⟩ hcall

/-- A request right after it was made. -/
theorem exists_covering (h : Consistent calls m) {startSeq endSeq : Nat} (now : Nat)
    (hnested : ∀ r ∈ m.pending, r.instrumentId = id → r.startSeq ≤ startSeq ∧ endSeq ≤ r.endSeq) :
    ∃ r ∈ (m.requestRecovery now id startSeq endSeq).pending,
      r.instrumentId = id ∧ r.startSeq ≤ startSeq ∧ endSeq ≤ r.endSeq := by
  unfold requestRecovery
  split_ifs with hold
  · obtain ⟨r, hr, hid⟩ := (h.mem_recovering_iff id).mp hold
    exact ⟨r, hr, hid, hnested r hr hid⟩
  · exact ⟨⟨id, startSeq, endSeq, now⟩, mem_append_right _ mem_cons_self, rfl,
      Nat.le_refl _, Nat.le_refl _⟩

/-- An instrument that has a request gets no second one. -/
theorem requestRecovery_eq_self (h : Consistent calls m) (hr : r ∈ m.pending)
    (now startSeq endSeq : Nat) :
    m.requestRecovery now r.instrumentId startSeq endSeq = m := by
  have hmem : r.instrumentId ∈ m.recovering := (h.mem_recovering_iff _).mpr ⟨r, hr, rfl⟩
  rw [requestRecovery, if_pos hmem]

/-- No number that was asked for is forgotten if and only if no request goes beyond the pending
request for its instrument. -/
theorem gapsRemembered_iff (timeout : Nat) (calls : List Call) :
    GapsRemembered timeout calls ↔ RequestsNested timeout calls := by
  constructor
  · intro h before now id startSeq endSeq after hsplit hle r hr hid
    have hcons := consistent_run timeout before
    have hcovered := h before now id startSeq endSeq [] after hsplit hle trivial
    subst hid
    rw [requestRecovery_eq_self hcons hr] at hcovered
    -- the request for both ends of the gap is `r`
    have hbound : ∀ n, startSeq ≤ n → n ≤ endSeq → r.startSeq ≤ n ∧ n ≤ r.endSeq := by
      intro n hstart hend
      obtain ⟨r', hr', hid', hn⟩ := hcovered n hstart hend
      rw [hcons.eq_of_instrument hr hr' hid'.symm]
      exact hn
    exact ⟨(hbound startSeq (Nat.le_refl _) hle).1, (hbound endSeq hle (Nat.le_refl _)).2⟩
  · intro h before now id startSeq endSeq during after hsplit hle m hduring n hstart hend
    obtain ⟨r, hr, hid, hfirst, hlast⟩ := exists_covering (consistent_run timeout before) now
      (h before now id startSeq endSeq (during ++ after) hsplit hle)
    exact ⟨r, mem_pending_of_undisturbed hr hid hduring, hid, by omega, by omega⟩

/-- The second gap of an instrument is not asked for. -/
theorem second_gap_forgotten :
    ¬ GapsRemembered 5 [.requestRecovery 0 1 10 20, .requestRecovery 1 1 30 40] := by
  intro h
  obtain ⟨r, hr, -, hstart, hend⟩ := h [.requestRecovery 0 1 10 20] 1 1 30 40 [] [] rfl (by decide)
    trivial 30 (by decide) (by decide)
  have hfirst : r = ⟨1, 10, 20, 0⟩ := mem_singleton.mp hr
  rw [hfirst] at hend
  exact absurd hend (by decide)

end RecoveryManager

end IronSbe.MarketData
