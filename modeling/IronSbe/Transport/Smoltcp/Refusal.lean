import IronSbe.Transport.Smoltcp.Round

/-!
# What a smoltcp session delivers behind a refused length

`SmoltcpStackInner::poll` marks the session closed when it meets a length above
`max_frame_size`, and clears the decode buffer.  The next round reads the socket of a
closed session as before, and takes the bytes it finds for the start of a frame.

* `Traffic.inv_step`: in every run a session delivers what `Lib.Framing.resume` delivers,
  whatever the application does with its connections.
* `Traffic.delivered_iff_frameless`: the frames of a session are those in front of the refused
  length exactly if the later rounds do not bring a complete frame.
-/

namespace IronSbe.Transport.Smoltcp

open Lib.Bytes Lib.Framing Lib.Transition

/-- The stack with what its sessions have received and delivered. -/
structure Traffic where
  world : World
  /-- What the rounds have taken from the socket of each session, the oldest first. -/
  arrived : Nat → List (List UInt8) := fun _ => []
  /-- The frames that `recv` has returned for each session, the oldest first. -/
  returned : Nat → List (List UInt8) := fun _ => []

namespace Traffic

/-- What the round takes from the sockets of the sessions. -/
def arrive (arrived : Nat → List (List UInt8)) (stack : SmoltcpStackInner) :
    Option (Nat → SocketEvent) → Nat → List (List UInt8)
  | none, i => arrived i
  | some network, i =>
    match stack.sessions[i]? with
    | none => arrived i
    | some session => arrived i ++ [(network session.handle).received]

/-- The frames that have been returned to the application, with the one that this call
returns. -/
def handOver (returned : Nat → List (List UInt8)) (stack : SmoltcpStackInner) :
    Action → Nat → List (List UInt8)
  | .pollRecv sessionIdx, i =>
    if i = sessionIdx then returned i ++ ((Action.pollRecv sessionIdx).frame? stack).toList
    else returned i
  | _, i => returned i

/-- A step, with the bytes that arrive and the frames that are handed over. -/
def step (t : Traffic) (a : Action) : Option Traffic :=
  (Smoltcp.step t.world a).map fun world =>
    { world := world
      arrived := arrive t.arrived world.stack a.network?
      returned := handOver t.returned t.world.stack a }

/-- All frames that have been put into the queue of a session, the oldest first. -/
def queued (t : Traffic) (i : Nat) (session : SessionState) : List (List UInt8) :=
  t.returned i ++ session.rxQueue

/-- The sessions have delivered what a receiver delivers that starts again behind a refused
length. -/
structure Inv (config : SmoltcpStackConfig) (t : Traffic) : Prop where
  config_eq : t.world.stack.config = config
  shape : t.world.stack.Shape
  queued_eq : ∀ (i : Nat) session, t.world.stack.sessions[i]? = some session →
    t.queued i session = (resume config.maxFrameSize [] (t.arrived i)).1
  buffer_eq : ∀ (i : Nat) buf, t.world.stack.decodeBuffers[i]? = some buf →
    buf = (resume config.maxFrameSize [] (t.arrived i)).2
  unused : ∀ i, t.world.stack.sessions.length ≤ i → t.arrived i = [] ∧ t.returned i = []

variable {config : SmoltcpStackConfig} {t : Traffic} {network : Nat → SocketEvent} {i : Nat}
  {session : SessionState} {w : World} {a : Action}

/-- The sessions of a round, with what they have delivered before it. -/
theorem Inv.takesPart (hinv : Inv config t) {buf : List UInt8}
    (h : t.world.stack.TakesPart network i session buf) :
    t.queued i session = (resume config.maxFrameSize [] (t.arrived i)).1 ∧
      buf = (resume config.maxFrameSize [] (t.arrived i)).2 := by
  rcases h with ⟨hs, hb⟩ | ⟨hnew, hs, rfl, -, -⟩
  · exact ⟨hinv.queued_eq i session hs, hinv.buffer_eq i buf hb⟩
  · obtain ⟨harrived, hreturned⟩ := hinv.unused i hnew
    rw [queued, harrived, hreturned, hs]
    exact ⟨rfl, rfl⟩

theorem Inv.round (hinv : Inv config t) (h : t.world.stack.Polled network w.stack) :
    Inv config
      { world := w
        arrived := arrive t.arrived w.stack (some network)
        returned := t.returned } := by
  have hlen : t.world.stack.sessions.length ≤ w.stack.sessions.length := by
    simpa using h.handles.length_le
  have hround : ∀ (i : Nat) session', w.stack.sessions[i]? = some session' →
      (t.returned i ++ session'.rxQueue, w.stack.decodeBuffers.getD i []) =
        resume config.maxFrameSize [] (t.arrived i ++ [(network session'.handle).received]) := by
    intro i session' hi
    obtain ⟨session, buf, htakes, hsession⟩ := h.sessions i session' hi
    obtain ⟨hqueued, hbuffer⟩ := hinv.takesPart htakes
    rw [resume_concat, ← hqueued, ← hbuffer, hsession.rxQueue, hsession.buffer, hsession.handle,
      hinv.config_eq, queued, List.append_assoc]
  refine ⟨h.config.trans hinv.config_eq, h.shape, ?_, ?_, ?_⟩
  · intro i session' hi
    have hi : w.stack.sessions[i]? = some session' := hi
    simp only [queued, arrive, hi, ← hround i session' hi]
  · intro i buf hb
    have hb : w.stack.decodeBuffers[i]? = some buf := hb
    have hlt := (List.getElem?_eq_some_iff.mp hb).1
    rw [h.shape.buffers] at hlt
    have hi := List.getElem?_eq_getElem hlt
    simp only [arrive, hi, ← hround i _ hi]
    rw [List.getD_eq_getElem?_getD, hb]
    rfl
  · intro i hi
    have hi : w.stack.sessions.length ≤ i := hi
    simp only [arrive, List.getElem?_eq_none hi]
    exact hinv.unused i (hlen.trans hi)

/-- A call returns frames of its own session only. -/
theorem handOver_of_called {session' : SessionState} (h : Called i session a session')
    (returned : Nat → List (List UInt8)) (stack : SmoltcpStackInner) (j : Nat) :
    handOver returned stack a j =
      if j = i then returned j ++ (a.frame? stack).toList else returned j := by
  cases h with
  | send _ | drop => simp [handOver, Action.frame?]
  | recv _ | park _ _ => rfl

theorem Inv.call (hinv : Inv config t) (hnetwork : a.network? = none)
    (hstep : Smoltcp.step t.world a = some w) :
    Inv config
      { world := w, arrived := t.arrived, returned := handOver t.returned t.world.stack a } := by
  rcases step_call hnetwork hstep with ⟨hstack, hframe⟩ |
    ⟨i, session, session', hi, hcalled, hstack⟩
  · have hreturned : handOver t.returned t.world.stack a = t.returned := by
      funext j
      cases a with
      | pollRecv sessionIdx => simp [handOver, hframe]
      | _ => rfl
    rw [hreturned]
    constructor
    all_goals simp only [hstack, queued]
    exacts [hinv.config_eq, hinv.shape, hinv.queued_eq, hinv.buffer_eq, hinv.unused]
  · refine ⟨?_, ?_, ?_, ?_, ?_⟩
    all_goals simp only [hstack]
    · exact hinv.config_eq
    · exact hinv.shape.congr rfl (SmoltcpStackInner.map_handle_set hi hcalled.handle) rfl rfl
    · intro j s hj
      simp only [queued, handOver_of_called hcalled]
      by_cases hji : j = i
      · subst hji
        rw [List.getElem?_set_self (List.getElem?_eq_some_iff.mp hi).1] at hj
        cases hj
        rw [if_pos rfl, List.append_assoc, hcalled.rxQueue hi]
        exact hinv.queued_eq j session hi
      · rw [List.getElem?_set_ne (Ne.symm hji)] at hj
        rw [if_neg hji]
        exact hinv.queued_eq j s hj
    · exact hinv.buffer_eq
    · intro j hj
      rw [List.length_set] at hj
      have hlt := (List.getElem?_eq_some_iff.mp hi).1
      rw [handOver_of_called hcalled, if_neg (by omega)]
      exact hinv.unused j hj

theorem inv_step (hport : config.localPort ≠ 0) {t' : Traffic} (hinv : Inv config t)
    (hstep : step t a = some t') : Inv config t' := by
  obtain ⟨w, hw, rfl⟩ := Option.map_eq_some_iff.mp hstep
  cases hnetwork : a.network? with
  | some network =>
    have hpolled := polled_step hinv.shape (hinv.config_eq ▸ hport) hnetwork hw
    have hreturned : handOver t.returned t.world.stack a = t.returned := by
      cases a with
      | onRx _ | pollTimers _ => rfl
      | _ => cases hnetwork
    rw [hreturned]
    exact hinv.round hpolled
  | none => exact hinv.call hnetwork hw

/-- A new stack has no session. -/
theorem inv_new {stack : SmoltcpStackInner} (h : SmoltcpStackInner.new config = .ok stack) :
    Inv config { world := { stack := stack } } ∧ config.localPort ≠ 0 := by
  have hinv := SmoltcpStackInner.inv_new h
  rw [SmoltcpStackInner.new, SmoltcpStackInner.addListener] at h
  split_ifs at h with hport
  cases h
  exact ⟨⟨rfl, hinv.shape, by simp [SmoltcpStackInner.empty], by simp [SmoltcpStackInner.empty],
    fun _ _ => ⟨rfl, rfl⟩⟩, hport⟩

/-- In every run, and for every way in which the rounds cut the bytes of a session: the frames
that have been put into its queue are those in front of the first refused length, and none of
the bytes behind it, exactly if the rounds behind the one that has met that length never
complete a frame. -/
theorem delivered_iff_frameless {config : SmoltcpStackConfig} {stack : SmoltcpStackInner}
    {t : Traffic} (hnew : SmoltcpStackInner.new config = .ok stack)
    (h : Reach step Anything { world := { stack := stack } } t) (i : Nat) (session : SessionState)
    (hi : t.world.stack.sessions[i]? = some session) :
    t.queued i session = (parse config.maxFrameSize (t.arrived i).flatten).1 ↔
      Frameless config.maxFrameSize [] (behindRefusal config.maxFrameSize [] (t.arrived i)) := by
  obtain ⟨hstart, hport⟩ := inv_new hnew
  have hinv : Inv config t :=
    h.invariant (Inv config) hstart fun _ _ _ hs _ hstep => inv_step hport hs hstep
  rw [hinv.queued_eq i session hi]
  exact resume_eq_parse_iff (t.arrived i)

/-- What the interface reports for an established socket that has received some bytes. -/
def bringing (bytes : List UInt8) (_ : Nat) : SocketEvent := ⟨true, bytes, true, 64⟩

/-- A frame, a refused length, and one byte more: only the frame has been delivered. -/
theorem delivered_iff_frameless_one :
    ∃ t session, SmoltcpStackInner.new ⟨9000, 64, 4, 4⟩ = .ok (listening ⟨9000, 64, 4, 4⟩) ∧
      Reach step Anything { world := { stack := listening ⟨9000, 64, 4, 4⟩ } } t ∧
      t.world.stack.sessions[0]? = some session ∧
      t.arrived 0 = [[1, 0, 0, 0, 7], [255, 255, 255, 255], [9]] ∧
      t.queued 0 session = (parse 4 (t.arrived 0).flatten).1 := by
  have hnew : SmoltcpStackInner.new ⟨9000, 64, 4, 4⟩ = .ok (listening ⟨9000, 64, 4, 4⟩) := rfl
  have hreach : Reach step Anything { world := { stack := listening ⟨9000, 64, 4, 4⟩ } } _ :=
    reach_of_run [.onRx (bringing [1, 0, 0, 0, 7]), .pollTimers (bringing [255, 255, 255, 255]),
      .pollTimers (bringing [9])] rfl
  refine ⟨_, _, hnew, hreach, rfl, rfl, (delivered_iff_frameless hnew hreach 0 _ rfl).mpr ?_⟩
  have hframe : parse 4 [1, 0, 0, 0, 7] = ([[7]], []) := by
    rw [parse_of_complete (show head 4 [1, 0, 0, 0, 7] = .complete [7] [] by decide),
      parse_of_not_complete (by simp [head])]
  have hrefused : Refused 4 [255, 255, 255, 255] := by decide
  have hbehind : behindRefusal 4 [] [[1, 0, 0, 0, 7], [255, 255, 255, 255], [9]] = [[9]] := by
    rw [behindRefusal, List.nil_append, hframe, if_neg (by decide), behindRefusal, List.nil_append,
      parse_of_refused hrefused, if_pos hrefused]
  show Frameless 4 [] (behindRefusal 4 [] [[1, 0, 0, 0, 7], [255, 255, 255, 255], [9]])
  rw [hbehind]
  exact trivial

/-- The stream starts with a refused length, and the next round brings a frame: the session is
closed, and the frame is delivered. -/
theorem delivered_behind_refusal :
    ∃ t session, SmoltcpStackInner.new ⟨9000, 64, 4, 4⟩ = .ok (listening ⟨9000, 64, 4, 4⟩) ∧
      Reach step Anything { world := { stack := listening ⟨9000, 64, 4, 4⟩ } } t ∧
      t.world.stack.sessions[0]? = some session ∧ session.closed = true ∧
      Refused 4 (t.arrived 0).flatten ∧ (t.world.stack.pollRecv 0).1 = some (.ok (some [7])) ∧
      ¬ t.queued 0 session = (parse 4 (t.arrived 0).flatten).1 := by
  have hreach : Reach step Anything { world := { stack := listening ⟨9000, 64, 4, 4⟩ } } _ :=
    reach_of_run [.onRx (bringing [255, 255, 255, 255]), .pollTimers (bringing [1, 0, 0, 0, 7])] rfl
  have hrefused : Refused 4 [255, 255, 255, 255, 1, 0, 0, 0, 7] := by decide
  refine ⟨_, _, rfl, hreach, rfl, rfl, hrefused, rfl, ?_⟩
  show ¬ [[7]] = (parse 4 [255, 255, 255, 255, 1, 0, 0, 0, 7]).1
  rw [parse_of_refused hrefused]
  exact nofun

end Traffic

end IronSbe.Transport.Smoltcp
