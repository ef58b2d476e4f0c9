import IronSbe.Transport.Smoltcp

/-!
# What a round of the smoltcp stack does

`Inv` in `IronSbe.Transport.Smoltcp` follows the outgoing bytes, and only through rounds
that cut no frame.  This file says what any round does, and what any other call does:

* `promoted_promote`: which listening sockets become sessions, and that a slot that is
  free keeps a listener.
* `sessionRound_pollSession`: what a round does to the receiving side of a session, in terms
  of the frames at the front of its bytes.
* `polled_poll`: every session has its round with its own socket and its own buffer, and
  the new sessions come behind the old ones.
* `polled_step`, `step_call`: a call is a round, or it changes one session at most.
-/

namespace IronSbe.Transport.Smoltcp

open Lib.Bytes Lib.Framing Lib.Transition SmoltcpStackInner Option

/-! ## One session -/

/-- The loop body forgets the buffer at a length above the limit. -/
theorem decodeStep_forgets {maxFrameSize : Nat} {buf : List UInt8} (h : Refused maxFrameSize buf) :
    (decodeStep maxFrameSize buf).2 = [] := by
  obtain ⟨length, hhead⟩ := h
  unfold head at hhead
  split_ifs at hhead with hshort hlimit
  rw [decodeStep, if_neg hshort, if_pos hlimit]

/-- Nobody waits on a session that is marked closed. -/
def SessionState.Unparked (session : SessionState) : Prop :=
  session.closed = true → session.rxWaker = false

variable {session session' : SessionState} {w w' : World} {a : Action} {i : Nat}

/-- What a round does to the receiving side of a session, when the interface leaves `e` in its
socket. -/
structure SessionRound (maxFrameSize : Nat) (e : SocketEvent) (session : SessionState)
    (buf : List UInt8) (session' : SessionState) (buf' : List UInt8) : Prop where
  handle : session'.handle = session.handle
  rxQueue : session'.rxQueue = session.rxQueue ++ (parse maxFrameSize (buf ++ e.received)).1
  closed : session'.closed = (session.closed || !e.active ||
    decide (Refused maxFrameSize (parse maxFrameSize (buf ++ e.received)).2))
  buffer : buf' = kept maxFrameSize (parse maxFrameSize (buf ++ e.received)).2
  unparked : session.Unparked → session'.Unparked

theorem sessionRound_pollSession (maxFrameSize : Nat) (sock : Socket) (e : SocketEvent)
    (session : SessionState) (buf : List UInt8) :
    let round := pollSession maxFrameSize (sock.update e) session buf
    SessionRound maxFrameSize e session buf round.2.1 round.2.2 := by
  have himplements := implements_decodeStep maxFrameSize
  obtain ⟨r, hdrain, hqueue, hclosed, hbuffer⟩ :=
    pollSession_received maxFrameSize (sock.update e) session buf
  obtain ⟨r', hdrain', hframes, hends⟩ :=
    himplements.drainWith_eq (Nat.lt_succ_self (buf ++ (sock.update e).received).length)
  obtain rfl : r' = r := some.inj (hdrain'.symm.trans hdrain)
  have houtcome : (!r'.outcome.isOk) =
      decide (Refused maxFrameSize (parse maxFrameSize (buf ++ e.received)).2) := by
    rcases hends with ⟨hrefused, e', he⟩ | ⟨hrefused, hok, -⟩
    · rw [he]
      exact (decide_eq_true hrefused).symm
    · rw [hok]
      exact (decide_eq_false hrefused).symm
  refine ⟨pollSession_handle _ _ _ _, ?_, ?_, ?_, fun h => ?_⟩
  · rw [hqueue, hframes]
    rfl
  · rw [hclosed, houtcome]
    rfl
  · rw [hbuffer]
    exact himplements.buffer_drainWith (fun _ => decodeStep_forgets) hdrain
  · obtain ⟨r, -, hr⟩ := receive_eq maxFrameSize (sock.update e) session buf
    rw [pollSession, hr]
    unfold SessionState.Unparked at h ⊢
    grind [noticeClose_eq, deliver_eq]

namespace SmoltcpStackInner

open List

variable {inner inner' inner'' : SmoltcpStackInner} {n : Nat}

/-! ## New sessions -/

/-- The limit on sessions is kept, and a listener waits while there is a slot. -/
structure Slots (inner : SmoltcpStackInner) : Prop where
  bound : inner.sessions.length + inner.listening.length ≤ inner.config.maxSessions
  listener : inner.sessions.length < inner.config.maxSessions → inner.listening ≠ []

/-- What turning the listening sockets at `places` into sessions does.  The sockets with
handles below `n` were there before. -/
structure Promoted (n : Nat) (places : List (Nat × Nat)) (inner inner' : SmoltcpStackInner) :
    Prop where
  config : inner'.config = inner.config
  shape : inner.Shape → inner'.Shape
  slots : inner.Slots → inner'.Slots
  nextHandle : inner.nextHandle ≤ inner'.nextHandle
  sockets : ∀ h, h < n → inner'.sockets h = inner.sockets h
  sessions : inner'.sessions = inner.sessions ++ places.map fun p => { handle := p.2 }
  buffers : inner'.decodeBuffers = inner.decodeBuffers ++ places.map fun _ => []
  listening : inner.Shape → ∀ h ∈ inner'.listening,
    (h ∈ inner.listening ∧ h ∉ places.map Prod.snd) ∨ n ≤ h

theorem Promoted.refl (n : Nat) (inner : SmoltcpStackInner) : Promoted n [] inner inner where
  config := rfl
  shape := id
  slots := id
  nextHandle := Nat.le_refl _
  sockets _ _ := rfl
  sessions := (append_nil _).symm
  buffers := (append_nil _).symm
  listening _ _ hmem := .inl ⟨hmem, not_mem_nil⟩

variable {places : List (Nat × Nat)} {i idx : Nat} {network : Nat → SocketEvent}
  {session : SessionState} {buf : List UInt8}

theorem Promoted.trans {places' : List (Nat × Nat)} (h : Promoted n places inner inner')
    (h' : Promoted n places' inner' inner'') : Promoted n (places ++ places') inner inner'' where
  config := h'.config.trans h.config
  shape := h'.shape ∘ h.shape
  slots := h'.slots ∘ h.slots
  nextHandle := h.nextHandle.trans h'.nextHandle
  sockets k hk := (h'.sockets k hk).trans (h.sockets k hk)
  sessions := by rw [h'.sessions, h.sessions, append_assoc, map_append]
  buffers := by rw [h'.buffers, h.buffers, append_assoc, map_append]
  listening hshape k hk := by
    rw [map_append, mem_append]
    rcases h'.listening (h.shape hshape) k hk with ⟨hk, hnot'⟩ | hn
    · rcases h.listening hshape k hk with ⟨hk, hnot⟩ | hn
      · exact .inl ⟨hk, not_or.mpr ⟨hnot, hnot'⟩⟩
      · exact .inr hn
    · exact .inr hn

/-- A socket that is taken off the list is not on it any more. -/
theorem Shape.of_mem_eraseIdx (h : inner.Shape) {handle k : Nat}
    (hidx : inner.listening[idx]? = some handle) (hk : k ∈ inner.listening.eraseIdx idx) :
    k ∈ inner.listening ∧ k ∉ [(idx, handle)].map Prod.snd := by
  obtain ⟨hlt, hget⟩ := List.getElem?_eq_some_iff.mp hidx
  have hperm := getElem_cons_eraseIdx_perm hlt
  rw [hget] at hperm
  have hnot := (nodup_cons.mp (hperm.nodup_iff.mpr (nodup_append.mp h.nodup).1)).1
  refine ⟨mem_of_mem_eraseIdx hk, fun hmem => ?_⟩
  obtain rfl : k = handle := List.mem_singleton.mp hmem
  exact hnot hk

section

variable {handle : Nat} (hidx : inner.listening[idx]? = some handle)
include hidx

/-- The number of listeners goes down by one. -/
theorem length_eraseIdx_listening :
    (inner.listening.eraseIdx idx).length + 1 = inner.listening.length := by
  have hlt := (List.getElem?_eq_some_iff.mp hidx).1
  rw [length_eraseIdx_of_lt hlt]
  omega

/-- The limit is reached, and the socket is not replaced. -/
theorem promoted_openSession
    (hfull : ¬ (inner.openSession idx handle).sessions.length +
      (inner.openSession idx handle).listening.length < inner.config.maxSessions) :
    Promoted n [(idx, handle)] inner (inner.openSession idx handle) where
  config := rfl
  shape h := h.openSession hidx
  slots h := by
    have hbound := h.bound
    have hlen := length_eraseIdx_listening hidx
    simp only [openSession, length_append, length_singleton] at hfull
    constructor
    · simp only [openSession, length_append, length_singleton]
      omega
    · -- the slots that are left have their listeners
      intro hslot hnil
      simp only [openSession, length_append, length_singleton]
        at hslot hnil
      rw [hnil] at hfull
      exact hfull hslot
  nextHandle := Nat.le_refl _
  sockets _ _ := rfl
  sessions := rfl
  buffers := rfl
  listening h _ hk := .inl (h.of_mem_eraseIdx hidx hk)

/-- The socket is replaced by a new listener. -/
theorem promoted_rearm (hn : n ≤ inner.nextHandle) {sockets : Nat → Socket}
    (hold : ∀ h, h ≠ inner.nextHandle → sockets h = inner.sockets h)
    (hslot : (inner.openSession idx handle).sessions.length +
      (inner.openSession idx handle).listening.length < inner.config.maxSessions) :
    Promoted n [(idx, handle)] inner
      { inner.openSession idx handle with
        sockets := sockets, nextHandle := inner.nextHandle + 1
        listening := (inner.openSession idx handle).listening ++ [inner.nextHandle] } where
  config := rfl
  shape h := (h.openSession hidx).addListener sockets
  slots _ := by
    constructor
    · rw [length_append, length_singleton, ← Nat.add_assoc]
      exact hslot
    · exact fun _ => append_ne_nil_of_right_ne_nil _ (cons_ne_nil _ _)
  nextHandle := Nat.le_succ _
  sockets h hh := hold h (Nat.lt_of_lt_of_le hh hn).ne
  sessions := rfl
  buffers := rfl
  listening h k hk := by
    rcases mem_append.mp hk with hk | hk
    · exact .inl (h.of_mem_eraseIdx hidx hk)
    · rw [mem_singleton.mp hk]
      exact .inr hn

end

/-- A stack that could listen once can listen again, so all the sockets become sessions. -/
theorem promoted_promote (hport : inner.config.localPort ≠ 0) (hn : n ≤ inner.nextHandle)
    (hplaces : inner.Places places) :
    (promote places inner).1 = .ok () ∧ Promoted n places inner (promote places inner).2 := by
  induction places generalizing inner with
  | nil => exact ⟨rfl, .refl n inner⟩
  | cons place places ih =>
    obtain ⟨idx, handle⟩ := place
    have hidx : inner.listening[idx]? = some handle := hplaces.2 _ mem_cons_self
    rw [promote]
    split_ifs with hslot
    · rcases (inner.openSession idx handle).addListener_cases with
        ⟨e, hadd⟩ | ⟨sockets, -, hold, hadd⟩
      · have hopened : (inner.openSession idx handle).config.localPort ≠ 0 := hport
        rw [addListener, if_neg hopened] at hadd
        cases congrArg Prod.fst hadd
      · rw [hadd]
        have hfirst := promoted_rearm hidx hn hold hslot
        have hnext : Places { inner.openSession idx handle with
            sockets := sockets, nextHandle := inner.nextHandle + 1
            listening := (inner.openSession idx handle).listening ++ [inner.nextHandle] } places :=
          hplaces.tail _ rfl
        obtain ⟨hok, hrest⟩ := ih (by exact hport) (by exact Nat.le_succ_of_le hn) hnext
        exact ⟨hok, hfirst.trans hrest⟩
    · have hfirst : Promoted n _ inner _ := promoted_openSession hidx hslot
      have hnext : (inner.openSession idx handle).Places places :=
        hplaces.tail [] (by simp [openSession])
      obtain ⟨hok, hrest⟩ := ih (by exact hport) (by exact hn) hnext
      exact ⟨hok, hfirst.trans hrest⟩

/-! ## Rounds -/

/-- The session that takes part as number `i` in the next round, with its buffer: one that is
there, or one whose socket has got a peer. -/
def TakesPart (inner : SmoltcpStackInner) (network : Nat → SocketEvent) (i : Nat)
    (session : SessionState) (buf : List UInt8) : Prop :=
  (inner.sessions[i]? = some session ∧ inner.decodeBuffers[i]? = some buf) ∨
    (inner.sessions.length ≤ i ∧ session = { handle := session.handle } ∧ buf = [] ∧
      session.handle ∈ inner.listening ∧ (network session.handle).active = true)

/-- What a round of the stack does: the listening sockets with a peer become sessions, and
every session has its round with its own socket. -/
structure Polled (inner : SmoltcpStackInner) (network : Nat → SocketEvent)
    (inner' : SmoltcpStackInner) : Prop where
  config : inner'.config = inner.config
  shape : inner'.Shape
  slots : inner.Slots → inner'.Slots
  nextHandle : inner.nextHandle ≤ inner'.nextHandle
  handles : inner.sessions.map (·.handle) <+: inner'.sessions.map (·.handle)
  count : inner'.sessions.length =
    inner.sessions.length + inner.listening.countP fun h => (network h).active
  sessions : ∀ (i : Nat) session', inner'.sessions[i]? = some session' →
    ∃ session buf, inner.TakesPart network i session buf ∧
      SessionRound inner.config.maxFrameSize (network session.handle) session buf session'
        (inner'.decodeBuffers.getD i [])
  listening : ∀ h ∈ inner'.listening,
    (h ∈ inner.listening ∧ (network h).active = false) ∨ inner.nextHandle ≤ h

/-- Exactly the active sockets are promoted. -/
theorem mem_toPromote {h : Nat} :
    h ∈ inner.toPromote.reverse.map Prod.snd ↔
      h ∈ inner.listening ∧ (inner.sockets h).active = true := by
  simp only [toPromote, List.map_reverse, List.mem_reverse, List.map_map, List.mem_map,
    List.mem_filter, Function.comp_apply]
  constructor
  · rintro ⟨⟨h, idx⟩, ⟨hmem, hactive⟩, rfl⟩
    exact ⟨mem_of_getElem? (mem_zipIdx_iff_getElem?.mp hmem), hactive⟩
  · rintro ⟨hmem, hactive⟩
    obtain ⟨idx, hidx⟩ := mem_iff_getElem?.mp hmem
    exact ⟨(h, idx), ⟨List.mem_zipIdx_iff_getElem?.mpr hidx, hactive⟩, rfl⟩

theorem length_toPromote (inner : SmoltcpStackInner) :
    inner.toPromote.length = inner.listening.countP fun h => (inner.sockets h).active := by
  have hfst := countP_map (p := fun h => (inner.sockets h).active) (f := Prod.fst)
    (l := inner.listening.zipIdx)
  rw [zipIdx_map_fst] at hfst
  rw [toPromote, length_map, ← countP_eq_length_filter, hfst]
  rfl

/-- The sessions of a stack behind a promotion are the old ones and the promoted ones. -/
theorem Promoted.takesPart (h : Promoted n places inner inner') (hshape : inner.Shape)
    (hplaces : ∀ p ∈ places, p.2 ∈ inner.listening ∧ (network p.2).active = true)
    (hs : inner'.sessions[i]? = some session) (hb : inner'.decodeBuffers[i]? = some buf) :
    inner.TakesPart network i session buf := by
  rw [h.sessions] at hs
  rw [h.buffers] at hb
  rcases Nat.lt_or_ge i inner.sessions.length with hold | hnew
  · rw [getElem?_append_left hold] at hs
    rw [getElem?_append_left (hshape.buffers ▸ hold)] at hb
    exact .inl ⟨hs, hb⟩
  · rw [getElem?_append_right hnew, getElem?_map] at hs
    rw [getElem?_append_right (hshape.buffers ▸ hnew), getElem?_map] at hb
    obtain ⟨p, hp, rfl⟩ := map_eq_some_iff.mp hs
    obtain ⟨_, -, rfl⟩ := map_eq_some_iff.mp hb
    exact .inr ⟨hnew, rfl, rfl, hplaces p (mem_of_getElem? hp)⟩

/-- The session of a round has a socket from before the round. -/
theorem TakesPart.handle_lt (hshape : inner.Shape) (h : inner.TakesPart network i session buf) :
    session.handle < inner.nextHandle := by
  rcases h with ⟨hs, -⟩ | ⟨-, -, -, hmem, -⟩
  · exact hshape.bound _ (mem_append_right _ (mem_map_of_mem (mem_of_getElem? hs)))
  · exact hshape.bound _ (mem_append_left _ hmem)

/-- The stack once the interface has been polled. -/
def received (inner : SmoltcpStackInner) (network : Nat → SocketEvent) : SmoltcpStackInner :=
  { inner with sockets := fun h => (inner.sockets h).update (network h) }

/-- A round promotes the active sockets, which cannot fail, and polls the sessions. -/
theorem poll_eq (hport : inner.config.localPort ≠ 0) (network : Nat → SocketEvent) :
    ∃ stack, Promoted inner.nextHandle (inner.received network).toPromote.reverse
        (inner.received network) stack ∧
      inner.poll network =
        let r := pollSessions stack.config.maxFrameSize stack.sessions stack.decodeBuffers
          stack.sockets
        (.ok (), { stack with sessions := r.1, decodeBuffers := r.2.1, sockets := r.2.2 }) := by
  obtain ⟨hok, hpromoted⟩ : _ ∧ Promoted inner.nextHandle _ (inner.received network) _ :=
    promoted_promote hport (Nat.le_refl _) (places_toPromote (inner.received network))
  have hpoll := poll.eq_1 inner network
  rw [← received] at hpoll
  rcases hresult : promote (inner.received network).toPromote.reverse (inner.received network)
    with ⟨result, stack⟩
  rw [hresult] at hpromoted hok
  obtain rfl : result = .ok () := hok
  refine ⟨stack, hpromoted, ?_⟩
  rw [hpoll]
  simp only [hresult]

theorem polled_poll (hshape : inner.Shape) (hport : inner.config.localPort ≠ 0)
    (network : Nat → SocketEvent) :
    (inner.poll network).1 = .ok () ∧ Polled inner network (inner.poll network).2 := by
  have hreceived : (inner.received network).Shape := hshape.congr rfl rfl rfl rfl
  have hpromotes : ∀ h, h ∈ (inner.received network).toPromote.reverse.map Prod.snd ↔
      h ∈ inner.listening ∧ (network h).active = true := fun h => mem_toPromote
  obtain ⟨stack, hpromoted, hpoll⟩ := poll_eq hport network
  rw [hpoll]
  have hstack := hpromoted.shape hreceived
  have hconfig : stack.config = inner.config := hpromoted.config
  obtain ⟨-, hhandles, -, heach⟩ := pollSessions_spec stack.config.maxFrameSize stack.sockets
    hstack.buffers (nodup_append.mp hstack.nodup).2.1
  have hcount := congrArg length hhandles
  rw [length_map, length_map] at hcount
  refine ⟨rfl, hconfig, hstack.pollSessions _, ?_, hpromoted.nextHandle, ?_, ?_, ?_, ?_⟩
  · intro hslots
    have hslots : stack.Slots := hpromoted.slots ⟨hslots.1, hslots.2⟩
    constructor
    · show (pollSessions _ _ _ _).1.length + _ ≤ _
      rw [hcount]
      exact hslots.bound
    · show (pollSessions _ _ _ _).1.length < _ → _
      rw [hcount]
      exact hslots.listener
  · show _ <+: map _ (pollSessions _ _ _ _).1
    rw [hhandles, hpromoted.sessions, map_append]
    exact prefix_append _ _
  · refine hcount.trans ?_
    rw [hpromoted.sessions, length_append, length_map, length_reverse,
      length_toPromote]
    rfl
  · intro i session' hi
    obtain ⟨session, buf, hs, hb, hround⟩ := heach i session' hi
    have htakes : inner.TakesPart network i session buf :=
      hpromoted.takesPart hreceived
        (fun p hp => (hpromotes p.2).mp (mem_map_of_mem hp)) hs hb
    refine ⟨session, buf, htakes, ?_⟩
    rw [hpromoted.sockets _ (TakesPart.handle_lt hshape htakes)] at hround
    have hsession := sessionRound_pollSession stack.config.maxFrameSize
      (inner.sockets session.handle) (network session.handle) session buf
    rw [received] at hround
    rw [hround] at hsession
    rw [← hconfig]
    exact hsession
  · intro h hh
    rcases hpromoted.listening hreceived h hh with ⟨hmem, hnot⟩ | hn
    · refine .inl ⟨hmem, ?_⟩
      rw [hpromotes, not_and, Bool.not_eq_true] at hnot
      exact hnot hmem
    · exact .inr hn

end SmoltcpStackInner

/-! ## Calls -/

/-- What the interface does to the sockets in this call. -/
def Action.network? : Action → Option (Nat → SocketEvent)
  | .onRx network | .pollTimers network => some network
  | _ => none

/-- A call from the datapath is a round of the stack. -/
theorem polled_step {network : Nat → SocketEvent} (hshape : w.stack.Shape)
    (hport : w.stack.config.localPort ≠ 0) (hnetwork : a.network? = some network)
    (hstep : step w a = some w') :
    w.stack.Polled network w'.stack := by
  obtain ⟨hok, hpolled⟩ := polled_poll hshape hport network
  cases a with
  | onRx network' =>
    obtain rfl : network' = network := some.inj hnetwork
    have hrx : w'.stack = { (w.stack.poll network').2 with
        pendingAccepts := (w.stack.poll network').2.pendingAccepts.tail } := by
      rcases hpoll : w.stack.poll network' with ⟨result, stack⟩
      rw [hpoll] at hok
      obtain rfl : result = .ok () := hok
      rw [step, onRx, hpoll] at hstep
      rcases hhead : stack.pendingAccepts.head? with _ | idx
      all_goals
        simp only [hhead] at hstep
        exact (congrArg World.stack (some.inj hstep)).symm
    rw [hrx]
    exact ⟨hpolled.config, hpolled.shape.congr rfl rfl rfl rfl,
      fun h => ⟨(hpolled.slots h).1, (hpolled.slots h).2⟩, hpolled.nextHandle, hpolled.handles,
      hpolled.count, hpolled.sessions, hpolled.listening⟩
  | pollTimers network' =>
    obtain rfl : network' = network := some.inj hnetwork
    cases hstep
    exact hpolled
  | sendOwned _ _ | pollRecv _ | dropConnection _ => cases hnetwork

/-- What a call on a connection does to the state of its session. -/
inductive Called (i : Nat) (session : SessionState) : Action → SessionState → Prop
  | send (msg : List UInt8) :
      Called i session (.sendOwned i msg) { session with txQueue := session.txQueue ++ [msg] }
  | recv {frame : List UInt8} {rxQueue : List (List UInt8)}
      (h : session.rxQueue = frame :: rxQueue) :
      Called i session (.pollRecv i) { session with rxQueue := rxQueue }
  | park (hempty : session.rxQueue = []) (hopen : session.closed = false) :
      Called i session (.pollRecv i) { session with rxWaker := true }
  | drop : Called i session (.dropConnection i) session.close

/-- The frame that a call returns to the application. -/
def Action.frame? (stack : SmoltcpStackInner) : Action → Option (List UInt8)
  | .pollRecv sessionIdx =>
    match (stack.pollRecv sessionIdx).1 with
    | some (.ok frame) => frame
    | _ => none
  | _ => none

/-- A call on a connection changes its session or nothing. -/
theorem step_call (hnetwork : a.network? = none) (hstep : step w a = some w') :
    (w'.stack = w.stack ∧ a.frame? w.stack = none) ∨
      ∃ i session session', w.stack.sessions[i]? = some session ∧ Called i session a session' ∧
      w'.stack = { w.stack with sessions := w.stack.sessions.set i session' } := by
  cases a with
  | onRx _ | pollTimers _ => cases hnetwork
  | sendOwned i msg =>
    rw [step] at hstep
    split_ifs at hstep
    unfold sendOwned at hstep
    split_ifs at hstep
    · exact .inl ⟨(congrArg World.stack (some.inj hstep)).symm, rfl⟩
    cases hi : w.stack.sessions[i]? with
    | none =>
      rw [hi] at hstep
      exact .inl ⟨(congrArg World.stack (some.inj hstep)).symm, rfl⟩
    | some session =>
      rw [hi] at hstep
      exact .inr ⟨i, session, _, hi, .send msg, (congrArg World.stack (some.inj hstep)).symm⟩
  | pollRecv i =>
    rw [step] at hstep
    split_ifs at hstep
    have hstack := (congrArg World.stack (some.inj hstep)).symm
    cases hi : w.stack.sessions[i]? with
    | none =>
      exact .inl ⟨hstack.trans (by simp [pollRecv, hi]),
        by simp [Action.frame?, pollRecv, hi]⟩
    | some session =>
      cases hqueue : session.rxQueue with
      | cons frame rxQueue =>
        refine .inr ⟨i, session, _, hi, .recv hqueue, hstack.trans ?_⟩
        simp [pollRecv, hi, hqueue]
      | nil =>
        cases hclosed : session.closed with
        | true =>
          exact .inl ⟨hstack.trans (by simp [pollRecv, hi, hqueue, hclosed]),
            by simp [Action.frame?, pollRecv, hi, hqueue, hclosed]⟩
        | false =>
          refine .inr ⟨i, session, _, hi, .park hqueue hclosed, hstack.trans ?_⟩
          simp [pollRecv, hi, hqueue, hclosed]
  | dropConnection i =>
    rw [step] at hstep
    split_ifs at hstep
    have hstack := (congrArg World.stack (some.inj hstep)).symm
    cases hi : w.stack.sessions[i]? with
    | none => exact .inl ⟨hstack.trans (by simp [dropConnection, hi]), rfl⟩
    | some session =>
      refine .inr ⟨i, session, _, hi, .drop, hstack.trans ?_⟩
      simp [dropConnection, hi]

/-- What a call returns has been at the front of the queue. -/
theorem Called.rxQueue (h : Called i session a session') {stack : SmoltcpStackInner}
    (hi : stack.sessions[i]? = some session) :
    (a.frame? stack).toList ++ session'.rxQueue = session.rxQueue := by
  cases h with
  | send _ | drop => rfl
  | recv hqueue => simp [Action.frame?, pollRecv, hi, hqueue]
  | park hempty hopen => simp [Action.frame?, pollRecv, hi, hempty, hopen]

theorem Called.handle (h : Called i session a session') : session'.handle = session.handle := by
  cases h <;> rfl

end IronSbe.Transport.Smoltcp
