import JustWebrtc.Core.Termination
import JustWebrtc.Signalling.Server.Delivery
import JustWebrtc.Signalling.Server.Listening
import JustWebrtc.Signalling.Server.Teardown

/-!
# Handlers go on

No handler waits for another one: the next scope of a call that has not returned can always be
taken, whatever the server has done before. And no server is busy forever. Apart from the arrival
of a request every step is work on what has arrived: a handler comes closer to its response, a
stream yields an item, or a channel yields a message. The work is bounded by the calls and by the
changes that have been broadcast.
-/

namespace JustWebrtc.Signalling

/-- How far a handler has come. -/
def Phase.rank : Phase → Nat
  | .received => 0
  | .inserting _ | .evicting _ _ | .subscribing _ _ => 1
  | .announcing _ | .removing _ _ => 2
  | .done _ => 3

theorem Phase.rank_le (phase : Phase) : phase.rank ≤ 3 := by
  cases phase <;> simp [Phase.rank]

/-- The handler has taken its first scope. -/
def Call.begun (c : Call) : Bool :=
  match c.phase with
  | .received => false
  | _ => true

/-- The handler has returned a peer stream or has failed to. -/
def Call.subscribed (c : Call) : Bool :=
  match c with
  | ⟨.openPeerListener _, .done _⟩ => true
  | _ => false

namespace Server

variable {s t : Server} {a : Action} {evs tr : List Event} {ok : Server → Action → Prop}

/-! ## No handler waits -/

/-- There is an order in which the other peers can be iterated. -/
theorem exists_iterates (s : Server) (id : Id) : ∃ order, s.Iterates id order :=
  ⟨(s.peers.keys.erase id).toList, Finset.nodup_toList _, Finset.toList_toFinset _⟩

/-- A signal always comes to a result: its receiver's channel is in the table. -/
theorem signal_enabled (htab : TableInv tr s) (slot : Slot) (k : Nat) (remotePeer : Option Id)
    (sig : Option Signal) : ∃ out, signal slot s k remotePeer sig = some out := by
  unfold signal
  cases remotePeer with
  | none => exact ⟨_, rfl⟩
  | some remoteId =>
    cases sig with
    | none => exact ⟨_, rfl⟩
    | some sig =>
      cases hpeer : s.peers.lookup remoteId with
      | none => exact ⟨_, by simp only [hpeer]; rfl⟩
      | some peer =>
        cases hc : peer.tx slot with
        | none => exact ⟨_, by simp only [hpeer, hc]; rfl⟩
        | some c =>
          have hkey := htab.link remoteId peer slot c hpeer hc
          obtain ⟨sc, hsc, _⟩ := Option.map_eq_some_iff.mp hkey
          simp only [hpeer, hc, hsc]
          split <;> exact ⟨_, rfl⟩

/-- A listener request always comes to a result: a new channel has room for its first message. -/
theorem openListener_enabled (s : Server) (slot : Slot) (localPeer : Option Id) :
    ∃ out, openListener slot s localPeer = some out := by
  have hroom : 0 < 16 := by decide
  obtain ⟨channel, hsend, _⟩ := Channel.trySend_open hroom (⟨none⟩ : SignalListenerRsp)
  unfold openListener
  split
  · exact ⟨_, rfl⟩
  · split
    · exact ⟨_, rfl⟩
    · simp only [hsend]
      split <;> exact ⟨_, rfl⟩

/-- Some iteration order lets a handler take its first scope. -/
theorem start_enabled (htab : TableInv tr s) (k : Nat) (request : Request) :
    ∃ order out, s.start k order request = some out := by
  cases request with
  | advertise => exact ⟨[], _, rfl⟩
  | teardown localPeer => exact ⟨[], _, rfl⟩
  | peerDiscover localPeer =>
    cases localPeer with
    | none => exact ⟨[], _, rfl⟩
    | some id =>
      obtain ⟨order, horder⟩ := s.exists_iterates id
      exact ⟨order, _, if_pos horder⟩
  | openPeerListener localPeer =>
    cases localPeer with
    | none => exact ⟨[], _, rfl⟩
    | some id =>
      obtain ⟨order, horder⟩ := s.exists_iterates id
      exact ⟨order, _, if_pos horder⟩
  | signal slot remotePeer sig =>
    obtain ⟨out, hout⟩ := signal_enabled htab slot k remotePeer sig
    exact ⟨[], out, by cases slot <;> exact hout⟩
  | openListener slot localPeer =>
    obtain ⟨out, hout⟩ := s.openListener_enabled slot localPeer
    exact ⟨[], out, by cases slot <;> exact hout⟩

/-- A handler that has not returned can go on. -/
theorem advance_enabled (htab : TableInv tr s) {k : Nat} {call : Call}
    (hk : s.calls[k]? = some call) (hp : ∀ result, call.phase ≠ .done result) :
    ∃ order out, s.step (.advance k order) = some out := by
  have hscope : ∃ order out, s.scope k order call = some out := by
    obtain ⟨request, phase⟩ := call
    cases phase with
    | received => exact start_enabled htab k request
    | done result => exact absurd rfl (hp result)
    | _ => exact ⟨[], _, rfl⟩
  obtain ⟨order, out, hout⟩ := hscope
  exact ⟨order, _, by simp only [step, advance, hk, hout]; rfl⟩

/-! ## Work -/

/-- The work done: the ranks of the handlers, the items and the messages that were yielded. -/
def work (s : Server) : Nat :=
  (s.calls.map fun c => c.phase.rank).sum + (s.streams.map fun st => st.items.length).sum +
    (s.channels.map fun sc => sc.channel.yielded.length).sum

/-- A handler that moves on works. -/
theorem work_setPhase {u : Server} {k : Nat} {call : Call} {phase : Phase} (hu : u.calls = s.calls)
    (hstreams : (u.streams.map fun st => st.items.length).sum =
      (s.streams.map fun st => st.items.length).sum)
    (hchannels : (u.channels.map fun sc => sc.channel.yielded.length).sum =
      (s.channels.map fun sc => sc.channel.yielded.length).sum)
    (hk : s.calls[k]? = some call) (hp : call.phase.rank < phase.rank) :
    s.work < (u.setPhase k phase).work := by
  obtain ⟨hlt, hget⟩ := List.getElem?_eq_some_iff.mp hk
  have hset : (u.setPhase k phase).calls = s.calls.set k { call with phase := phase } := by
    rw [setPhase, hu, List.modify_eq_set_get _ hlt, List.get_eq_getElem, hget]
  have hsum := sum_map_set (fun c : Call => c.phase.rank) hk { call with phase := phase }
  simp only [work, hset, streams_setPhase, channels_setPhase, hstreams, hchannels]
  simp only at hsum
  omega

/-- Every step but the arrival of a request and the loss of a stream works. -/
theorem Moves.works (hm : s.Moves a t evs) (hdrop : a.drops = false) :
    (∃ request, a = .receive request ∧ t.work = s.work) ∨ s.work < t.work := by
  cases hm with
  | receive request => exact Or.inl ⟨request, rfl, by simp [work, Phase.rank]⟩
  | dropPeerStream _ _ | dropChannel _ => simp [Action.drops] at hdrop
  | generate hk | duplicate hk _ | insert hk _ | remove hk _ | collect hk _
  | disconnect hk _ _ _ _ => exact Or.inr (work_setPhase rfl rfl rfl hk (by simp [Phase.rank]))
  | announce hk =>
    exact Or.inr (work_setPhase (by simp) (by simp) (by simp) hk (by simp [Phase.rank]))
  | depart hk hd =>
    refine Or.inr (work_setPhase (by simp) (by simp) (by simp) hk ?_)
    cases hd <;> simp [Phase.rank]
  | respond hk hr =>
    refine Or.inr (work_setPhase rfl rfl rfl hk ?_)
    cases hr <;> simp [Phase.rank]
  | subscribe hk =>
    exact Or.inr (work_setPhase rfl (by simp [openPeerListenerSubscribe]) rfl hk
      (by simp [Phase.rank]))
  | @accept k order slot id sig peer c sc channel hk _ _ hsc hsend =>
    refine Or.inr (work_setPhase rfl rfl ?_ hk (by simp [Phase.rank]))
    have hsum := sum_map_set (fun sc : SignalChannel => sc.channel.yielded.length) hsc
      { sc with channel := channel }
    simp only [(Channel.trySend_ok hsend).2.2.1] at hsum
    simpa using hsum
  | openListener hk _ _ hsend =>
    refine Or.inr (work_setPhase rfl rfl ?_ hk (by simp [Phase.rank]))
    simp [(Channel.trySend_ok hsend).2.2.1, Channel.empty]
  | @yieldInitial i st rsp hi _ _ =>
    have hsum := sum_map_set (fun st : PeerStream => st.items.length) hi
      { st with result := none, items := st.items ++ [.ok rsp] }
    simp only [List.length_append, List.length_singleton] at hsum
    refine Or.inr ?_
    simp only [work]
    omega
  | @yieldReceived i st received r item hi _ _ _ _ =>
    have hsum := sum_map_set (fun st : PeerStream => st.items.length) hi
      { st with items := st.items ++ [item] }
    simp only [List.length_append, List.length_singleton] at hsum
    refine Or.inr ?_
    simp only [work]
    omega
  | @pollChannel c sc channel hsc hnext =>
    have hsum := sum_map_set (fun sc : SignalChannel => sc.channel.yielded.length) hsc
      { sc with channel := channel }
    obtain ⟨_, _, m, hm⟩ := Channel.next_some hnext
    simp only [hm, List.length_append, List.length_singleton] at hsum
    refine Or.inr ?_
    simp only [work]
    omega

/-! ## What there is to do -/

/-- A handler that goes on has begun. -/
theorem begun_setPhase {u : Server} {k : Nat} {call : Call} {phase : Phase}
    (hu : u.calls = s.calls) (hk : s.calls[k]? = some call) (hp : phase ≠ .received) :
    s.calls.countP Call.begun + (if call.begun then 0 else 1) =
      (u.setPhase k phase).calls.countP Call.begun := by
  have hcount := countP_setPhase phase hu hk Call.begun
  have hbegun : Call.begun { call with phase := phase } = true := by
    cases phase <;> first | rfl | exact absurd rfl hp
  rw [hbegun, if_pos rfl] at hcount
  split <;> simp_all

/-- A message comes into a channel when a handler begins, and no handler brings two. -/
theorem Moves.brings (hm : s.Moves a t evs) :
    (t.channels.map fun sc => sc.channel.items.length).sum + s.calls.countP Call.begun ≤
      (s.channels.map fun sc => sc.channel.items.length).sum + t.calls.countP Call.begun := by
  have goes {u : Server} {k : Nat} {call : Call} {phase : Phase} (hu : u.calls = s.calls)
      (hk : s.calls[k]? = some call) (hp : phase ≠ .received)
      (hc : (u.channels.map fun sc => sc.channel.items.length).sum ≤
        (s.channels.map fun sc => sc.channel.items.length).sum + if call.begun then 0 else 1) :
      ((u.setPhase k phase).channels.map fun sc => sc.channel.items.length).sum +
          s.calls.countP Call.begun ≤
        (s.channels.map fun sc => sc.channel.items.length).sum +
          (u.setPhase k phase).calls.countP Call.begun := by
    rw [channels_setPhase, ← begun_setPhase hu hk hp]
    omega
  cases hm with
  | receive request => simp [Call.begun]
  | dropPeerStream _ _ | yieldInitial _ _ _ | yieldReceived _ _ _ _ _ => exact le_rfl
  | generate hk | duplicate hk _ | insert hk _ | remove hk _ | respond hk _ | collect hk _
  | subscribe hk | disconnect hk _ _ _ _ =>
    exact goes rfl hk (by simp) (Nat.le_add_right _ _)
  | announce hk | depart hk _ =>
    exact goes (by simp) hk (by simp) (by rw [channels_broadcastChange]; exact Nat.le_add_right _ _)
  | @accept k order slot id sig peer c sc channel hk _ _ hsc hsend =>
    refine goes rfl hk (by simp) ?_
    have hsum := sum_map_set (fun sc : SignalChannel => sc.channel.items.length) hsc
      { sc with channel := channel }
    simp only [(Channel.trySend_ok hsend).2.1, List.length_append, List.length_singleton] at hsum
    simp only [Call.begun, Bool.false_eq_true, if_false]
    omega
  | openListener hk _ _ hsend =>
    refine goes rfl hk (by simp) ?_
    simp [(Channel.trySend_ok hsend).2.1, Call.begun]
  | @pollChannel c sc channel hsc hnext =>
    have hsum := sum_map_set (fun sc : SignalChannel => sc.channel.items.length) hsc
      { sc with channel := channel }
    simp only [(Channel.next_some hnext).1] at hsum
    simp only
    omega
  | @dropChannel c sc hsc =>
    have hsum := sum_map_set (fun sc : SignalChannel => sc.channel.items.length) hsc
      { sc with channel := sc.channel.dropReceiver }
    simp only [Channel.items_dropReceiver] at hsum
    simp only
    omega

/-- No more messages are in channels than handlers have begun. -/
theorem items_le_calls (hr : server.Run ok tr s) :
    (s.channels.map fun sc => sc.channel.items.length).sum ≤ s.calls.countP Call.begun := by
  refine hr.invariant (I := fun _ s => (s.channels.map fun sc => sc.channel.items.length).sum ≤
    s.calls.countP Call.begun) (by simp [server, Server.new]) fun _ h _ hs => ?_
  have hbrings := (step_moves hs).brings
  omega

/-- A stream comes with the response to a request for it. -/
theorem Moves.opens (hm : s.Moves a t evs) (hc : ∀ c ∈ s.calls, c.Consistent) :
    t.streams.length + s.calls.countP Call.subscribed ≤
      s.streams.length + t.calls.countP Call.subscribed := by
  have goes {u : Server} {k : Nat} {call : Call} {phase : Phase} (hu : u.calls = s.calls)
      (hk : s.calls[k]? = some call) (hp : ∀ result, call.phase ≠ .done result)
      (hs : u.streams.length ≤ s.streams.length +
        if Call.subscribed { call with phase := phase } then 1 else 0) :
      (u.setPhase k phase).streams.length + s.calls.countP Call.subscribed ≤
        s.streams.length + (u.setPhase k phase).calls.countP Call.subscribed := by
    have hcount := countP_setPhase phase hu hk Call.subscribed
    have hnot : call.subscribed = false := by
      unfold Call.subscribed
      split
      · exact absurd rfl (hp _)
      · rfl
    simp only [hnot, Bool.false_eq_true, if_false, Nat.add_zero] at hcount
    rw [streams_setPhase, hcount]
    omega
  cases hm with
  | receive request => simp [Call.subscribed]
  | dropPeerStream _ _ | yieldInitial _ _ _ | yieldReceived _ _ _ _ _ => simp
  | pollChannel _ _ | dropChannel _ => exact le_rfl
  | generate hk | duplicate hk _ | insert hk _ | remove hk _ | collect hk _ | accept hk _ _ _ _
  | disconnect hk _ _ _ _ | openListener hk _ _ _ =>
    exact goes rfl hk (by simp) (Nat.le_add_right _ _)
  | announce hk => exact goes (by simp) hk (by simp) (by simp)
  | depart hk hd =>
    refine goes (by simp) hk ?_ (by simp)
    cases hd <;> simp
  | respond hk hr =>
    refine goes rfl hk ?_ (Nat.le_add_right _ _)
    cases hr <;> simp
  | @subscribe k order request id initial hk =>
    have hreq : request = .openPeerListener (some id) := hc _ (List.mem_of_getElem? hk)
    subst hreq
    exact goes rfl hk (by simp) (by simp [openPeerListenerSubscribe, Call.subscribed])

/-- There are no more streams than requests for them have been answered. -/
theorem streams_le_calls (hr : server.Run ok tr s) :
    s.streams.length ≤ s.calls.countP Call.subscribed := by
  refine hr.invariant (I := fun _ s => s.streams.length ≤ s.calls.countP Call.subscribed)
    (by simp [server, Server.new]) fun hr h _ hs => ?_
  have hopens := (step_moves hs).opens (consistent hr)
  omega

/-- A stream has yielded no more than its first message and the changes. -/
theorem items_le_changes (hr : server.Run ok tr s) :
    ∀ st ∈ s.streams, st.items.length ≤ (changeLog tr).length + 1 := by
  intro st hst
  obtain ⟨i, hi⟩ := List.mem_iff_getElem?.mp hst
  obtain ⟨start, initial, rest, pos, w⟩ := ((broadcastInv hr).streams i st hi).walk
  have hloaded : st.items.length ≤ st.loaded.length := by
    rw [PeerStream.loaded, List.length_append]
    exact Nat.le_add_right _ _
  have hlength := w.follows.length_le
  have hbound := w.follows.bounds.2
  rw [List.length_map] at hlength
  rw [w.loaded, List.length_cons] at hloaded
  omega

/-- The work of a server is bounded by its calls and its changes. -/
theorem work_le (hr : server.Run ok tr s) :
    s.work ≤ 4 * s.calls.length +
      s.calls.countP Call.subscribed * ((changeLog tr).length + 1) := by
  have hranks : (s.calls.map fun c => c.phase.rank).sum ≤ s.calls.length * 3 := by
    refine (List.sum_le_card_nsmul _ 3 ?_).trans (by simp)
    intro n hn
    obtain ⟨c, _, rfl⟩ := List.mem_map.mp hn
    exact c.phase.rank_le
  have hstreams : (s.streams.map fun st => st.items.length).sum ≤
      s.streams.length * ((changeLog tr).length + 1) := by
    refine (List.sum_le_card_nsmul _ ((changeLog tr).length + 1) ?_).trans (by simp)
    intro n hn
    obtain ⟨st, hst, rfl⟩ := List.mem_map.mp hn
    exact items_le_changes hr st hst
  have hchannels : (s.channels.map fun sc => sc.channel.yielded.length).sum ≤ s.calls.length := by
    refine le_trans (List.sum_le_sum fun sc _ => ?_)
      ((items_le_calls hr).trans List.countP_le_length)
    rw [Channel.items, List.length_append]
    exact Nat.le_add_right _ _
  have hmul := Nat.mul_le_mul_right ((changeLog tr).length + 1) (streams_le_calls hr)
  rw [work]
  omega

end Server

end JustWebrtc.Signalling
