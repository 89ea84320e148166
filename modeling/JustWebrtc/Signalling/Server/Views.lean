import JustWebrtc.Signalling.Server.Calls

/-!
# The views of peer listeners

The fold of what a listener has handed out is its view of the peer map. Nothing lost, a
drained listener's view is its snapshot with every change replayed that was broadcast after
its subscription. A peer is missing from a view when it was inserted after the snapshot and
broadcast before the subscription, and left behind in a view when it was in the snapshot, or
added, while its own removal had already been broadcast.
-/

namespace JustWebrtc.Signalling

/-- The changes a stream item carries. -/
def itemChanges : Except Status PeerListenerRsp → List PeerChange
  | .ok m => m.peerChanges
  | .error _ => []

/-- The changes of a stretch of the change log. -/
def changesOf (log : List PeerListenerRsp) : List PeerChange :=
  log.flatMap PeerListenerRsp.peerChanges

@[simp] theorem changesOf_append (log log' : List PeerListenerRsp) :
    changesOf (log ++ log') = changesOf log ++ changesOf log' := List.flatMap_append

/-- The event is the subscription of stream `i`. -/
def Event.subscribes (i : Nat) : Event → Bool
  | .subscribed _ j => j == i
  | _ => false

/-- The messages broadcast after the subscription of stream `i`. -/
def messagesSince (tr : List Event) (i : Nat) : List PeerListenerRsp :=
  changeLog (tr.dropWhile fun e => !e.subscribes i)

/-- The changes broadcast after the subscription of stream `i`. -/
def changesSince (tr : List Event) (i : Nat) : List PeerChange := changesOf (messagesSince tr i)

namespace PeerStream

/-- The fold of everything handed out so far. -/
def view (st : PeerStream) : Finset Id := Change.replay ∅ (st.items.flatMap itemChanges)

/-- The changes of the first item. -/
def firstChanges (st : PeerStream) : List PeerChange :=
  (st.loaded.head?.map itemChanges).getD []

/-- All messages of stream `i`, if nothing gets lost: the first one and what is broadcast after
its subscription. -/
def messages (tr : List Event) (i : Nat) (st : PeerStream) : List PeerListenerRsp :=
  ⟨st.firstChanges⟩ :: messagesSince tr i

/-- The stream is open and has not reported a loss. -/
def Intact (st : PeerStream) : Prop := st.alive = true ∧ st.items.all Except.isOk = true

instance (st : PeerStream) : Decidable st.Intact := inferInstanceAs (Decidable (_ ∧ _))

/-- The view of stream `i` once it has handed out everything, if nothing gets lost. -/
def eventual (tr : List Event) (i : Nat) (st : PeerStream) : Finset Id :=
  Change.replay ∅ (st.firstChanges ++ changesSince tr i)

end PeerStream

/-- What a stream hands out in the end is the fold of all its messages. -/
theorem PeerStream.eventual_eq (tr : List Event) (i : Nat) (st : PeerStream) :
    st.eventual tr i = Change.replay ∅ (changesOf (st.messages tr i)) := rfl

/-- The position of a subscription in the log is where its later messages begin. -/
theorem messagesSince_eq {tr : List Event} {i start : Nat} (h : SubscribedAt tr i start) :
    messagesSince tr i = (changeLog tr).drop start := by
  obtain ⟨before, k, after, rfl, hfirst, rfl⟩ := h
  have hbefore : ∀ e ∈ before, (!e.subscribes i) = true := by
    intro e he
    cases e with
    | subscribed k' j =>
      have hne : j ≠ i := by
        rintro rfl
        exact hfirst k' he
      simpa [Event.subscribes] using hne
    | _ => rfl
  have hself : (!(Event.subscribed k i).subscribes i) = false := by simp [Event.subscribes]
  rw [messagesSince, List.dropWhile_append_of_pos hbefore,
    List.dropWhile_cons_of_neg (by simp [hself]), changeLog_append, List.drop_left]

/-- Later broadcasts come after the earlier ones of a subscribed stream. -/
theorem messagesSince_append {tr : List Event} {i start : Nat} (h : SubscribedAt tr i start)
    (evs : List Event) :
    messagesSince (tr ++ evs) i = messagesSince tr i ++ changeLog evs := by
  have hle : start ≤ (changeLog tr).length := by
    obtain ⟨before, k, after, rfl, _, rfl⟩ := h
    rw [changeLog_append, List.length_append]
    exact Nat.le_add_right _ _
  rw [messagesSince_eq h, messagesSince_eq (h.append evs), changeLog_append,
    List.drop_append_of_le_length hle]

/-- Items that are all messages carry the changes of these messages. -/
theorem flatMap_itemChanges (ms : List PeerListenerRsp) :
    (ms.map Except.ok).flatMap itemChanges = changesOf ms := by
  rw [List.flatMap_map]
  rfl

/-- Items without an error are messages. -/
theorem eq_map_ok {items : List (Except Status PeerListenerRsp)} {ms : List PeerListenerRsp}
    (h : items.map itemMessage = ms.map some) : items = ms.map Except.ok := by
  induction items generalizing ms with
  | nil =>
    rw [List.map_nil, eq_comm, List.map_eq_nil_iff] at h
    rw [h]
    rfl
  | cons item items ih =>
    cases ms with
    | nil => simp at h
    | cons m ms =>
      rw [List.map_cons, List.map_cons, List.cons.injEq] at h
      cases item with
      | error e => simp [itemMessage] at h
      | ok m' =>
        have hm : m' = m := by simpa [itemMessage] using h.1
        rw [List.map_cons, ih h.2, hm]

namespace Server

/-- The stream has handed out everything there is to hand out. -/
def Drained (s : Server) (i : Nat) : Prop := (s.pollPeerStream i).isNone = true

instance (s : Server) (i : Nat) : Decidable (s.Drained i) := inferInstanceAs (Decidable (_ = true))

/-- A stream that has handed out its first message and lost nothing has handed out its first
messages, as many as it has read of the log and one. -/
theorem BroadcastInv.items_eq {tr : List Event} {s : Server} (h : BroadcastInv tr s) {i : Nat}
    {st : PeerStream} (hi : s.streams[i]? = some st) (hst : st.Intact) (hr : st.result = none) :
    ∃ start pos, SubscribedAt tr i start ∧ start ≤ pos ∧ pos ≤ (changeLog tr).length ∧
      s.broadcast.receivers[i + 1]? = some (some pos) ∧
      st.items = ((st.messages tr i).take (pos - start + 1)).map .ok := by
  obtain ⟨start, initial, rest, pos, w⟩ := (h.streams i st hi).walk
  obtain ⟨halive, hok⟩ := hst
  have hl := w.loaded
  simp only [PeerStream.loaded, hr, Option.map_none, Option.toList_none, List.append_nil] at hl
  refine ⟨start, pos, w.subscribed, w.follows.bounds.1, w.follows.bounds.2, w.position halive, ?_⟩
  have hnone : none ∉ rest.map itemMessage := by
    intro hm
    obtain ⟨item, hmem, hitem⟩ := List.mem_map.mp hm
    have hitems : item ∈ st.items := by
      rw [hl]
      exact List.mem_cons_of_mem _ hmem
    have hisok := List.all_eq_true.mp hok item hitems
    cases item with
    | ok m => simp [itemMessage] at hitem
    | error e => simp [Except.isOk, Except.toBool] at hisok
  have hfirst : st.firstChanges = initial.map Change.add := by
    rw [PeerStream.firstChanges, w.loaded]
    rfl
  rw [hl, eq_map_ok (w.follows.lossless hnone), PeerStream.messages, hfirst,
    messagesSince_eq w.subscribed, List.take_succ_cons, List.drop_take]
  rfl

/-- What a stream that lost nothing has handed out are its first messages. -/
theorem BroadcastInv.items_take {tr : List Event} {s : Server} (h : BroadcastInv tr s) {i : Nat}
    {st : PeerStream} (hi : s.streams[i]? = some st) (hst : st.Intact) :
    st.items = ((st.messages tr i).take st.items.length).map .ok := by
  cases hr : st.result with
  | some rsp =>
    rw [(h.streams i st hi).fresh (by rw [hr]; simp)]
    rfl
  | none =>
    obtain ⟨start, pos, _, _, _, _, hitems⟩ := h.items_eq hi hst hr
    have hlen := congrArg List.length hitems
    rw [List.length_map, List.length_take] at hlen
    calc st.items = ((st.messages tr i).take (pos - start + 1)).map .ok := hitems
      _ = ((st.messages tr i).take st.items.length).map .ok := by
        rw [hlen, ← List.take_eq_take_min]

/-- A drained stream that lost nothing has handed out all its messages. -/
theorem BroadcastInv.items_drained {tr : List Event} {s : Server} (h : BroadcastInv tr s) {i : Nat}
    {st : PeerStream} (hi : s.streams[i]? = some st) (hst : st.Intact) (hd : s.Drained i) :
    st.items = (st.messages tr i).map .ok := by
  have halive := hst.1
  cases hr : st.result with
  | some rsp => simp [Drained, pollPeerStream, hi, halive, hr] at hd
  | none =>
    obtain ⟨start, pos, hsub, _, hle, hpos, hitems⟩ := h.items_eq hi hst hr
    have hend : pos = (changeLog tr).length := by
      rcases h.records.tryRecv (Nat.succ_ne_zero i) hpos hle with
        ⟨_, n, r', hr', _⟩ | ⟨m, r', _, hr', _⟩ | ⟨hend, _⟩
      · simp [Drained, pollPeerStream, hi, halive, hr, (h.streams i st hi).rx, hr',
          streamItem] at hd
      · simp [Drained, pollPeerStream, hi, halive, hr, (h.streams i st hi).rx, hr',
          streamItem] at hd
      · exact hend
    rw [hitems, List.take_of_length_le]
    rw [PeerStream.messages, messagesSince_eq hsub, List.length_cons, List.length_drop, hend]

/-- A drained stream that lost nothing shows its eventual view. -/
theorem BroadcastInv.view_eq {tr : List Event} {s : Server} (h : BroadcastInv tr s) {i : Nat}
    {st : PeerStream} (hi : s.streams[i]? = some st) (hst : st.Intact) (hd : s.Drained i) :
    st.view = st.eventual tr i := by
  rw [PeerStream.view, h.items_drained hi hst hd, flatMap_itemChanges, PeerStream.eventual_eq]

/-! ## What is under way -/

/-- Some handler is in a phase about `x`, of the kind that `f` picks out. -/
def Busy (s : Server) (f : Phase → Option Id) (x : Id) : Prop := ∃ c ∈ s.calls, f c.phase = some x

instance (s : Server) (f : Phase → Option Id) (x : Id) : Decidable (s.Busy f x) :=
  inferInstanceAs (Decidable (∃ c ∈ s.calls, f c.phase = some x))

end Server

/-- The inserted peer whose addition is about to be broadcast. -/
def Phase.announces : Phase → Option Id
  | .announcing id => some id
  | _ => none

/-- The peer whose removal is about to be broadcast after a failed send. -/
def Phase.evicts : Phase → Option Id
  | .evicting id _ => some id
  | _ => none

/-- The peer whose removal has been broadcast and whose entry is about to be removed. -/
def Phase.removes : Phase → Option Id
  | .removing id _ => some id
  | _ => none

/-- The handler has started and has not returned. -/
def Phase.midway : Phase → Bool
  | .received | .done _ => false
  | _ => true

namespace Server

/-- An entry of `x` waits for its broadcast. -/
abbrev Announcing (s : Server) (x : Id) : Prop := s.Busy Phase.announces x

/-- An eviction of `x` waits for its broadcast. -/
abbrev Evicting (s : Server) (x : Id) : Prop := s.Busy Phase.evicts x

/-- A removal of `x` has been broadcast and waits for the map. -/
abbrev Removing (s : Server) (x : Id) : Prop := s.Busy Phase.removes x

/-- No handler is mid-way. -/
def Settled (s : Server) : Prop := ∀ c ∈ s.calls, c.phase.midway = false

instance (s : Server) : Decidable s.Settled :=
  inferInstanceAs (Decidable (∀ c ∈ s.calls, c.phase.midway = false))

/-- A settled server is busy with nobody. -/
theorem Settled.not_busy {s : Server} (h : s.Settled) {f : Phase → Option Id} {x : Id}
    (hf : ∀ phase, f phase ≠ none → phase.midway = true) : ¬ s.Busy f x := by
  rintro ⟨c, hc, hx⟩
  have hmid := hf c.phase (by rw [hx]; simp)
  rw [h c hc] at hmid
  simp at hmid

theorem midway_of_announces (phase : Phase) (h : phase.announces ≠ none) :
    phase.midway = true := by
  cases phase <;> simp_all [Phase.announces, Phase.midway]

theorem midway_of_evicts (phase : Phase) (h : phase.evicts ≠ none) : phase.midway = true := by
  cases phase <;> simp_all [Phase.evicts, Phase.midway]

theorem midway_of_removes (phase : Phase) (h : phase.removes ≠ none) : phase.midway = true := by
  cases phase <;> simp_all [Phase.removes, Phase.midway]

/-- A busy handler stays busy unless the step is its own. -/
theorem Moves.busy {s t : Server} {a : Action} {evs : List Event} (hm : s.Moves a t evs)
    {f : Phase → Option Id} {x : Id} (h : s.Busy f x) :
    t.Busy f x ∨ ∃ k order call, a = .advance k order ∧ s.calls[k]? = some call ∧
      f call.phase = some x := by
  obtain ⟨c, hc, hx⟩ := h
  obtain ⟨k, hk⟩ := List.getElem?_of_mem hc
  by_cases ha : a.call = some k
  · cases a with
    | advance k' order =>
      rw [Action.call, Option.some.injEq] at ha
      subst ha
      exact Or.inr ⟨k', order, c, rfl, hk, hx⟩
    | _ => simp [Action.call] at ha
  · exact Or.inl ⟨c, List.mem_of_getElem? (hm.calls_of_ne hk ha), hx⟩

/-- A handler that has become busy by a step is the one the step moved. -/
theorem busy_setPhase {s u : Server} {k : Nat} {call : Call} {phase : Phase}
    {f : Phase → Option Id} {x : Id} (hu : u.calls = s.calls) (hk : s.calls[k]? = some call)
    (h : (u.setPhase k phase).Busy f x) : f phase = some x ∨ s.Busy f x := by
  obtain ⟨c, hc, hx⟩ := h
  obtain ⟨j, hj⟩ := List.getElem?_of_mem hc
  rcases calls_setPhase_cases hu hk hj with ⟨_, rfl⟩ | ⟨_, hj⟩
  · exact Or.inl hx
  · exact Or.inr ⟨c, List.mem_of_getElem? hj, hx⟩

/-- The moved handler is busy with what its new phase is about. -/
theorem busy_setPhase_self {s u : Server} {k : Nat} {call : Call} {phase : Phase}
    {f : Phase → Option Id} {x : Id} (hu : u.calls = s.calls) (hk : s.calls[k]? = some call)
    (h : f phase = some x) : (u.setPhase k phase).Busy f x := by
  have hk' : (u.setPhase k phase).calls[k]? = some { call with phase := phase } := by
    rw [← hu] at hk
    exact (getElem?_calls_setPhase hk).mpr (Or.inl ⟨rfl, rfl⟩)
  exact ⟨_, List.mem_of_getElem? hk', h⟩

end Server

/-- The changes broadcast in a run. -/
def changes (tr : List Event) : List PeerChange := changesOf (changeLog tr)

namespace Server

theorem changes_broadcastChange {tr : List Event} {s : Server} (h : BroadcastInv tr s)
    (c : PeerChange) : changes [(s.broadcastChange c).2] = [c] := by
  rw [(broadcastChange_sent h.records c).1]
  rfl

/-- What one step can broadcast. -/
theorem Moves.changes {tr evs : List Event} {s t : Server} {a : Action} (hm : s.Moves a t evs)
    (h : BroadcastInv tr s) :
    Signalling.changes evs = [] ∨
      (∃ x k order request, Signalling.changes evs = [.add x] ∧ a = .advance k order ∧
        s.calls[k]? = some ⟨request, .announcing x⟩) ∨
      ∃ x, Signalling.changes evs = [.remove x] ∧ t.Removing x := by
  cases hm with
  | @announce k order request id hk =>
    exact Or.inr (Or.inl ⟨id, k, order, request, changes_broadcastChange h _, rfl, hk⟩)
  | @depart k order call id caller hk _ =>
    exact Or.inr (Or.inr ⟨id, changes_broadcastChange h _, busy_setPhase_self (by simp) hk rfl⟩)
  | _ => exact Or.inl rfl

/-- A new entry waits for its broadcast. -/
theorem Moves.keys {s t : Server} {a : Action} {evs : List Event} (hm : s.Moves a t evs) {x : Id}
    (hx : x ∈ t.peers) : x ∈ s.peers ∨ t.Announcing x := by
  cases hm with
  | @insert k order request id hk _ =>
    rcases Finmap.mem_insert.mp hx with rfl | hx
    · exact Or.inr (busy_setPhase_self (s := s) rfl hk rfl)
    · exact Or.inl hx
  | remove _ _ => exact Or.inl (Finmap.mem_erase.mp hx).2
  | openListener _ hp _ _ =>
    rcases Finmap.mem_insert.mp hx with rfl | hx
    · exact Or.inl (Finmap.mem_of_lookup_eq_some hp)
    · exact Or.inl hx
  | announce _ | depart _ _ =>
    rw [peers_setPhase, peers_broadcastChange] at hx
    exact Or.inl hx
  | _ => exact Or.inl hx

/-- Only a removal under way takes an entry out of the map. -/
theorem Moves.keys_lost {s t : Server} {a : Action} {evs : List Event} (hm : s.Moves a t evs)
    {x : Id} (hx : x ∈ s.peers) : x ∈ t.peers ∨ s.Removing x := by
  cases hm with
  | insert _ _ | openListener _ _ _ _ => exact Or.inl (Finmap.mem_insert.mpr (Or.inr hx))
  | @remove k order request id caller hk _ =>
    by_cases hid : x = id
    · subst hid
      exact Or.inr ⟨_, List.mem_of_getElem? hk, rfl⟩
    · exact Or.inl (Finmap.mem_erase.mpr ⟨hid, hx⟩)
  | announce _ | depart _ _ =>
    rw [peers_setPhase, peers_broadcastChange]
    exact Or.inl hx
  | _ => exact Or.inl hx

/-- An entry waits for its broadcast until that is made. -/
theorem Moves.announcing {tr evs : List Event} {s t : Server} {a : Action} (hm : s.Moves a t evs)
    (h : BroadcastInv tr s) {x : Id} (hx : s.Announcing x) :
    t.Announcing x ∨ Signalling.changes evs = [.add x] := by
  rcases hm.busy hx with ht | ⟨k, order, ⟨request, phase⟩, rfl, hk, hp⟩
  · exact Or.inl ht
  · obtain rfl : phase = .announcing x := by
      cases phase <;> simp_all [Phase.announces]
    obtain ⟨_, rfl⟩ := hm.resumes hk
    exact Or.inr (changes_broadcastChange h _)

/-- An eviction waits for its broadcast until that is made, and then for the map. -/
theorem Moves.evicting {tr evs : List Event} {s t : Server} {a : Action} (hm : s.Moves a t evs)
    (h : BroadcastInv tr s) {x : Id} (hx : s.Evicting x) :
    t.Evicting x ∨ t.Removing x ∧ Signalling.changes evs = [.remove x] := by
  rcases hm.busy hx with ht | ⟨k, order, ⟨request, phase⟩, rfl, hk, hp⟩
  · exact Or.inl ht
  · obtain ⟨slot, rfl⟩ : ∃ slot, phase = .evicting x slot := by
      cases phase <;> simp_all [Phase.evicts]
    obtain ⟨rfl, rfl⟩ := hm.resumes hk
    exact Or.inr ⟨busy_setPhase_self (by simp) hk rfl, changes_broadcastChange h _⟩

/-- A broadcast removal waits for the map until the peer is not in it. -/
theorem Moves.removing {s t : Server} {a : Action} {evs : List Event} (hm : s.Moves a t evs)
    {x : Id} (hx : s.Removing x) : t.Removing x ∨ x ∉ t.peers := by
  rcases hm.busy hx with ht | ⟨k, order, ⟨request, phase⟩, rfl, hk, hp⟩
  · exact Or.inl ht
  · obtain ⟨caller, rfl⟩ : ∃ caller, phase = .removing x caller := by
      cases phase <;> simp_all [Phase.removes]
    rcases hm.resumes hk with ⟨_, rfl, _⟩ | ⟨hmem, rfl, _⟩
    · exact Or.inr Finmap.notMem_erase_self
    · exact Or.inr hmem

/-- A removal is under way only after its broadcast. -/
theorem Moves.removing_new {tr evs : List Event} {s t : Server} {a : Action}
    (hm : s.Moves a t evs) (h : BroadcastInv tr s) {x : Id} (hx : t.Removing x) :
    s.Removing x ∨ Signalling.changes evs = [.remove x] := by
  have hback : ∀ {k : Nat} {call : Call} {phase : Phase} {u : Server}, u.calls = s.calls →
      s.calls[k]? = some call → phase.removes = none → (u.setPhase k phase).Removing x →
      s.Removing x := by
    intro k call phase u hu hk hp hx
    rcases busy_setPhase hu hk hx with hp' | hx
    · rw [hp] at hp'
      simp only [reduceCtorEq] at hp'
    · exact hx
  cases hm with
  | receive request =>
    obtain ⟨c, hc, hx⟩ := hx
    rcases List.mem_append.mp hc with hc | hc
    · exact Or.inl ⟨c, hc, hx⟩
    · rw [List.mem_singleton.mp hc] at hx
      simp [Phase.removes] at hx
  | @depart k order call id caller hk _ =>
    rcases busy_setPhase (by simp) hk hx with hp | hx
    · rw [Phase.removes, Option.some.injEq] at hp
      subst hp
      exact Or.inr (changes_broadcastChange h _)
    · exact Or.inl hx
  | generate hk | announce hk => exact Or.inl (hback (by simp) hk rfl hx)
  | subscribe hk => exact Or.inl (hback rfl hk rfl hx)
  | duplicate hk _ | insert hk _ | remove hk _ | respond hk _ | collect hk _ =>
    exact Or.inl (hback rfl hk rfl hx)
  | accept hk _ _ _ _ | disconnect hk _ _ _ _ | openListener hk _ _ _ =>
    exact Or.inl (hback rfl hk rfl hx)
  | _ => exact Or.inl hx

/-! ## Eventual views -/

/-- A stream that has only been handed more items keeps its messages, with those of the step
behind them. -/
theorem BroadcastInv.messages_old {tr : List Event} {s : Server} (h : BroadcastInv tr s) {i : Nat}
    {st st' : PeerStream} (hi : s.streams[i]? = some st)
    {more : List (Except Status PeerListenerRsp)}
    (hl : st'.loaded = st.loaded ++ more) (evs : List Event) :
    st'.messages (tr ++ evs) i = st.messages tr i ++ changeLog evs := by
  obtain ⟨start, initial, rest, pos, w⟩ := (h.streams i st hi).walk
  have hfirst : st'.firstChanges = st.firstChanges := by
    rw [PeerStream.firstChanges, PeerStream.firstChanges, hl, w.loaded]
    rfl
  rw [PeerStream.messages, PeerStream.messages, hfirst, messagesSince_append w.subscribed]
  rfl

/-- Such a stream has its old eventual view, with the changes of the step replayed. -/
theorem BroadcastInv.eventual_old {tr : List Event} {s : Server} (h : BroadcastInv tr s) {i : Nat}
    {st st' : PeerStream} (hi : s.streams[i]? = some st)
    {more : List (Except Status PeerListenerRsp)}
    (hl : st'.loaded = st.loaded ++ more) (evs : List Event) :
    st'.eventual (tr ++ evs) i = Change.replay (st.eventual tr i) (Signalling.changes evs) := by
  rw [PeerStream.eventual_eq, h.messages_old hi hl, changesOf_append, Change.replay_append]
  rfl

/-- After a step a stream is an old one that has perhaps handed out more, or it was subscribed
by the step. -/
theorem Moves.streams {evs : List Event} {s t : Server} {a : Action} (hm : s.Moves a t evs)
    {i : Nat} {st' : PeerStream} (hi : t.streams[i]? = some st') :
    (∃ st more, s.streams[i]? = some st ∧ st'.localId = st.localId ∧ (st'.Intact → st.Intact) ∧
      st'.loaded = st.loaded ++ more) ∨
      ∃ k order request initial, a = .advance k order ∧ i = s.streams.length ∧
        s.calls[k]? = some ⟨request, .subscribing st'.localId initial⟩ ∧
        st'.loaded = [.ok ⟨initial.map Change.add⟩] ∧ evs = [.subscribed k i] := by
  have hsame (hi : s.streams[i]? = some st') :
      ∃ st more, s.streams[i]? = some st ∧ st'.localId = st.localId ∧ (st'.Intact → st.Intact) ∧
        st'.loaded = st.loaded ++ more :=
    ⟨st', [], hi, rfl, id, (List.append_nil _).symm⟩
  have hset : ∀ {j : Nat} {st new : PeerStream} (more : List (Except Status PeerListenerRsp)),
      s.streams[j]? = some st → (s.streams.set j new)[i]? = some st' →
      new.localId = st.localId → (new.Intact → st.Intact) → new.loaded = st.loaded ++ more →
      ∃ st more, s.streams[i]? = some st ∧ st'.localId = st.localId ∧ (st'.Intact → st.Intact) ∧
        st'.loaded = st.loaded ++ more := by
    intro j st new more hj hi hid hint hl
    by_cases hij : j = i
    · subst hij
      rw [List.getElem?_set_self (List.getElem?_eq_some_iff.mp hj).1, Option.some.injEq] at hi
      subst hi
      exact ⟨st, more, hj, hid, hint, hl⟩
    · rw [List.getElem?_set_ne hij] at hi
      exact hsame hi
  cases hm with
  | @subscribe k order request id initial hk =>
    change (s.streams ++ [_])[i]? = some st' at hi
    by_cases hlt : i < s.streams.length
    · rw [List.getElem?_append_left hlt] at hi
      exact Or.inl (hsame hi)
    · have hi' : i = s.streams.length := by
        have := (List.getElem?_eq_some_iff.mp hi).1
        rw [List.length_append, List.length_singleton] at this
        omega
      subst hi'
      rw [List.getElem?_concat_length, Option.some.injEq] at hi
      subst hi
      exact Or.inr ⟨k, order, request, initial, rfl, rfl, hk, rfl, rfl⟩
  | @yieldInitial j st rsp hj ha hr =>
    refine Or.inl (hset [] hj hi rfl ?_ ?_)
    · rintro ⟨_, hok⟩
      rw [List.all_append, Bool.and_eq_true] at hok
      exact ⟨ha, hok.1⟩
    · simp [PeerStream.loaded, hr]
  | @yieldReceived j st received r item hj ha hr _ _ =>
    refine Or.inl (hset [item] hj hi rfl ?_ ?_)
    · rintro ⟨_, hok⟩
      simp only [List.all_append, Bool.and_eq_true] at hok
      exact ⟨ha, hok.1⟩
    · simp [PeerStream.loaded, hr]
  | @dropPeerStream j st hj ha =>
    refine Or.inl (hset [] hj hi rfl ?_ ?_)
    · rintro ⟨hdead, _⟩
      simp at hdead
    · simp [PeerStream.loaded]
  | announce _ | depart _ _ =>
    rw [streams_setPhase, streams_broadcastChange] at hi
    exact Or.inl (hsame hi)
  | _ => exact Or.inl (hsame hi)

/-- Nothing has been broadcast since a subscription that is just made. -/
theorem BroadcastInv.changesSince_new {tr : List Event} {s : Server} (h : BroadcastInv tr s)
    (k : Nat) : changesSince (tr ++ [.subscribed k s.streams.length]) s.streams.length = [] := by
  have hsub : SubscribedAt (tr ++ [.subscribed k s.streams.length]) s.streams.length
      (changeLog tr).length :=
    ⟨tr, k, [], rfl, fun k' hm => lt_irrefl _ (h.subscribed k' _ hm), rfl⟩
  rw [changesSince, messagesSince_eq hsub, changeLog_append, List.drop_left]
  rfl

/-- The eventual view of a stream after a step is its old one with the changes of the step
replayed, or its snapshot. -/
theorem Moves.eventual {tr evs : List Event} {s t : Server} {a : Action} (hm : s.Moves a t evs)
    (h : BroadcastInv tr s) {i : Nat} {st' : PeerStream} (hi : t.streams[i]? = some st') :
    (∃ st, s.streams[i]? = some st ∧ st'.localId = st.localId ∧ (st'.Intact → st.Intact) ∧
      st'.eventual (tr ++ evs) i =
        Change.replay (st.eventual tr i) (Signalling.changes evs)) ∨
      ∃ k order request initial, a = .advance k order ∧
        s.calls[k]? = some ⟨request, .subscribing st'.localId initial⟩ ∧
        st'.eventual (tr ++ evs) i = initial.toFinset ∧ Signalling.changes evs = [] := by
  rcases hm.streams hi with ⟨st, more, hst, hid, hint, hl⟩ | ⟨k, order, request, initial, rfl, rfl,
    hk, hl, rfl⟩
  · exact Or.inl ⟨st, hst, hid, hint, h.eventual_old hst hl evs⟩
  · refine Or.inr ⟨k, order, request, initial, rfl, hk, ?_, rfl⟩
    rw [PeerStream.eventual, h.changesSince_new, PeerStream.firstChanges, hl]
    change Change.replay ∅ (initial.map Change.add ++ []) = initial.toFinset
    rw [List.append_nil, Change.replay_adds, Finset.empty_union]

/-! ## Missed peers -/

/-- The phase of the call an action moves. -/
def phaseOf (s : Server) (a : Action) : Option Phase :=
  a.call.bind fun k => (s.calls[k]?).map Call.phase

end Server

/-- The listener and the snapshot of a subscription. -/
def Phase.subscribes : Phase → Option (Id × List Id)
  | .subscribing id initial => some (id, initial)
  | _ => none

namespace Server

/-- The peer that an arriving teardown names. -/
def Action.tornDown : Action → Option Id
  | .receive (.teardown localPeer) => localPeer
  | _ => none

/-- `advertise` has returned the identifier. -/
def Advertised (s : Server) (id : Id) : Prop :=
  ∃ c ∈ s.calls, c.phase = .done (.ok (.advertise (some id)))

instance (s : Server) (id : Id) : Decidable (s.Advertised id) :=
  inferInstanceAs (Decidable (∃ c ∈ s.calls, _))

/-- A teardown names an identifier that `advertise` has returned. -/
def NamesReturned (s : Server) (a : Action) : Prop := ∀ id ∈ a.tornDown, s.Advertised id

instance (s : Server) (a : Action) : Decidable (s.NamesReturned a) :=
  Option.decidableForallMem a.tornDown

/-- A listener subscribes only when its snapshot is not behind: every other peer in the map
is in the snapshot, or is still to be announced, or is on its way out. -/
def SubscribesInTime (s : Server) (a : Action) : Prop :=
  ∀ q ∈ (s.phaseOf a).bind Phase.subscribes, ∀ x ∈ s.peers.keys, x ≠ q.1 →
    x ∈ q.2 ∨ s.Announcing x ∨ s.Evicting x ∨ s.Removing x

instance (s : Server) (a : Action) : Decidable (s.SubscribesInTime a) :=
  letI _inTime (q : Id × List Id) : Decidable (∀ x ∈ s.peers.keys, x ≠ q.1 →
      x ∈ q.2 ∨ s.Announcing x ∨ s.Evicting x ∨ s.Removing x) := Finset.decidableDforallFinset
  Option.decidableForallMem ((s.phaseOf a).bind Phase.subscribes)

/-- Every peer in the map is in the eventual view of every other listener, or is still to
be announced, or is on its way out. -/
def CoverageInv (tr : List Event) (s : Server) : Prop :=
  ∀ (i : Nat) (st : PeerStream), s.streams[i]? = some st → ∀ x ∈ s.peers, x ≠ st.localId →
    x ∈ st.eventual tr i ∨ s.Announcing x ∨ s.Evicting x ∨ s.Removing x

/-- Every step that subscribes in time keeps the coverage. -/
theorem Moves.coverageInv {tr evs : List Event} {s t : Server} {a : Action} (hm : s.Moves a t evs)
    (h : BroadcastInv tr s) (hc : CoverageInv tr s) (ha : s.SubscribesInTime a) :
    CoverageInv (tr ++ evs) t := by
  intro i st' hi x hx hne
  rcases hm.keys hx with hold | hnew
  · have hflight : s.Announcing x ∨ s.Evicting x ∨ s.Removing x →
        Signalling.changes evs = [.add x] ∨ t.Announcing x ∨ t.Evicting x ∨ t.Removing x := by
      rintro (hann | hev | hrem)
      · rcases hm.announcing h hann with hann | hch
        · exact Or.inr (Or.inl hann)
        · exact Or.inl hch
      · rcases hm.evicting h hev with hev | ⟨hrem, _⟩
        · exact Or.inr (Or.inr (Or.inl hev))
        · exact Or.inr (Or.inr (Or.inr hrem))
      · rcases hm.removing hrem with hrem | hnot
        · exact Or.inr (Or.inr (Or.inr hrem))
        · exact absurd hx hnot
    rcases hm.eventual h hi with ⟨st, hst, hid, _, hev⟩ | ⟨k, order, request, initial, rfl, hk, hev,
      hch⟩
    · rw [hev]
      rcases hc i st hst x hold (hid ▸ hne) with hin | hbusy
      · rcases hm.changes h with hch | ⟨y, _, _, _, hch, _⟩ | ⟨y, hch, hrem⟩
        · rw [hch]
          exact Or.inl hin
        · rw [hch]
          exact Or.inl (Finset.mem_insert_of_mem hin)
        · by_cases hxy : x = y
          · rw [hxy]
            exact Or.inr (Or.inr (Or.inr hrem))
          · rw [hch]
            exact Or.inl (Finset.mem_erase.mpr ⟨hxy, hin⟩)
      · rcases hflight hbusy with hch | hbusy
        · rw [hch]
          exact Or.inl (Finset.mem_insert_self _ _)
        · exact Or.inr hbusy
    · have hq : (st'.localId, initial) ∈ (s.phaseOf (.advance k order)).bind Phase.subscribes := by
        simp [phaseOf, Action.call, hk, Phase.subscribes]
      rcases ha _ hq x (Finmap.mem_keys.mpr hold) hne with hin | hbusy
      · rw [hev]
        exact Or.inl (List.mem_toFinset.mpr hin)
      · rcases hflight hbusy with hadd | hbusy
        · rw [hch] at hadd
          simp at hadd
        · exact Or.inr hbusy
  · exact Or.inr (Or.inl hnew)

/-- No peer is missed: once no handler is mid-way, an open listener of an advertised peer
that has handed out everything and reported no loss shows every other peer in the map. -/
def NoMissedPeer (s : Server) : Prop :=
  s.Settled → ∀ (i : Nat) (st : PeerStream), s.streams[i]? = some st →
    s.Advertised st.localId → st.Intact → s.Drained i →
    ∀ x ∈ s.peers.keys, x ≠ st.localId → x ∈ st.view

/-- In every run whose teardowns name returned identifiers and whose listeners all subscribe
in time, no peer is missed. -/
theorem no_missed_peer {tr : List Event} {s : Server}
    (hr : server.Run (fun s a => s.NamesReturned a ∧ s.SubscribesInTime a) tr s) :
    NoMissedPeer s := by
  have hinv : CoverageInv tr s := by
    have hboth : BroadcastInv tr s ∧ CoverageInv tr s :=
      hr.invariant (I := fun tr s => BroadcastInv tr s ∧ CoverageInv tr s)
        ⟨broadcastInv (Machine.Run.init : server.Run Machine.Free [] server.init), by
          intro i st hi
          simp [server, Server.new] at hi⟩
        fun _ h ha hs => ⟨(step_moves hs).broadcastInv h.1,
          (step_moves hs).coverageInv h.1 h.2 ha.2⟩
    exact hboth.2
  intro hq i st hi _ hst hd x hx hne
  rw [(broadcastInv hr).view_eq hi hst hd]
  rcases hinv i st hi x (Finmap.mem_keys.mp hx) hne with hin | hann | hev | hrem
  · exact hin
  · exact absurd hann (hq.not_busy midway_of_announces)
  · exact absurd hev (hq.not_busy midway_of_evicts)
  · exact absurd hrem (hq.not_busy midway_of_removes)

/-- The listener of 0 subscribes before 1 advertises, and shows it. -/
theorem no_missed_peer_in_time : ∃ tr s, ∃ st : PeerStream,
    server.Run (fun s a => s.NamesReturned a ∧ s.SubscribesInTime a) tr s ∧
    s.streams[0]? = some st ∧ 1 ∈ st.view := by
  obtain ⟨tr, s, hr, hc⟩ := server.exec_reaches
    (fun s a => s.NamesReturned a ∧ s.SubscribesInTime a)
    (Action.handling .advertise 0 3 [] ++ Action.handling (.openPeerListener (some 0)) 1 2 [] ++
      Action.handling .advertise 2 3 [] ++ [.pollPeerStream 0, .pollPeerStream 0])
    (fun c => decide (c.1.Settled ∧ ∃ st : PeerStream, st ∈ c.1.streams[0]? ∧
      c.1.Advertised st.localId ∧ st.Intact ∧ c.1.Drained 0 ∧ 1 ∈ c.1.peers.keys ∧
      1 ≠ st.localId)) (by decide +kernel)
  obtain ⟨hq, st, hi, hadv, hst, hd, hx, hne⟩ := of_decide_eq_true hc
  exact ⟨tr, s, st, hr, hi, no_missed_peer hr hq 0 st hi hadv hst hd 1 hx hne⟩

/-- A peer that advertises between the snapshot and the subscription of a listener is missed
for good. -/
theorem missed_peer : ∃ tr s, server.Run NamesReturned tr s ∧ ¬ NoMissedPeer s := by
  obtain ⟨tr, s, hr, hc⟩ := server.exec_reaches NamesReturned
    (Action.handling .advertise 0 3 [] ++ Action.handling (.openPeerListener (some 0)) 1 1 [] ++
      Action.handling .advertise 2 3 [] ++ [.advance 1 [], .pollPeerStream 0])
    (fun c => decide (c.1.Settled ∧ ∃ st : PeerStream, st ∈ c.1.streams[0]? ∧
      c.1.Advertised st.localId ∧ st.Intact ∧ c.1.Drained 0 ∧ 1 ∈ c.1.peers.keys ∧
      1 ≠ st.localId ∧ 1 ∉ st.view))
    (by decide +kernel)
  obtain ⟨hq, st, hi, hadv, hst, hd, hx, hne, hmiss⟩ := of_decide_eq_true hc
  exact ⟨tr, s, hr, fun h => hmiss (h hq 0 st hi hadv hst hd 1 hx hne)⟩

/-! ## Ghosts -/

/-- No step brings a departing peer into a listener's sight: a snapshot that is subscribed,
and an addition that is broadcast while some listener is open and has lost nothing, are only
about peers that are in the map with no removal broadcast, or are still to be evicted. -/
def ShowsPresent (s : Server) (a : Action) : Prop :=
  (∀ q ∈ (s.phaseOf a).bind Phase.subscribes, ∀ x ∈ q.2,
      s.Evicting x ∨ (x ∈ s.peers.keys ∧ ¬ s.Removing x)) ∧
    ∀ x ∈ (s.phaseOf a).bind Phase.announces, (∃ st ∈ s.streams, st.Intact) →
      s.Evicting x ∨ (x ∈ s.peers.keys ∧ ¬ s.Removing x)

instance (s : Server) (a : Action) : Decidable (s.ShowsPresent a) :=
  letI _present (q : Id × List Id) : Decidable (∀ x ∈ q.2,
      s.Evicting x ∨ (x ∈ s.peers.keys ∧ ¬ s.Removing x)) := List.decidableBAll _ _
  @instDecidableAnd _ _ (Option.decidableForallMem ((s.phaseOf a).bind Phase.subscribes))
    (Option.decidableForallMem ((s.phaseOf a).bind Phase.announces))

/-- What the eventual view of an open listener shows is in the map with no removal broadcast,
or is still to be evicted. -/
def PresenceInv (tr : List Event) (s : Server) : Prop :=
  ∀ (i : Nat) (st : PeerStream), s.streams[i]? = some st → st.Intact → ∀ x ∈ st.eventual tr i,
    s.Evicting x ∨ (x ∈ s.peers ∧ ¬ s.Removing x)

/-- A peer that is present stays so until its removal is broadcast. -/
theorem Moves.present {tr evs : List Event} {s t : Server} {a : Action} (hm : s.Moves a t evs)
    (h : BroadcastInv tr s) {x : Id} (hx : s.Evicting x ∨ (x ∈ s.peers ∧ ¬ s.Removing x)) :
    (t.Evicting x ∨ (x ∈ t.peers ∧ ¬ t.Removing x)) ∨ Signalling.changes evs = [.remove x] := by
  rcases hx with hev | ⟨hmem, hnot⟩
  · rcases hm.evicting h hev with hev | ⟨_, hch⟩
    · exact Or.inl (Or.inl hev)
    · exact Or.inr hch
  · by_cases hrem : t.Removing x
    · rcases hm.removing_new h hrem with hold | hch
      · exact absurd hold hnot
      · exact Or.inr hch
    · rcases hm.keys_lost hmem with hmem | hold
      · exact Or.inl (Or.inr ⟨hmem, hrem⟩)
      · exact absurd hold hnot

/-- Every step that shows only present peers keeps the presence. -/
theorem Moves.presenceInv {tr evs : List Event} {s t : Server} {a : Action} (hm : s.Moves a t evs)
    (h : BroadcastInv tr s) (hp : PresenceInv tr s) (ha : s.ShowsPresent a) :
    PresenceInv (tr ++ evs) t := by
  intro i st' hi hint x hx
  rcases hm.eventual h hi with ⟨st, hst, _, hold, hev⟩ | ⟨k, order, request, initial, rfl, hk, hev,
    hch⟩
  · rw [hev] at hx
    have hshown : (s.Evicting x ∨ (x ∈ s.peers ∧ ¬ s.Removing x)) ∧
        Signalling.changes evs ≠ [.remove x] := by
      rcases hm.changes h with hch | ⟨y, k, order, request, hch, rfl, hk⟩ | ⟨y, hch, _⟩
      · rw [hch] at hx ⊢
        exact ⟨hp i st hst (hold hint) x hx, by simp⟩
      · rw [hch] at hx ⊢
        refine ⟨?_, by simp⟩
        rcases Change.mem_apply_add.mp hx with rfl | hx
        · have hy : x ∈ (s.phaseOf (.advance k order)).bind Phase.announces := by
            simp [phaseOf, Action.call, hk, Phase.announces]
          have hopen : ∃ st ∈ s.streams, st.Intact := ⟨st, List.mem_of_getElem? hst, hold hint⟩
          simpa only [Finmap.mem_keys] using ha.2 x hy hopen
        · exact hp i st hst (hold hint) x hx
      · rw [hch] at hx ⊢
        obtain ⟨hxy, hx⟩ := Change.mem_apply_remove.mp hx
        refine ⟨hp i st hst (hold hint) x hx, ?_⟩
        simpa using Ne.symm hxy
    exact (hm.present h hshown.1).resolve_right hshown.2
  · have hq : (st'.localId, initial) ∈ (s.phaseOf (.advance k order)).bind Phase.subscribes := by
      simp [phaseOf, Action.call, hk, Phase.subscribes]
    rw [hev] at hx
    have hshown := ha.1 _ hq x (List.mem_toFinset.mp hx)
    rw [Finmap.mem_keys] at hshown
    refine (hm.present h hshown).resolve_right ?_
    rw [hch]
    simp

/-- No ghost: once no handler is mid-way, an open listener that has handed out everything and
reported no loss shows only peers that are in the map. -/
def NoGhost (s : Server) : Prop :=
  s.Settled → ∀ (i : Nat) (st : PeerStream), s.streams[i]? = some st → st.Intact →
    s.Drained i → ∀ x ∈ st.view, x ∈ s.peers.keys

/-- In every run whose teardowns name returned identifiers and whose steps show only present
peers, no listener shows a ghost. -/
theorem no_ghost {tr : List Event} {s : Server}
    (hr : server.Run (fun s a => s.NamesReturned a ∧ s.ShowsPresent a) tr s) : NoGhost s := by
  have hinv : BroadcastInv tr s ∧ PresenceInv tr s :=
    hr.invariant (I := fun tr s => BroadcastInv tr s ∧ PresenceInv tr s)
      ⟨broadcastInv (Machine.Run.init : server.Run Machine.Free [] server.init), by
        intro i st hi
        simp [server, Server.new] at hi⟩
      fun _ h ha hs => ⟨(step_moves hs).broadcastInv h.1,
        (step_moves hs).presenceInv h.1 h.2 ha.2⟩
  intro hq i st hi hst hd x hx
  rw [hinv.1.view_eq hi hst hd] at hx
  rcases hinv.2 i st hi hst x hx with hev | ⟨hmem, _⟩
  · exact absurd hev (hq.not_busy midway_of_evicts)
  · exact Finmap.mem_keys.mpr hmem

/-- The listener of 0 has seen 1 come and go. -/
theorem no_ghost_torn_down : ∃ tr s, ∃ st : PeerStream,
    server.Run (fun s a => s.NamesReturned a ∧ s.ShowsPresent a) tr s ∧
    s.streams[0]? = some st ∧ st.items.length = 3 ∧ ∀ x ∈ st.view, x ∈ s.peers.keys := by
  obtain ⟨tr, s, hr, hc⟩ := server.exec_reaches
    (fun s a => s.NamesReturned a ∧ s.ShowsPresent a)
    (Action.handling .advertise 0 3 [] ++ Action.handling (.openPeerListener (some 0)) 1 2 [] ++
      Action.handling .advertise 2 3 [] ++ Action.handling (.teardown (some 1)) 3 2 [] ++
      List.replicate 3 (.pollPeerStream 0))
    (fun c => decide (c.1.Settled ∧ ∃ st : PeerStream,
      st ∈ c.1.streams[0]? ∧ st.Intact ∧ c.1.Drained 0 ∧
      st.items.length = 3)) (by decide +kernel)
  obtain ⟨hq, st, hi, hst, hd, hlen⟩ := of_decide_eq_true hc
  exact ⟨tr, s, st, hr, hi, hlen, no_ghost hr hq 0 st hi hst hd⟩

/-- A listener that takes its snapshot and subscribes between the broadcast of a removal and
the removal itself shows the removed peer for good. -/
theorem ghost : ∃ tr s, server.Run NamesReturned tr s ∧ ¬ NoGhost s := by
  obtain ⟨tr, s, hr, hc⟩ := server.exec_reaches NamesReturned
    (Action.handling .advertise 0 3 [] ++ Action.handling .advertise 1 3 [] ++
      Action.handling (.teardown (some 1)) 2 1 [] ++
      Action.handling (.openPeerListener (some 0)) 3 2 [1] ++ [.advance 2 [], .pollPeerStream 0])
    (fun c => decide (c.1.Settled ∧ ∃ st : PeerStream,
      st ∈ c.1.streams[0]? ∧ st.Intact ∧ c.1.Drained 0 ∧
      1 ∈ st.view ∧ 1 ∉ c.1.peers.keys)) (by decide +kernel)
  obtain ⟨hq, st, hi, hst, hd, hx, hnot⟩ := of_decide_eq_true hc
  exact ⟨tr, s, hr, fun h => hnot (h hq 0 st hi hst hd 1 hx)⟩

end Server

end JustWebrtc.Signalling
