import JustWebrtc.Signalling.Server.Identity
import JustWebrtc.Signalling.Server.Views

/-!
# Entries and snapshots

An entry stands from its insertion until a removal of its identifier. A listener's snapshot
is taken in one scope, travels with the handler, and becomes the first message of the
stream the handler returns. It lists every entry that stands while it is taken.
-/

namespace JustWebrtc.Signalling

/-- Call `k` has inserted an entry for the identifier, and none was removed since. -/
def Standing (tr : List Event) (k : Nat) (id : Id) : Prop :=
  ∃ before after, tr = before ++ .inserted k id :: after ∧ Event.removed id ∉ after

/-- An entry that stands after more events stood before, or was inserted by them. -/
theorem Standing.of_append {tr evs : List Event} {k : Nat} {id : Id}
    (h : Standing (tr ++ evs) k id) :
    (Standing tr k id ∧ Event.removed id ∉ evs) ∨ Event.inserted k id ∈ evs := by
  obtain ⟨before, after, he, hnot⟩ := h
  rcases List.append_eq_append_iff.mp he with ⟨mid, _, hevs⟩ | ⟨mid, htr, hevs⟩
  · rw [hevs]
    exact Or.inr (by simp)
  · cases mid with
    | nil =>
      rw [List.nil_append] at hevs
      rw [← hevs]
      exact Or.inr List.mem_cons_self
    | cons e mid =>
      rw [List.cons_append, List.cons.injEq] at hevs
      obtain ⟨rfl, rfl⟩ := hevs
      rw [List.mem_append, not_or] at hnot
      exact Or.inl ⟨⟨before, mid, htr, hnot.1⟩, hnot.2⟩

namespace Server

/-! ## Entries -/

/-- What stands is in the map, stands for one call, and that call is past its insertion. -/
structure EntriesInv (tr : List Event) (s : Server) : Prop where
  standing : ∀ k id, Standing tr k id → id ∈ s.peers
  single : ∀ k k' id, Standing tr k id → Standing tr k' id → k = k'
  inserted : ∀ k id, Event.inserted k id ∈ tr →
    s.At k (.announcing id) ∨ ∃ result, s.At k (.done result)

/-- An insertion is made by its own call, of an identifier that is not in the map. -/
theorem Moves.inserted {s t : Server} {a : Action} {evs : List Event} (hm : s.Moves a t evs)
    {k : Nat} {id : Id} (h : Event.inserted k id ∈ evs) :
    id ∉ s.peers ∧ id ∈ t.peers ∧ s.At k (.inserting id) ∧ t.At k (.announcing id) := by
  cases hm with
  | insert hk hmem =>
    rw [List.mem_singleton, Event.inserted.injEq] at h
    obtain ⟨rfl, rfl⟩ := h
    refine ⟨hmem, Finmap.mem_insert.mpr (Or.inl rfl), ⟨_, hk⟩, ?_⟩
    exact (at_setPhase (s := { s with peers := _ }) hk).mpr (Or.inl ⟨rfl, rfl⟩)
  | announce _ | depart _ _ => exact absurd h (not_mem_broadcastChange (by simp))
  | _ => simp at h

/-- An entry is lost only by its recorded removal. -/
theorem Moves.mem_peers {s t : Server} {a : Action} {evs : List Event} (hm : s.Moves a t evs)
    {id : Id} (h : id ∈ s.peers) (he : Event.removed id ∉ evs) : id ∈ t.peers := by
  cases hm with
  | insert _ _ | openListener _ _ _ _ => exact Finmap.mem_insert.mpr (Or.inr h)
  | @remove k order request id' caller _ _ =>
    refine Finmap.mem_erase.mpr ⟨?_, h⟩
    rintro rfl
    exact he (List.mem_singleton_self _)
  | announce _ | depart _ _ =>
    rw [peers_setPhase, peers_broadcastChange]
    exact h
  | _ => exact h

/-- A call that is past its insertion stays so. -/
theorem Moves.past_insertion {s t : Server} {a : Action} {evs : List Event} (hm : s.Moves a t evs)
    {k : Nat} {id : Id} (h : s.At k (.announcing id) ∨ ∃ result, s.At k (.done result)) :
    t.At k (.announcing id) ∨ ∃ result, t.At k (.done result) := by
  rcases h with ⟨request, hk⟩ | ⟨result, request, hk⟩
  · by_cases ha : a.call = some k
    · cases a with
      | advance k' order =>
        rw [Action.call, Option.some.injEq] at ha
        subst ha
        obtain ⟨rfl, _⟩ := hm.resumes hk
        refine Or.inr ⟨.ok (.advertise (some id)), ?_⟩
        exact (at_setPhase (by rw [calls_broadcastChange]; exact hk)).mpr (Or.inl ⟨rfl, rfl⟩)
      | _ => simp [Action.call] at ha
    · exact Or.inl ⟨request, hm.calls_of_ne hk ha⟩
  · exact Or.inr ⟨result, request, hm.done hk⟩

/-- Every step keeps the entries. -/
theorem Moves.entriesInv {tr evs : List Event} {s t : Server} {a : Action} (hm : s.Moves a t evs)
    (h : EntriesInv tr s) : EntriesInv (tr ++ evs) t := by
  refine ⟨fun k id hst => ?_, fun k k' id hst hst' => ?_, fun k id hins => ?_⟩
  · rcases hst.of_append with ⟨hold, hnot⟩ | hnew
    · exact hm.mem_peers (h.standing k id hold) hnot
    · exact (hm.inserted hnew).2.1
  · rcases hst.of_append with ⟨hold, _⟩ | hnew <;> rcases hst'.of_append with ⟨hold', _⟩ | hnew'
    · exact h.single k k' id hold hold'
    · exact absurd (h.standing k id hold) (hm.inserted hnew').1
    · exact absurd (h.standing k' id hold') (hm.inserted hnew).1
    · cases hm with
      | insert _ _ =>
        rw [List.mem_singleton, Event.inserted.injEq] at hnew hnew'
        rw [hnew.1, hnew'.1]
      | announce _ | depart _ _ => exact absurd hnew (not_mem_broadcastChange (by simp))
      | _ => simp at hnew
  · rcases List.mem_append.mp hins with hold | hnew
    · exact hm.past_insertion (h.inserted k id hold)
    · exact Or.inl (hm.inserted hnew).2.2.2

/-- The entries of a server after every run. -/
theorem entriesInv {ok : Server → Action → Prop} {tr : List Event} {s : Server}
    (hr : server.Run ok tr s) : EntriesInv tr s := by
  refine hr.invariant ⟨?_, ?_, by simp⟩ fun _ h _ hs => (step_moves hs).entriesInv h
  · rintro k id ⟨before, after, he, _⟩
    simp at he
  · rintro k k' id ⟨before, after, he, _⟩
    simp at he

/-! ## Snapshots -/

/-- The snapshot of `open_peer_listener` call `k`: it is about to subscribe with it, or its
stream hands it out first. -/
def Snapshot (s : Server) (k : Nat) (initial : List Id) : Prop :=
  (∃ id, s.At k (.subscribing id initial)) ∨
    ∃ i st rest, s.At k (.done (.ok (.openPeerListener i))) ∧ s.streams[i]? = some st ∧
      st.loaded = .ok ⟨initial.map Change.add⟩ :: rest

/-- No stream disappears. -/
theorem Moves.length_streams {s t : Server} {a : Action} {evs : List Event}
    (hm : s.Moves a t evs) : s.streams.length ≤ t.streams.length := by
  cases hm with
  | subscribe _ => simp [openPeerListenerSubscribe]
  | announce _ | depart _ _ => simp
  | yieldInitial _ _ _ | yieldReceived _ _ _ _ _ | dropPeerStream _ _ => simp
  | _ => exact le_rfl

/-- A stream stays where it is and only ever hands out more. -/
theorem Moves.stream_kept {s t : Server} {a : Action} {evs : List Event} (hm : s.Moves a t evs)
    {i : Nat} {st : PeerStream} (hi : s.streams[i]? = some st) :
    ∃ st' more, t.streams[i]? = some st' ∧ st'.localId = st.localId ∧
      st'.loaded = st.loaded ++ more := by
  have hlt := (List.getElem?_eq_some_iff.mp hi).1
  obtain ⟨st', hi'⟩ : ∃ st', t.streams[i]? = some st' :=
    ⟨_, List.getElem?_eq_getElem (hlt.trans_le hm.length_streams)⟩
  rcases hm.streams hi' with ⟨st₀, more, hst, hid, _, hl⟩ | ⟨_, _, _, _, _, rfl, _⟩
  · rw [hi, Option.some.injEq] at hst
    subst hst
    exact ⟨st', more, hi', hid, hl⟩
  · exact absurd hlt (lt_irrefl _)

/-- A call that has returned a stream opened it for its own peer, and the stream hands out a
snapshot without repetitions and without that peer. -/
def HandsOut (s : Server) : Prop :=
  ∀ (k : Nat) (request : Request) (i : Nat),
    s.calls[k]? = some ⟨request, .done (.ok (.openPeerListener i))⟩ →
    ∃ (st : PeerStream) (initial : List Id) (rest : List (Except Status PeerListenerRsp)),
      s.streams[i]? = some st ∧ request = .openPeerListener (some st.localId) ∧
      st.loaded = .ok ⟨initial.map Change.add⟩ :: rest ∧ initial.Nodup ∧ st.localId ∉ initial

/-- Every step keeps that. -/
theorem Moves.handsOut {tr evs : List Event} {s t : Server} {a : Action} (hm : s.Moves a t evs)
    (hb : BroadcastInv tr s) (hc : ∀ c ∈ s.calls, c.Consistent) (h : HandsOut s) :
    HandsOut t := by
  intro k request i hk
  rcases hm.enters (by simp) ⟨request, hk⟩ with ⟨_, request', hs⟩ |
    ⟨order, ⟨request', phase⟩, _, hs, id, initial, hp, rfl, ht⟩
  · obtain ⟨_, ht⟩ := hm.request hs
    rw [hk, Option.some.injEq, Call.mk.injEq] at ht
    obtain ⟨rfl, _⟩ := ht
    obtain ⟨st, initial, rest, hi, hr, hl, hnodup, hnot⟩ := h k request i hs
    obtain ⟨st', more, hi', hid, hl'⟩ := hm.stream_kept hi
    refine ⟨st', initial, rest ++ more, hi', by rw [hid]; exact hr, ?_, hnodup, by rwa [hid]⟩
    rw [hl', hl, List.cons_append]
  · simp only at hp
    subst hp
    obtain ⟨_, ht'⟩ := hm.request hs
    rw [hk, Option.some.injEq, Call.mk.injEq] at ht'
    obtain ⟨rfl, _⟩ := ht'
    obtain ⟨hnodup, hnot⟩ := hb.collected k id initial ⟨request, hs⟩
    have hi : (s.openPeerListenerSubscribe k id initial).1.streams[s.streams.length]? = some _ :=
      List.getElem?_concat_length
    rw [← ht] at hi
    exact ⟨_, initial, [], hi, hc _ (List.mem_of_getElem? hs), rfl, hnodup, hnot⟩

/-- A snapshot after a step was there before, or the step has taken it, of the whole map. -/
theorem Moves.snapshot {s t : Server} {a : Action} {evs : List Event} (hm : s.Moves a t evs)
    (h : HandsOut s) {k : Nat} {initial : List Id} (hs : t.Snapshot k initial) :
    s.Snapshot k initial ∨ ∃ order id, a = .advance k order ∧
      s.calls[k]? = some ⟨.openPeerListener (some id), .received⟩ ∧ s.Iterates id initial ∧
      t.At k (.subscribing id initial) := by
  rcases hs with ⟨id, hk⟩ | ⟨i, st, rest, hk, hi, hl⟩
  · rcases hm.enters (by simp) hk with ⟨_, hold⟩ | ⟨order, call, ha, hc, rfl, hit, _⟩
    · exact Or.inl (Or.inl ⟨id, hold⟩)
    · exact Or.inr ⟨order, id, ha, hc, hit, hk⟩
  · refine Or.inl ?_
    rcases hm.enters (by simp) hk with ⟨_, request, hold⟩ | ⟨order, ⟨request, phase⟩, _, hc, id,
      initial', hp, rfl, ht⟩
    · obtain ⟨st₀, initial₀, rest₀, hi₀, _, hl₀, _⟩ := h k request i hold
      obtain ⟨st', more, hi', _, hl'⟩ := hm.stream_kept hi₀
      rw [hi, Option.some.injEq] at hi'
      subst hi'
      refine Or.inr ⟨i, st₀, rest₀, ⟨request, hold⟩, hi₀, ?_⟩
      rw [hl', hl₀, List.cons_append, List.cons.injEq] at hl
      rw [hl₀, hl.1]
    · simp only at hp
      subst hp
      rw [ht] at hi
      have hst := (List.getElem?_concat_length (l := s.streams)).symm.trans hi
      rw [Option.some.injEq] at hst
      subst hst
      have hmap : initial'.map Change.add = initial.map Change.add := by
        simpa [PeerStream.loaded] using (List.cons.inj hl).1
      obtain rfl := Change.add_injective.list_map hmap
      exact Or.inl ⟨id, request, hc⟩

/-- What is taken as a snapshot lists every entry that stands, but its own peer's. -/
theorem EntriesInv.mem_snapshot {tr : List Event} {s : Server} (h : EntriesInv tr s) {id x : Id}
    {initial : List Id} (hi : s.Iterates id initial) {k : Nat} (hst : Standing tr k x)
    (hne : x ≠ id) : x ∈ initial := by
  have hmem : x ∈ s.peers.keys.erase id :=
    Finset.mem_erase.mpr ⟨hne, Finmap.mem_keys.mpr (h.standing k x hst)⟩
  rwa [← hi.2, List.mem_toFinset] at hmem

/-- A snapshot is in the phase of its call, or its stream begins with it. -/
theorem Snapshot.sources {s : Server} {k : Nat} {initial : List Id} {r : Id} {phase : Phase}
    (h : s.Snapshot k initial) (hk : s.calls[k]? = some ⟨.openPeerListener (some r), phase⟩)
    (hc : ∀ c ∈ s.calls, c.Consistent) (hout : s.HandsOut) :
    (∃ c ∈ s.calls, c.phase.subscribes = some (r, initial)) ∨
      ∃ st ∈ s.streams, st.localId = r ∧ st.firstChanges = initial.map Change.add := by
  rcases h with ⟨x, request, hs⟩ | ⟨i, st, rest, ⟨request, hs⟩, hi, hl⟩
  · have hmem := List.mem_of_getElem? hs
    have hreq := hc _ hmem
    rw [hk, Option.some.injEq, Call.mk.injEq] at hs
    simp only [Call.Consistent, ← hs.1, Request.openPeerListener.injEq, Option.some.injEq] at hreq
    exact Or.inl ⟨_, hmem, by rw [hreq]; rfl⟩
  · obtain ⟨st', initial', rest', hi', hreq, _⟩ := hout k request i hs
    rw [hi, Option.some.injEq] at hi'
    subst hi'
    rw [hk, Option.some.injEq, Call.mk.injEq] at hs
    rw [← hs.1, Request.openPeerListener.injEq, Option.some.injEq] at hreq
    refine Or.inr ⟨st, List.mem_of_getElem? hi, hreq.symm, ?_⟩
    rw [PeerStream.firstChanges, hl]
    rfl

/-- The streams of a server after every run. -/
theorem handsOut {ok : Server → Action → Prop} {tr : List Event} {s : Server}
    (hr : server.Run ok tr s) : HandsOut s := by
  refine hr.invariant (I := fun _ s => HandsOut s) ?_ ?_
  · intro k request i hk
    simp [server, Server.new] at hk
  · intro tr s a t evs hr h _ hs
    exact (step_moves hs).handsOut (broadcastInv hr) (consistent hr) h

/-- While the counter does not wrap, an identifier that `advertise` has returned is not
announced again. -/
theorem Moves.not_announced {tr evs : List Event} {s t : Server} {a : Action}
    (hm : s.Moves a t evs) (hb : BroadcastInv tr s) {n k : Nat} (h : IdentityInv n tr s) {id : Id}
    (hk : s.At k (.done (.ok (.advertise (some id))))) :
    Change.add id ∉ Signalling.changes evs := by
  rcases hm.changes hb with hch | ⟨x, k', _, request, hch, _, hann⟩ | ⟨x, hch, _⟩
  · simp [hch]
  · rw [hch, List.mem_singleton, Change.add.injEq]
    rintro rfl
    have hins := h.inserted k' id (h.announced k' id ⟨request, hann⟩)
    obtain ⟨_, hx, hins'⟩ := h.returned k _ hk
    rw [← Option.some.inj hx] at hins'
    obtain rfl := h.once k' k id hins (h.inserted k id hins')
    obtain ⟨_, hdone⟩ := hk
    rw [hann, Option.some.injEq, Call.mk.injEq] at hdone
    simp at hdone
  · simp [hch]

/-- The answer of a discovery leaves out the peer that asks. -/
theorem discover_excludes {ok : Server → Action → Prop} {tr : List Event} {s : Server}
    (hr : server.Run ok tr s) :
    ∀ (k : Nat) (id : Id) (remotePeers : List Id), s.calls[k]? =
      some ⟨.peerDiscover (some id), .done (.ok (.peerDiscover remotePeers))⟩ →
      id ∉ remotePeers := by
  refine hr.invariant (I := fun _ s => ∀ (k : Nat) (id : Id) (remotePeers : List Id),
    s.calls[k]? = some ⟨.peerDiscover (some id), .done (.ok (.peerDiscover remotePeers))⟩ →
      id ∉ remotePeers) (by simp [server, Server.new]) ?_
  intro tr s a t evs _ h _ hs k id remotePeers hk
  have hm := step_moves hs
  rcases hm.enters (by simp) ⟨_, hk⟩ with ⟨hne, request, hold⟩ |
    ⟨order, call, rfl, hcall, id', rfl, hit, _⟩
  · have hsame := hm.calls_of_ne hold hne
    rw [hk, Option.some.injEq, Call.mk.injEq] at hsame
    rw [← hsame.1] at hold
    exact h k id remotePeers hold
  · obtain ⟨_, hreq⟩ := hm.request hcall
    rw [hk, Option.some.injEq, Call.mk.injEq, Request.peerDiscover.injEq, Option.some.injEq] at hreq
    obtain ⟨rfl, _⟩ := hreq
    intro hin
    rw [← List.mem_toFinset, hit.2] at hin
    exact Finset.notMem_erase _ _ hin

end Server

end JustWebrtc.Signalling
