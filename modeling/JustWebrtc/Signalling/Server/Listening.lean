import JustWebrtc.Signalling.Server.Snapshots

/-!
# Peers that listen

Where no stream is dropped and no teardown requested, the server removes no entry and keeps all
that it has handed out. A signal is then refused only by a full buffer, or because its addressee
has not opened its listener yet. Who is in the map while a listener takes its snapshot is in
that snapshot.
-/

namespace JustWebrtc.Signalling

/-- The request is a teardown. -/
def Request.tearsDown : Request → Bool
  | .teardown _ => true
  | _ => false

/-- The handler is tearing a peer down. -/
def Phase.departs : Phase → Bool
  | .evicting _ _ | .removing _ _ => true
  | _ => false

namespace Server

/-- A stream that has been handed out is dropped. -/
def Action.drops : Action → Bool
  | .dropPeerStream _ | .dropChannel _ => true
  | _ => false

/-- A teardown is requested. -/
def Action.tearsDown : Action → Bool
  | .receive request => request.tearsDown
  | _ => false

/-- All streams and channels exist, and no peer is being torn down. -/
structure Kept (s : Server) : Prop where
  streams : ∀ st ∈ s.streams, st.alive = true
  channels : ∀ sc ∈ s.channels, sc.channel.receiverAlive = true
  calls : ∀ call ∈ s.calls, call.request.tearsDown = false ∧ call.phase.departs = false

/-- The peer has an entry with an open channel for the slot. -/
def Listens (s : Server) (slot : Slot) (id : Id) : Prop :=
  ((s.peers.lookup id).bind fun peer => peer.tx slot).isSome = true

instance (s : Server) (slot : Slot) (id : Id) : Decidable (s.Listens slot id) :=
  inferInstanceAs (Decidable (_ = true))

theorem listens_iff {s : Server} {slot : Slot} {id : Id} :
    s.Listens slot id ↔ ∃ peer c, s.peers.lookup id = some peer ∧ peer.tx slot = some c := by
  rw [Listens, Option.isSome_iff_exists]
  simp only [Option.bind_eq_some_iff]
  exact exists_comm

/-- A peer that listens has an entry. -/
theorem Listens.mem {s : Server} {slot : Slot} {id : Id} (h : s.Listens slot id) :
    id ∈ s.peers := by
  obtain ⟨peer, _, hp, _⟩ := listens_iff.mp h
  exact Finmap.mem_of_lookup_eq_some hp

/-- Moving a call to a phase that tears nothing down leaves nobody being torn down. -/
theorem Kept.setPhase {s u : Server} (h : s.Kept) {k : Nat} {call : Call} {phase : Phase}
    (hu : u.calls = s.calls) (hk : s.calls[k]? = some call) (hp : phase.departs = false) :
    ∀ call ∈ (u.setPhase k phase).calls,
      call.request.tearsDown = false ∧ call.phase.departs = false := by
  intro c hc
  obtain ⟨j, hj⟩ := List.mem_iff_getElem?.mp hc
  rcases calls_setPhase_cases hu hk hj with ⟨_, rfl⟩ | ⟨_, hj⟩
  · exact ⟨(h.calls call (List.mem_of_getElem? hk)).1, hp⟩
  · exact h.calls c (List.mem_of_getElem? hj)

/-- Without drops and teardowns nothing is lost: everything is kept, and no entry is removed. -/
theorem Moves.kept {s t : Server} {a : Action} {evs : List Event} (hm : s.Moves a t evs)
    (hdrop : a.drops = false) (hdown : a.tearsDown = false) (h : s.Kept) :
    t.Kept ∧ ∀ id, Event.removed id ∉ evs := by
  have hset {α : Type} {P : α → Prop} {l : List α} {n : Nat} {old new : α}
      (hl : ∀ x ∈ l, P x) (hn : l[n]? = some old) (hnew : P old → P new) :
      ∀ x ∈ l.set n new, P x := by
    intro x hx
    rcases List.mem_or_eq_of_mem_set hx with hx | rfl
    · exact hl x hx
    · exact hnew (hl old (List.mem_of_getElem? hn))
  have hgone {call : Call} {k : Nat} (hk : s.calls[k]? = some call) :=
    h.calls call (List.mem_of_getElem? hk)
  cases hm with
  | receive request =>
    refine ⟨⟨h.streams, h.channels, fun call hc => ?_⟩, by simp⟩
    rcases List.mem_append.mp hc with hc | hc
    · exact h.calls call hc
    · rw [List.mem_singleton.mp hc]
      exact ⟨hdown, rfl⟩
  | generate hk | duplicate hk _ | insert hk _ | respond hk _ | collect hk _ =>
    exact ⟨⟨h.streams, h.channels, h.setPhase rfl hk rfl⟩, by simp⟩
  | announce hk =>
    refine ⟨⟨by simpa using h.streams, by simpa using h.channels, h.setPhase (by simp) hk rfl⟩, ?_⟩
    exact fun id => not_mem_broadcastChange (by simp)
  | depart hk hd =>
    have hno := hgone hk
    cases hd <;> simp [Request.tearsDown, Phase.departs] at hno
  | remove hk _ =>
    have hno := hgone hk
    simp [Phase.departs] at hno
  | subscribe hk =>
    refine ⟨⟨fun st hst => ?_, h.channels, h.setPhase rfl hk rfl⟩, by simp⟩
    rcases List.mem_append.mp hst with hst | hst
    · exact h.streams st hst
    · rw [List.mem_singleton.mp hst]
  | accept hk _ _ hsc hsend =>
    refine ⟨⟨h.streams, ?_, h.setPhase rfl hk rfl⟩, by simp⟩
    exact hset h.channels hsc fun _ => (Channel.trySend_ok hsend).2.2.2
  | disconnect hk _ _ hsc hsend =>
    have halive := h.channels _ (List.mem_of_getElem? hsc)
    rcases Channel.trySend_error hsend with ⟨_, hdead⟩ | ⟨hfull, _⟩
    · simp [halive] at hdead
    · simp at hfull
  | openListener hk _ _ hsend =>
    refine ⟨⟨h.streams, fun sc hsc => ?_, h.setPhase rfl hk rfl⟩, by simp⟩
    rcases List.mem_append.mp hsc with hsc | hsc
    · exact h.channels sc hsc
    · rw [List.mem_singleton.mp hsc]
      exact (Channel.trySend_ok hsend).2.2.2
  | yieldInitial hst _ _ | yieldReceived hst _ _ _ _ =>
    exact ⟨⟨hset h.streams hst fun halive => halive, h.channels, h.calls⟩, by simp⟩
  | pollChannel hsc hn =>
    refine ⟨⟨h.streams, hset h.channels hsc fun halive => ?_, h.calls⟩, by simp⟩
    exact (Channel.next_some hn).2.1.trans halive
  | dropPeerStream _ _ | dropChannel _ => simp [Action.drops] at hdrop

/-! ## Refused signals -/

/-- A call that carries a signal fails only by a full buffer, or because the addressee does not
listen, while nothing is lost. -/
theorem Moves.refused {s t : Server} {a : Action} {evs : List Event} (hm : s.Moves a t evs)
    (h : s.Kept) (hc : ∀ c ∈ s.calls, c.Consistent) {k : Nat} {slot : Slot} {id : Id}
    {sig : Signal} {phase : Phase} {status : Status}
    (hk : s.calls[k]? = some ⟨.signal slot (some id) (some sig), phase⟩)
    (ht : t.At k (.done (.error status))) :
    s.At k (.done (.error status)) ∨ status = Status.bufferFull slot ∨
      ∃ order, a = .advance k order ∧ phase = .received ∧ ¬ s.Listens slot id := by
  rcases hm.enters (by simp) ht with ⟨_, hold⟩ | ⟨order, call, rfl, hcall, he⟩
  · exact Or.inl hold
  · refine Or.inr ?_
    rw [hk, Option.some.injEq] at hcall
    subst hcall
    have hmem := List.mem_of_getElem? hk
    rcases he with hr | ⟨x, hp, _⟩ | ⟨x, slot', hp, _⟩
    · cases hr with
      | removeAbsent _ => simpa [Phase.departs] using (h.calls _ hmem).2
      | remoteNotAdvertised hl =>
        refine Or.inr ⟨order, rfl, rfl, fun hlisten => ?_⟩
        obtain ⟨peer, c, hp, _⟩ := listens_iff.mp hlisten
        simp [hl] at hp
      | remoteNotListening hl hnone =>
        refine Or.inr ⟨order, rfl, rfl, fun hlisten => ?_⟩
        obtain ⟨peer, c, hp, htx⟩ := listens_iff.mp hlisten
        rw [hl, Option.some.injEq] at hp
        rw [← hp, hnone] at htx
        simp at htx
      | bufferFull _ _ _ _ => exact Or.inl rfl
    · have hcons := hc _ hmem
      simp only at hp
      subst hp
      simp [Call.Consistent] at hcons
    · simp only at hp
      have hno := (h.calls _ hmem).2
      simp [hp, Phase.departs] at hno

/-! ## Listed peers -/

/-- Every snapshot that has been taken for a listener of `r` lists `id`. -/
def Lists (s : Server) (r id : Id) : Prop :=
  (∀ c ∈ s.calls, ∀ q ∈ c.phase.subscribes, q.1 = r → id ∈ q.2) ∧
    ∀ st ∈ s.streams, st.localId = r → Change.add id ∈ st.firstChanges

instance (s : Server) (r id : Id) : Decidable (s.Lists r id) :=
  letI _calls (c : Call) : Decidable (∀ q ∈ c.phase.subscribes, q.1 = r → id ∈ q.2) :=
    Option.decidableForallMem c.phase.subscribes
  letI _listed : Decidable (∀ c ∈ s.calls, ∀ q ∈ c.phase.subscribes, q.1 = r → id ∈ q.2) :=
    List.decidableBAll _ _
  inferInstanceAs (Decidable (_ ∧ ∀ st ∈ s.streams, _))

/-- A snapshot of a call lists what all snapshots of its peer list. -/
theorem Lists.mem {s : Server} {r id : Id} (h : s.Lists r id) {k : Nat} {initial : List Id}
    {phase : Phase} (hs : s.Snapshot k initial)
    (hk : s.calls[k]? = some ⟨.openPeerListener (some r), phase⟩)
    (hc : ∀ c ∈ s.calls, c.Consistent) (hout : s.HandsOut) : id ∈ initial := by
  rcases hs.sources hk hc hout with ⟨c, hmem, hsub⟩ | ⟨st, hmem, hst, hfirst⟩
  · exact h.1 c hmem (r, initial) hsub rfl
  · have hin := h.2 st hmem hst
    rwa [hfirst, List.mem_map_of_injective Change.add_injective] at hin

/-- While a peer is in the map, every further snapshot of another peer lists it. -/
theorem Moves.lists {s t : Server} {a : Action} {evs : List Event} (hm : s.Moves a t evs)
    {r id : Id} (hid : id ∈ s.peers) (hne : id ≠ r) (h : s.Lists r id) : t.Lists r id := by
  refine ⟨fun c hcall q hq hr => ?_, fun st' hst hr => ?_⟩
  · obtain ⟨k, hk⟩ := List.mem_iff_getElem?.mp hcall
    obtain ⟨request, phase⟩ := c
    cases phase with
    | subscribing x initial =>
      obtain rfl := Option.some.inj hq
      obtain rfl : x = r := hr
      rcases hm.enters (by simp) ⟨request, hk⟩ with ⟨_, request', hold⟩ | ⟨_, _, _, _, rfl, hit, _⟩
      · exact h.1 _ (List.mem_of_getElem? hold) _ rfl rfl
      · rw [← List.mem_toFinset, hit.2]
        exact Finset.mem_erase.mpr ⟨hne, Finmap.mem_keys.mpr hid⟩
    | _ => simp [Phase.subscribes] at hq
  · obtain ⟨i, hi⟩ := List.mem_iff_getElem?.mp hst
    rcases hm.streams hi with ⟨st, more, hold, hlocal, _, hl⟩ |
      ⟨k, order, request, initial, _, _, hk, hl, _⟩
    · have hin := h.2 st (List.mem_of_getElem? hold) (hlocal.symm.trans hr)
      rw [PeerStream.firstChanges] at hin ⊢
      cases hhead : st.loaded.head? with
      | none => simp [hhead] at hin
      | some item =>
        rw [hl, List.head?_append, hhead, Option.some_or]
        rwa [hhead] at hin
    · have hin := h.1 _ (List.mem_of_getElem? hk) _ rfl hr
      rw [PeerStream.firstChanges, hl]
      exact List.mem_map.mpr ⟨id, hin, rfl⟩

end Server

end JustWebrtc.Signalling
