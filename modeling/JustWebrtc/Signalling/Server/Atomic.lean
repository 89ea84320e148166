import JustWebrtc.Signalling.Server.Snapshots

/-!
# Handlers that run to completion

On a single thread a handler goes on only while no other handler is mid-way. The change log
is then in step with the map: replayed on a peer's place in it, the changes of a step give its
place after the step. So what a listener is to see in the end is what is in the map, and so
is the answer of a discovery with everything replayed that the listener has not seen yet.
-/

namespace JustWebrtc.Signalling

namespace Server

/-- A handler goes on only while no other handler is mid-way. -/
def Alone (s : Server) (a : Action) : Prop :=
  ∀ k ∈ a.call, ∀ c ∈ s.calls.eraseIdx k, c.phase.midway = false

instance (s : Server) (a : Action) : Decidable (s.Alone a) :=
  inferInstanceAs (Decidable (∀ k ∈ a.call, ∀ c ∈ s.calls.eraseIdx k, _))

/-- The peer is in the map, its addition has been broadcast and its removal has not. -/
def Shown (s : Server) (x : Id) : Prop := x ∈ s.peers ∧ ¬ s.Announcing x ∧ ¬ s.Removing x

/-- In a settled server the shown peers are those in the map. -/
theorem Settled.shown {s : Server} (h : s.Settled) (x : Id) : s.Shown x ↔ x ∈ s.peers :=
  and_iff_left ⟨h.not_busy midway_of_announces, h.not_busy midway_of_removes⟩

section

variable {s u t : Server} {k : Nat} {order : List Id} {call : Call} {phase : Phase}
  {f : Phase → Option Id} {x : Id} {a : Action} {evs tr : List Event}

/-- While a handler is alone, no other call is mid-way. -/
theorem Alone.others (h : s.Alone (.advance k order)) {j : Nat} {c : Call} (hj : j ≠ k)
    (hc : s.calls[j]? = some c) : c.phase.midway = false :=
  h k rfl c (List.mem_eraseIdx_iff_getElem?.mpr ⟨j, hj, hc⟩)

/-- While a handler is alone, the server is busy with what that handler is about. -/
theorem Alone.busy (h : s.Alone (.advance k order)) (hk : s.calls[k]? = some call)
    (hf : ∀ phase, f phase ≠ none → phase.midway = true) : s.Busy f x ↔ f call.phase = some x := by
  constructor
  · rintro ⟨c, hc, hx⟩
    obtain ⟨j, hj⟩ := List.getElem?_of_mem hc
    by_cases hjk : j = k
    · rw [hjk, hk, Option.some.injEq] at hj
      rw [hj]
      exact hx
    · have hmid := hf c.phase (by rw [hx]; simp)
      rw [h.others hjk hj] at hmid
      simp at hmid
  · intro hx
    exact ⟨call, List.mem_of_getElem? hk, hx⟩

/-- After its step, the server is busy with what its next phase is about. -/
theorem Alone.busy_setPhase (h : s.Alone (.advance k order)) (hk : s.calls[k]? = some call)
    (hu : u.calls = s.calls) (hf : ∀ phase, f phase ≠ none → phase.midway = true) :
    (u.setPhase k phase).Busy f x ↔ f phase = some x := by
  constructor
  · rintro ⟨c, hc, hx⟩
    obtain ⟨j, hj⟩ := List.getElem?_of_mem hc
    rcases calls_setPhase_cases hu hk hj with ⟨_, rfl⟩ | ⟨hjk, hj⟩
    · exact hx
    · have hmid := hf c.phase (by rw [hx]; simp)
      rw [h.others hjk hj] at hmid
      simp at hmid
  · exact busy_setPhase_self hu hk

/-- What a handler that is alone knows: the entry it announces is in the map, and the snapshot
it subscribes with is the map. -/
structure AtomicInv (s : Server) : Prop where
  announced : ∀ k x, s.At k (.announcing x) → x ∈ s.peers
  collected : ∀ k id initial, s.At k (.subscribing id initial) →
    initial.toFinset = s.peers.keys.erase id

/-- A phase that is mid-way outlasts only steps that leave the map alone. -/
theorem Alone.peers_frame (ha : s.Alone a) (hm : s.Moves a t evs) (hne : a.call ≠ some k)
    (hk : s.At k phase) (hmid : phase.midway = true) : t.peers = s.peers := by
  cases hcall : a.call with
  | none => exact hm.peers_idle hcall
  | some j =>
    obtain ⟨request, hk⟩ := hk
    have hjk : k ≠ j := by
      rintro rfl
      exact hne hcall
    have hnot := ha j hcall _ (List.mem_eraseIdx_iff_getElem?.mpr ⟨k, hjk, hk⟩)
    rw [hmid] at hnot
    simp at hnot

/-- Every step of a handler that is alone keeps what it knows. -/
theorem Moves.atomicInv (hm : s.Moves a t evs) (ha : s.Alone a) (h : AtomicInv s) :
    AtomicInv t := by
  constructor
  · intro k x hk
    rcases hm.enters (by simp) hk with ⟨hne, hold⟩ | ⟨order, call, _, _, _, _, rfl⟩
    · rw [ha.peers_frame hm hne hold rfl]
      exact h.announced k x hold
    · exact (hm.inserted (List.mem_singleton_self _)).2.1
  · intro k id initial hk
    rcases hm.enters (by simp) hk with ⟨hne, hold⟩ | ⟨order, call, _, _, _, hit, hpeers⟩
    · rw [ha.peers_frame hm hne hold rfl]
      exact h.collected k id initial hold
    · rw [hpeers]
      exact hit.2

/-- The changes that a step broadcasts, replayed on a peer's place, give its place after it. -/
theorem Moves.shown (hm : s.Moves a t evs) (hb : BroadcastInv tr s) (ha : s.Alone a)
    (h : AtomicInv s) {S : Finset Id} (hS : x ∈ S ↔ s.Shown x) :
    x ∈ Change.replay S (Signalling.changes evs) ↔ t.Shown x := by
  -- a handler's step, by the phases around it and by what it does to the map
  have key : ∀ {k : Nat} {order : List Id} {call : Call} {phase : Phase} {u : Server},
      s.Alone (.advance k order) → s.calls[k]? = some call → u.calls = s.calls →
      ((x ∈ S ↔ x ∈ s.peers ∧ call.phase.announces ≠ some x ∧ call.phase.removes ≠ some x) →
        (x ∈ Change.replay S (Signalling.changes evs) ↔
          x ∈ u.peers ∧ phase.announces ≠ some x ∧ phase.removes ≠ some x)) →
      (x ∈ Change.replay S (Signalling.changes evs) ↔ (u.setPhase k phase).Shown x) := by
    intro k order call phase u hal hk hu hstep
    rw [Shown, Announcing, Removing, hal.busy hk midway_of_announces,
      hal.busy hk midway_of_removes] at hS
    rw [Shown, Announcing, Removing, hal.busy_setPhase hk hu midway_of_announces,
      hal.busy_setPhase hk hu midway_of_removes]
    exact hstep hS
  cases hm with
  | receive request =>
    have hbusy {f : Phase → Option Id} (hf : f .received = none) :
        ({ s with calls := s.calls ++ [⟨request, .received⟩] } : Server).Busy f x ↔
          s.Busy f x := by
      simp [Busy, List.mem_append, or_and_right, exists_or, hf]
    rw [Shown, Announcing, Removing, hbusy rfl, hbusy rfl]
    exact hS
  | generate hk | duplicate hk _ | collect hk _ | accept hk _ _ _ _ | disconnect hk _ _ _ _ =>
    refine key ha hk rfl fun hS => hS.trans ?_
    simp [Phase.announces, Phase.removes]
  | subscribe hk =>
    refine key ha hk rfl fun hS => hS.trans ?_
    simp only [Phase.announces, Phase.removes]
    exact Iff.rfl
  | @openListener k order slot id peer channel hk hp _ _ =>
    refine key ha hk rfl fun hS => hS.trans ?_
    have hmem : x = id → x ∈ s.peers := by
      rintro rfl
      exact Finmap.mem_of_lookup_eq_some hp
    simp only [Phase.announces, Phase.removes, Finmap.mem_insert]
    grind
  | @insert k order request id hk hmem =>
    refine key ha hk rfl fun hS => hS.trans ?_
    have hne : x ∈ s.peers → id ≠ x := by
      rintro hx rfl
      exact hmem hx
    simp only [Phase.announces, Phase.removes, Finmap.mem_insert, ne_eq, reduceCtorEq,
      not_false_eq_true, Option.some.injEq, and_true]
    grind
  | @announce k order request id hk =>
    refine key ha hk (by simp) fun hS => ?_
    rw [changes_broadcastChange hb, Change.replay_cons, Change.replay_nil, Change.mem_apply_add, hS]
    have hmem : x = id → x ∈ s.peers := by
      rintro rfl
      exact h.announced k x ⟨_, hk⟩
    simp only [Phase.announces, Phase.removes, peers_broadcastChange, ne_eq, reduceCtorEq,
      not_false_eq_true, Option.some.injEq, and_true]
    grind
  | @depart k order call id caller hk hd =>
    refine key ha hk (by simp) fun hS => ?_
    rw [changes_broadcastChange hb, Change.replay_cons, Change.replay_nil, Change.mem_apply_remove,
      hS]
    have hphase : call.phase.announces = none ∧ call.phase.removes = none := by
      cases hd <;> exact ⟨rfl, rfl⟩
    rw [hphase.1, hphase.2]
    simp only [Phase.announces, Phase.removes, peers_broadcastChange, ne_eq, reduceCtorEq,
      not_false_eq_true, Option.some.injEq, true_and, and_true]
    grind
  | @remove k order request id caller hk _ =>
    refine key ha hk rfl fun hS => hS.trans ?_
    simp only [Phase.announces, Phase.removes, Finmap.mem_erase, ne_eq, reduceCtorEq,
      not_false_eq_true, Option.some.injEq, true_and, and_true]
    grind
  | @respond k order call result hk hr =>
    refine key ha hk rfl fun hS => hS.trans ?_
    cases hr with
    | @removeAbsent request id caller hmem =>
      have hne : x ∈ s.peers → id ≠ x := by
        rintro hx rfl
        exact hmem hx
      simp only [Phase.announces, Phase.removes, ne_eq, reduceCtorEq, not_false_eq_true,
        Option.some.injEq, true_and, and_true]
      grind
    | _ => simp [Phase.announces, Phase.removes]
  | _ => exact hS

/-! ## What listeners are to see -/

/-- Every listener is to see, of the other peers, those that are shown. -/
def ViewsInv (tr : List Event) (s : Server) : Prop :=
  ∀ (i : Nat) (st : PeerStream), s.streams[i]? = some st → ∀ x, x ≠ st.localId →
    (x ∈ st.eventual tr i ↔ s.Shown x)

/-- Every step of a handler that is alone keeps that. -/
theorem Moves.viewsInv (hm : s.Moves a t evs) (hb : BroadcastInv tr s) (ha : s.Alone a)
    (h : AtomicInv s) (hv : ViewsInv tr s) : ViewsInv (tr ++ evs) t := by
  intro i st' hi x hx
  rcases hm.eventual hb hi with ⟨st, hst, hid, _, hev⟩ | ⟨k, order, request, initial, rfl, hk, hev,
    hch⟩
  · rw [hev]
    exact hm.shown hb ha h (hv i st hst x (hid ▸ hx))
  · have hshown := (hm.shown (x := x) (S := s.peers.keys) hb ha h ?_).symm
    · rw [hshown, hch, hev, h.collected k _ _ ⟨request, hk⟩, Change.replay_nil]
      exact Finset.mem_erase.trans (and_iff_right hx)
    · rw [Shown, Announcing, Removing, ha.busy hk midway_of_announces, ha.busy hk midway_of_removes]
      simp [Phase.announces, Phase.removes, Finmap.mem_keys]

/-- What a handler knows and what the listeners are to see, after every run of handlers that
run to completion. -/
theorem viewsInv (hr : server.Run Alone tr s) : AtomicInv s ∧ ViewsInv tr s := by
  refine hr.invariant (I := fun tr s => AtomicInv s ∧ ViewsInv tr s) ?_ ?_
  · refine ⟨⟨?_, ?_⟩, ?_⟩
    · rintro k x ⟨request, hk⟩
      simp [server, Server.new] at hk
    · rintro k id initial ⟨request, hk⟩
      simp [server, Server.new] at hk
    · intro i st hi
      simp [server, Server.new] at hi
  · intro tr s a t evs hr h ha hs
    exact ⟨(step_moves hs).atomicInv ha h.1, (step_moves hs).viewsInv (broadcastInv hr) ha h.1 h.2⟩

end

end Server

/-! ## What a reader has still to see -/

/-- The changes that a reader of stream `i` has not seen after its first `n` messages. -/
def PeerStream.unread (tr : List Event) (i n : Nat) (st : PeerStream) : List PeerChange :=
  changesOf ((st.messages tr i).drop n)

namespace Server

section

variable {s t : Server} {i n : Nat} {st : PeerStream} {D : Finset Id} {a : Action}
  {evs tr : List Event} {m : PeerListenerRsp}

/-- What a stream that lost nothing has handed out as its item `n` is its message `n`. -/
theorem BroadcastInv.message (h : BroadcastInv tr s) (hi : s.streams[i]? = some st)
    (hst : st.Intact) (hm : st.items[n]? = some (.ok m)) :
    (st.messages tr i)[n]? = some m := by
  have hlt := (List.getElem?_eq_some_iff.mp hm).1
  rw [h.items_take hi hst, List.getElem?_map, Option.map_eq_some_iff] at hm
  obtain ⟨m', hm, hok⟩ := hm
  rw [List.getElem?_take_of_lt hlt, Except.ok.inj hok] at hm
  exact hm

/-- After the first one, every message that a stream has handed out carries one change, which
was broadcast after its subscription. -/
theorem BroadcastInv.single (h : BroadcastInv tr s) (hlog : ∀ m ∈ changeLog tr, ∃ c, m = ⟨[c]⟩)
    (hi : s.streams[i]? = some st) (hm : st.items[n + 1]? = some (.ok m)) :
    ∃ c, m = ⟨[c]⟩ ∧ c ∈ changesSince tr i := by
  obtain ⟨start, initial, rest, pos, w⟩ := (h.streams i st hi).walk
  have hlt := (List.getElem?_eq_some_iff.mp hm).1
  have hl : st.loaded[n + 1]? = some (.ok m) := by
    rw [PeerStream.loaded, List.getElem?_append_left hlt]
    exact hm
  rw [w.loaded, List.getElem?_cons_succ] at hl
  have hsince := w.follows.mem (List.mem_map.mpr ⟨_, List.mem_of_getElem? hl, rfl⟩)
  obtain ⟨c, rfl⟩ := hlog m (List.mem_of_mem_drop hsince)
  refine ⟨c, rfl, ?_⟩
  rw [changesSince, messagesSince_eq w.subscribed]
  exact List.mem_flatMap.mpr ⟨_, hsince, List.mem_singleton_self c⟩

/-- A reader of stream `i` that has taken `n` messages, and has the peers `D` from them, ends
up with the shown peers once it has replayed all it has not seen. -/
def Reads (tr : List Event) (s : Server) (i n : Nat) (D : Finset Id) : Prop :=
  ∃ st, s.streams[i]? = some st ∧ (st.Intact → n ≤ (st.messages tr i).length ∧
    ∀ x, x ≠ st.localId → (x ∈ Change.replay D (st.unread tr i n) ↔ s.Shown x))

/-- Every step of a handler that is alone keeps its readers right. -/
theorem Moves.reads (hm : s.Moves a t evs) (hb : BroadcastInv tr s) (ha : s.Alone a)
    (h : AtomicInv s) (hr : s.Reads tr i n D) : t.Reads (tr ++ evs) i n D := by
  obtain ⟨st, hi, hr⟩ := hr
  obtain ⟨st', more, hi', hid, hl⟩ := hm.stream_kept hi
  have hmsgs := hb.messages_old hi hl evs
  refine ⟨st', hi', fun hint => ?_⟩
  have hint : st.Intact := by
    rcases hm.streams hi' with ⟨st₀, _, hst, _, hold, _⟩ | ⟨_, _, _, _, _, rfl, _⟩
    · rw [hi, Option.some.injEq] at hst
      exact hst ▸ hold hint
    · exact absurd (List.getElem?_eq_some_iff.mp hi).1 (lt_irrefl _)
  obtain ⟨hle, hview⟩ := hr hint
  refine ⟨by rw [hmsgs, List.length_append]; omega, fun x hx => ?_⟩
  rw [PeerStream.unread, hmsgs, List.drop_append_of_le_length hle, changesOf_append,
    Change.replay_append]
  exact hm.shown hb ha h (hview x (hid ▸ hx))

/-- A reader takes the next message and applies it. -/
theorem Reads.message (h : s.Reads tr i n D) (hb : BroadcastInv tr s)
    (hi : s.streams[i]? = some st) (hm : st.items[n]? = some (.ok m)) :
    s.Reads tr i (n + 1) (Change.replay D m.peerChanges) := by
  obtain ⟨st', hi', h⟩ := h
  rw [hi, Option.some.injEq] at hi'
  subst hi'
  refine ⟨st, hi, fun hint => ?_⟩
  have hget := hb.message hi hint hm
  obtain ⟨hlt, hget'⟩ := List.getElem?_eq_some_iff.mp hget
  refine ⟨hlt, fun x hx => ?_⟩
  have hview := (h hint).2 x hx
  rw [PeerStream.unread, List.drop_eq_getElem_cons hlt, hget'] at hview
  rw [← hview, ← Change.replay_append]
  rfl

/-- The answer of a discovery does as well as what the reader has, with all that is unread. -/
theorem Reads.discover (h : s.Reads tr i n D) {id : Id} {remotePeers : List Id}
    (hid : ∀ st, s.streams[i]? = some st → st.localId = id) (hit : s.Iterates id remotePeers)
    (hshown : ∀ x, s.Shown x ↔ x ∈ s.peers) : s.Reads tr i n remotePeers.toFinset := by
  obtain ⟨st, hi, h⟩ := h
  refine ⟨st, hi, fun hint => ⟨(h hint).1, fun x hx => ?_⟩⟩
  by_cases htouched : x ∈ (st.unread tr i n).map Change.subject
  · rw [Change.mem_replay_of_touched htouched remotePeers.toFinset D]
    exact (h hint).2 x hx
  · rw [Change.mem_replay_of_untouched htouched, hit.2, Finset.mem_erase, hshown]
    rw [hid st hi] at hx
    exact (and_iff_right hx).trans Finmap.mem_keys

/-- A reader that has taken everything from a drained stream has the shown peers. -/
theorem Reads.drained (h : s.Reads tr i n D) (hb : BroadcastInv tr s)
    (hi : s.streams[i]? = some st) (hint : st.Intact) (hd : s.Drained i)
    (hn : n = st.items.length) {x : Id} (hx : x ≠ st.localId) : x ∈ D ↔ s.Shown x := by
  obtain ⟨st', hi', h⟩ := h
  rw [hi, Option.some.injEq] at hi'
  subst hi'
  rw [← (h hint).2 x hx, PeerStream.unread, hn, hb.items_drained hi hint hd, List.length_map,
    List.drop_length]
  rfl

/-- A reader that has not begun has everything to see. -/
theorem reads_new (hv : ViewsInv tr s) (hi : s.streams[i]? = some st) :
    s.Reads tr i 0 ∅ := by
  refine ⟨st, hi, fun _ => ⟨Nat.zero_le _, fun x hx => ?_⟩⟩
  rw [← hv i st hi x hx, PeerStream.eventual_eq]
  rfl

end

end Server

end JustWebrtc.Signalling
