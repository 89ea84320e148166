import JustWebrtc.Core.Exchange
import JustWebrtc.Core.Refinement
import JustWebrtc.Signalling.Server.Eviction
import JustWebrtc.Signalling.Server.Snapshots

/-!
# The service as an exchange with atomic operations

Handlers of the service run interleaved at their accesses to shared state, and an eviction
acts under a later lock than the one under which it was decided. Seen through the replies, the
peer map and the signal streams, every request is still one atomic operation of an exchange, at
one step of its handler: `advertise` at its insertion, a teardown or an eviction at its removal,
a peer listener at its snapshot. The broadcast of peer changes is not part of this.
-/

namespace JustWebrtc.Signalling

open Exchange (Operation Reply operations)

/-- Peers by their identifiers, with a mailbox for each kind of signal. -/
abbrev Registry := Exchange Id Slot SignalListenerRsp

/-- The visible history of the registry. -/
abbrev History := List (Exchange.Event Id Slot SignalListenerRsp)

/-- A new channel, loaded with the initial empty response. -/
def loadedChannel : Channel SignalListenerRsp where
  capacity := 16
  queue := [⟨none⟩]
  yielded := []
  receiverAlive := true
  bounded := by decide

/-- The exchange that the service offers. -/
def registry : Machine Registry (Exchange.Action Id Slot SignalListenerRsp)
    (Exchange.Event Id Slot SignalListenerRsp) :=
  Exchange.machine Id Slot loadedChannel

/-- The operation that a request asks for, where no field is missing. -/
def Request.operation : Request → Option (Operation Id Slot SignalListenerRsp)
  | .advertise => some .join
  | .teardown localPeer => localPeer.map .leave
  | .peerDiscover localPeer => localPeer.map .list
  | .openPeerListener localPeer => localPeer.map .list
  | .signal slot (some id) (some sig) => some (.send slot id ⟨some sig⟩)
  | .signal _ _ _ => none
  | .openListener slot localPeer => localPeer.map (.listen slot)

namespace Server

/-! ## What is represented -/

/-- The registry that the shared state stands for: its identifiers are those ever inserted, its
peers are the keys of the map, and its mailboxes are the channels. -/
structure Represents (tr : List Event) (s : Server) (e : Registry) : Prop where
  used : ∀ id, id ∈ e.used ↔ ∃ k, Event.inserted k id ∈ tr
  present : ∀ id, id ∈ e.present ↔ id ∈ s.peers
  mailbox : ∀ slot id channel, e.mailbox slot id = some channel ↔
    ∃ c : Nat, s.channels[c]? = some ⟨slot, id, channel⟩

section

variable {tr evs : List Event} {s t u : Server} {e : Registry} {slot : Slot} {id : Id} {c k : Nat}
  {sc : SignalChannel} {channel : Channel SignalListenerRsp} {phase : Phase}

/-- A step that inserts nothing and leaves map and channels represents the same registry. -/
theorem Represents.frame (h : Represents tr s e) (hp : ∀ id, id ∈ t.peers ↔ id ∈ s.peers)
    (hc : t.channels = s.channels) (hi : ∀ k id, Event.inserted k id ∉ evs) :
    Represents (tr ++ evs) t e where
  used id := by simpa [hi] using h.used id
  present id := (h.present id).trans (hp id).symm
  mailbox slot id channel := by rw [hc]; exact h.mailbox slot id channel

/-- An insertion adds a peer. -/
theorem Represents.insert (h : Represents tr s e) (hp : t.peers = s.peers.insert id {})
    (hc : t.channels = s.channels) : Represents (tr ++ [.inserted k id]) t (e.add id) where
  used x := by
    simp only [Exchange.add, Finset.mem_insert, h.used, List.mem_append, List.mem_singleton,
      Event.inserted.injEq, exists_or]
    constructor
    · rintro (rfl | hx)
      · exact Or.inr ⟨k, rfl, rfl⟩
      · exact Or.inl hx
    · rintro (hx | ⟨_, _, rfl⟩)
      · exact Or.inr hx
      · exact Or.inl rfl
  present x := by
    rw [hp, Exchange.add, Finset.mem_insert, h.present, Finmap.mem_insert]
  mailbox slot id channel := by rw [hc]; exact h.mailbox slot id channel

/-- A removal takes a peer out and leaves its channels. -/
theorem Represents.erase (h : Represents tr s e) (hp : t.peers = s.peers.erase id)
    (hc : t.channels = s.channels) : Represents (tr ++ [.removed id]) t (e.remove id) where
  used x := by simpa [Exchange.remove] using h.used x
  present x := by
    rw [hp, Exchange.remove, Finset.mem_erase, h.present, Finmap.mem_erase]
  mailbox slot id channel := by rw [hc]; exact h.mailbox slot id channel

/-- The channel of a slot of a peer is its mailbox. -/
theorem Represents.mailbox_eq (h : Represents tr s e) (hc : s.channels[c]? = some sc) :
    e.mailbox sc.slot sc.peer = some sc.channel :=
  (h.mailbox _ _ _).mpr ⟨c, hc⟩

/-- A peer that has no channel for a slot has no mailbox for it. -/
theorem Represents.mailbox_none (h : Represents tr s e) (hno : ∀ c, s.key c ≠ some (slot, id)) :
    e.mailbox slot id = none := by
  rcases hbox : e.mailbox slot id with _ | channel
  · rfl
  · obtain ⟨c, hc⟩ := (h.mailbox slot id channel).mp hbox
    exact absurd (by rw [key, hc]; rfl) (hno c)

/-- Another state of a channel is another state of its mailbox. -/
theorem Represents.put (h : Represents tr s e) (htab : TableInv tr s)
    (hsc : s.channels[c]? = some sc) (hp : t.peers = s.peers)
    (hc : t.channels = s.channels.set c { sc with channel := channel })
    (hi : ∀ k id, Event.inserted k id ∉ evs) :
    Represents (tr ++ evs) t (e.put sc.slot sc.peer channel) where
  used id := by simpa [hi, Exchange.put] using h.used id
  present id := by rw [hp]; exact h.present id
  mailbox slot id channel' := by
    have hlt := (List.getElem?_eq_some_iff.mp hsc).1
    have hkey : s.key c = some (sc.slot, sc.peer) := by rw [key, hsc]; rfl
    rw [hc, Exchange.mailbox_put]
    split
    · rename_i heq
      obtain ⟨rfl, rfl⟩ := heq
      constructor
      · intro hch
        obtain rfl := Option.some.inj hch
        exact ⟨c, List.getElem?_set_self hlt⟩
      · rintro ⟨c', hc'⟩
        by_cases hcc : c = c'
        · subst hcc
          rw [List.getElem?_set_self hlt, Option.some.injEq, SignalChannel.mk.injEq] at hc'
          rw [hc'.2.2]
        · rw [List.getElem?_set_ne hcc] at hc'
          exact absurd (htab.one _ c c' hkey (by rw [key, hc']; rfl)) hcc
    · rename_i hne
      rw [h.mailbox slot id channel']
      refine exists_congr fun c' => ?_
      by_cases hcc : c = c'
      · subst hcc
        rw [List.getElem?_set_self hlt, hsc, Option.some.injEq, Option.some.injEq]
        constructor
        · rintro rfl
          exact absurd ⟨rfl, rfl⟩ hne
        · intro heq
          rw [SignalChannel.mk.injEq] at heq
          exact absurd ⟨heq.1.symm, heq.2.1.symm⟩ hne
      · rw [List.getElem?_set_ne hcc]

/-- A new channel is a mailbox that has not been there. -/
theorem Represents.register (h : Represents tr s e) (hno : ∀ c, s.key c ≠ some (slot, id))
    (hp : ∀ x, x ∈ t.peers ↔ x ∈ s.peers) (hc : t.channels = s.channels ++ [⟨slot, id, channel⟩]) :
    Represents (tr ++ []) t (e.put slot id channel) where
  used x := by simpa [Exchange.put] using h.used x
  present x := (h.present x).trans (hp x).symm
  mailbox slot' id' channel' := by
    rw [Exchange.mailbox_put]
    have happend (c : Nat) : t.channels[c]? = some ⟨slot', id', channel'⟩ ↔
        s.channels[c]? = some ⟨slot', id', channel'⟩ ∨
          (c = s.channels.length ∧
            (⟨slot, id, channel⟩ : SignalChannel) = ⟨slot', id', channel'⟩) := by
      rw [hc, List.getElem?_append]
      split
      · rename_i hlt
        exact ⟨Or.inl, fun h => h.elim (fun h => h) fun h => absurd h.1 hlt.ne⟩
      · rename_i hge
        rw [List.getElem?_eq_none (Nat.le_of_not_lt hge), List.getElem?_singleton]
        simp only [reduceCtorEq, false_or]
        constructor
        · intro h
          split at h
          · exact ⟨by omega, Option.some.inj h⟩
          · simp at h
        · rintro ⟨rfl, heq⟩
          simp [heq]
    simp only [happend, exists_or, exists_eq_left, SignalChannel.mk.injEq]
    split
    · rename_i heq
      obtain ⟨rfl, rfl⟩ := heq
      constructor
      · intro hch
        exact Or.inr ⟨rfl, rfl, Option.some.inj hch⟩
      · rintro (⟨c, hc'⟩ | ⟨_, _, rfl⟩)
        · exact absurd (by rw [key, hc']; rfl) (hno c)
        · rfl
    · rename_i hne
      rw [h.mailbox slot' id' channel']
      constructor
      · exact Or.inl
      · rintro (h | ⟨rfl, rfl, _⟩)
        · exact h
        · exact absurd ⟨rfl, rfl⟩ hne

end

/-! ## Replies and results -/

/-- The replies that the result of a returned call stands for. A peer that lists the others
through a listener finds them in the first message of its stream. -/
inductive Answers (s : Server) : Request → Except Status Response → Reply Id → Prop
  | advertise {id} : Answers s .advertise (.ok (.advertise (some id))) (.joined id)
  | teardown {localPeer} : Answers s (.teardown localPeer) (.ok .teardown) .left
  | notAdvertised {localPeer} :
      Answers s (.teardown localPeer) (.error Status.notAdvertised) .absent
  | peerDiscover {localPeer remotePeers} :
      Answers s (.peerDiscover localPeer) (.ok (.peerDiscover remotePeers)) (.others remotePeers)
  | openPeerListener {id i st initial rest} : s.streams[i]? = some st → st.localId = id →
      st.loaded = .ok ⟨initial.map Change.add⟩ :: rest →
      Answers s (.openPeerListener (some id)) (.ok (.openPeerListener i)) (.others initial)
  | signal {slot remotePeer sig} :
      Answers s (.signal slot remotePeer sig) (.ok (.signal slot)) .sent
  | remoteNotAdvertised {slot remotePeer sig} :
      Answers s (.signal slot remotePeer sig) (.error (Status.remoteNotAdvertised slot)) .absent
  | remoteTornDown {slot remotePeer sig} :
      Answers s (.signal slot remotePeer sig) (.error Status.notAdvertised) .absent
  | remoteNotListening {slot remotePeer sig} :
      Answers s (.signal slot remotePeer sig) (.error (Status.remoteNotListening slot)) .closed
  | bufferFull {slot remotePeer sig} :
      Answers s (.signal slot remotePeer sig) (.error (Status.bufferFull slot)) .full
  | remoteDisconnected {slot remotePeer sig} :
      Answers s (.signal slot remotePeer sig) (.error (Status.remoteDisconnected slot)) .gone
  | openListener {slot id c} : s.key c = some (slot, id) →
      Answers s (.openListener slot (some id)) (.ok (.openListener slot c)) .listening
  | listenerNotAdvertised {slot localPeer} :
      Answers s (.openListener slot localPeer) (.error Status.listenerNotAdvertised) .absent
  | listenerExists {slot localPeer} :
      Answers s (.openListener slot localPeer) (.error (Status.listenerExists slot)) .taken

/-- The operations that a call has performed, by its progress: one before it returns, or none
where a field of its request is missing. -/
def Performed (s : Server) (call : Call)
    (done : List (Operation Id Slot SignalListenerRsp × Reply Id)) : Prop :=
  match call.phase with
  | .received | .inserting _ | .evicting _ _ | .removing _ _ => done = []
  | .announcing id => done = [(.join, .joined id)]
  | .subscribing id initial => done = [(.list id, .others initial)]
  | .done result =>
    match call.request.operation with
    | none => done = [] ∧ ∃ status, result = .error status ∧ status.code = .invalidArgument
    | some operation => ∃ reply, done = [(operation, reply)] ∧ s.Answers call.request result reply

/-- A history of the registry explains a server: its end is what the server stands for, and its
operations are those of the calls. -/
structure Explains (tr : List Event) (s : Server) (history : History) (e : Registry) :
    Prop where
  represents : Represents tr s e
  performed : ∀ (k : Nat) (call : Call), s.calls[k]? = some call →
    s.Performed call (operations k history)
  unasked : ∀ k, s.calls.length ≤ k → operations k history = []

/-- Where the operations stand among the steps: an operation is performed by a step of its own
call, a message is read and a reader goes away by the step of the stream. -/
def Tied (x : Machine.Transition Server Action Event) (piece : History) : Prop :=
  match x.action with
  | .advance k _ => piece = [] ∨ ∃ operation reply, piece = [.operated k operation reply]
  | .pollChannel c => ∃ sc sc' message, x.source.channels[c]? = some sc ∧
      x.target.channels[c]? = some sc' ∧
      sc'.channel.yielded = sc.channel.yielded ++ [message] ∧
      piece = [.read sc.slot sc.peer message]
  | .dropChannel c => ∃ sc, x.source.channels[c]? = some sc ∧ piece = [.closed sc.slot sc.peer]
  | _ => piece = []

section

variable {tr evs : List Event} {s t u : Server} {e e' : Registry} {a : Action} {k : Nat}
  {order : List Id} {call : Call} {phase : Phase} {history piece : History}
  {operation : Operation Id Slot SignalListenerRsp} {reply : Reply Id}
  {result : Except Status Response}

/-- A reply stays the reply. -/
theorem Answers.mono {request : Request} (h : s.Answers request result reply)
    (hm : s.Moves a t evs) : t.Answers request result reply := by
  cases h with
  | openPeerListener hi hid hl =>
    obtain ⟨st', more, hi', hid', hl'⟩ := hm.stream_kept hi
    rw [hl, List.cons_append] at hl'
    exact .openPeerListener hi' (hid'.trans hid) hl'
  | openListener hc => exact .openListener (hm.key hc)
  | _ => constructor

/-- What a call has performed stays performed. -/
theorem Performed.mono {done : List (Operation Id Slot SignalListenerRsp × Reply Id)}
    (h : s.Performed call done) (hm : s.Moves a t evs) : t.Performed call done := by
  obtain ⟨request, phase⟩ := call
  cases phase with
  | done result =>
    simp only [Performed] at h ⊢
    cases hop : request.operation with
    | none => simpa only [hop] using h
    | some operation =>
      simp only [hop] at h ⊢
      obtain ⟨reply, hdone, hans⟩ := h
      exact ⟨reply, hdone, hans.mono hm⟩
  | _ => exact h

/-- A step that moves at most its own call explains the rest as before. -/
theorem Explains.step (h : Explains tr s history e) (hm : s.Moves a t evs)
    (hrep : Represents (tr ++ evs) t e')
    (hothers : ∀ k, a.call ≠ some k → operations k piece = [])
    (hself : ∀ (k : Nat) (call : Call), a.call = some k → t.calls[k]? = some call →
      t.Performed call (operations k history ++ operations k piece)) :
    Explains (tr ++ evs) t (history ++ piece) e' := by
  refine ⟨hrep, fun k call hk => ?_, fun k hk => ?_⟩
  · rw [Exchange.operations_append]
    by_cases ha : a.call = some k
    · exact hself k call ha hk
    · rw [hothers k ha, List.append_nil]
      rcases hs : s.calls[k]? with _ | call'
      · rcases hm.calls with ⟨request, _, ht⟩ | ⟨j, _, call', phase, _, _, ht⟩ | ⟨_, _, ht⟩
        · have hlt := List.getElem?_eq_none_iff.mp hs
          rw [ht, List.getElem?_append_right hlt, List.getElem?_singleton] at hk
          split at hk
          · obtain rfl := Option.some.inj hk
            exact h.unasked k hlt
          · simp at hk
        · have hlt := (List.getElem?_eq_some_iff.mp hk).1
          rw [ht, length_calls_setPhase] at hlt
          exact absurd hs (by simp [hlt])
        · rw [ht, hs] at hk
          simp at hk
      · have hsame := hm.calls_of_ne hs ha
        rw [hk, Option.some.injEq] at hsame
        rw [← hsame] at hs
        exact (h.performed k call hs).mono hm
  · have hlen : s.calls.length ≤ t.calls.length := by
      rcases hm.calls with ⟨request, _, ht⟩ | ⟨j, _, call', phase, _, _, ht⟩ | ⟨_, _, ht⟩
      · simp [ht]
      · simp [ht]
      · simp [ht]
    rw [Exchange.operations_append, h.unasked k (hlen.trans hk), List.nil_append]
    refine hothers k fun ha => ?_
    rcases hm.calls with ⟨request, rfl, _⟩ | ⟨j, _, call', phase, rfl, hj, _⟩ | ⟨_, hnone, _⟩
    · simp [Action.call] at ha
    · obtain rfl := Option.some.inj ha
      exact absurd (List.getElem?_eq_some_iff.mp hj).1 (by omega)
    · rw [hnone] at ha
      simp at ha

/-- A step outside of the handlers that the registry does not see. -/
theorem Explains.idle (h : Explains tr s history e) (hm : s.Moves a t evs) (ha : a.call = none)
    (hrep : Represents (tr ++ evs) t e) : Explains (tr ++ evs) t (history ++ []) e :=
  h.step hm hrep (fun _ _ => rfl) fun k call hk => by simp [ha] at hk

/-- A step of a handler that performs nothing. -/
theorem Explains.pass (h : Explains tr s history e)
    (hm : s.Moves (.advance k order) (u.setPhase k phase) evs) (hu : u.calls = s.calls)
    (hk : s.calls[k]? = some call) (hrep : Represents (tr ++ evs) (u.setPhase k phase) e)
    (hperf : ∀ done, s.Performed call done →
      (u.setPhase k phase).Performed { call with phase := phase } done) :
    Explains (tr ++ evs) (u.setPhase k phase) (history ++ []) e := by
  refine h.step hm hrep (fun _ _ => rfl) fun j c hj hc => ?_
  obtain rfl := Option.some.inj hj
  rcases calls_setPhase_cases hu hk hc with ⟨_, rfl⟩ | ⟨hne, _⟩
  · rw [Exchange.operations_nil, List.append_nil]
    exact hperf _ (h.performed k call hk)
  · exact absurd rfl hne

/-- A step of a handler that performs the operation of its call. -/
theorem Explains.point (h : Explains tr s history e)
    (hm : s.Moves (.advance k order) (u.setPhase k phase) evs) (hu : u.calls = s.calls)
    (hk : s.calls[k]? = some call) (hrep : Represents (tr ++ evs) (u.setPhase k phase) e')
    (hnew : ∀ done, s.Performed call done → done = [])
    (hperf : (u.setPhase k phase).Performed { call with phase := phase } [(operation, reply)]) :
    Explains (tr ++ evs) (u.setPhase k phase) (history ++ [.operated k operation reply]) e' := by
  refine h.step hm hrep (fun j hj => ?_) fun j c hj hc => ?_
  · rw [Action.call, ne_eq, Option.some.injEq] at hj
    rw [Exchange.operations_operated, if_neg hj]
  · obtain rfl := Option.some.inj hj
    rcases calls_setPhase_cases hu hk hc with ⟨_, rfl⟩ | ⟨hne, _⟩
    · rw [Exchange.operations_operated, if_pos rfl, hnew _ (h.performed k call hk)]
      exact hperf
    · exact absurd rfl hne

/-! ## The step -/

/-- The step is tied to a piece, with which the registry goes on and explains the new state. -/
def Continues (tr evs : List Event) (s : Server) (a : Action) (t : Server) (history : History) :
    Prop :=
  ∃ piece, Tied ⟨s, a, t, evs⟩ piece ∧ ∃ e, registry.Run Machine.Free (history ++ piece) e ∧
    Explains (tr ++ evs) t (history ++ piece) e

/-- A step that the registry does not see. -/
theorem continues_unseen (hrun : registry.Run Machine.Free history e)
    (htied : Tied ⟨s, a, t, evs⟩ []) (h : Explains (tr ++ evs) t (history ++ []) e) :
    Continues tr evs s a t history :=
  ⟨[], htied, e, by rwa [List.append_nil], h⟩

/-- A step at which the operation of its call is performed. -/
theorem continues_point (hrun : registry.Run Machine.Free history e)
    (hperf : e.perform loadedChannel operation reply = some e')
    (h : Explains (tr ++ evs) t (history ++ [.operated k operation reply]) e') :
    Continues tr evs s (.advance k order) t history :=
  ⟨_, Or.inr ⟨operation, reply, rfl⟩, e', Exchange.run_operate hrun hperf, h⟩

/-- The mailbox that a sender cell refers to. -/
theorem Represents.mailbox_of_tx (h : Represents tr s e) (htab : TableInv tr s) {id : Id}
    {slot : Slot} {peer : Listeners} {c : Nat} (hp : s.peers.lookup id = some peer)
    (hc : peer.tx slot = some c) {sc : SignalChannel} (hsc : s.channels[c]? = some sc) :
    e.mailbox slot id = some sc.channel ∧ sc.slot = slot ∧ sc.peer = id := by
  have hkey := htab.link id peer slot c hp hc
  rw [key, hsc, Option.map_some, Option.some.injEq, Prod.mk.injEq] at hkey
  obtain ⟨rfl, rfl⟩ := hkey
  exact ⟨h.mailbox_eq hsc, rfl, rfl⟩

/-- An empty sender cell has no channel. -/
theorem TableInv.key_ne (htab : TableInv tr s) {id : Id} {slot : Slot}
    {peer : Listeners} (hp : s.peers.lookup id = some peer) (hc : peer.tx slot = none) (c : Nat) :
    s.key c ≠ some (slot, id) := by
  intro hkey
  have hback := htab.back id peer slot c hkey hp
  rw [hc] at hback
  simp at hback

/-- A scope that only answers performs the operation of its call, or refuses a request in which
a field is missing. -/
theorem Responds.continues (hrun : registry.Run Machine.Free history e)
    (h : Explains tr s history e) (htab : TableInv tr s) (hcons : call.Consistent)
    (hk : s.calls[k]? = some call) (hr : s.Responds order call result) :
    Continues tr [] s (.advance k order) (s.setPhase k (.done result)) history := by
  have hm : s.Moves (.advance k order) (s.setPhase k (.done result)) [] := .respond hk hr
  have hrep : Represents (tr ++ []) (s.setPhase k (.done result)) e :=
    h.represents.frame (fun _ => Iff.rfl) rfl (by simp)
  have hpresent (id : Id) (hp : s.peers.lookup id = none) : id ∉ e.present := by
    rw [h.represents.present]
    exact fun hmem => Finmap.lookup_eq_none.mp hp hmem
  have hmem {id : Id} {peer : Listeners} (hp : s.peers.lookup id = some peer) : id ∈ e.present :=
    (h.represents.present id).mpr (Finmap.mem_of_lookup_eq_some hp)
  have hpoint {operation reply} (hperf : e.perform loadedChannel operation reply = some e)
      (hnew : ∀ done, s.Performed call done → done = [])
      (hop : call.request.operation = some operation)
      (hans : s.Answers call.request result reply) :
      Continues tr [] s (.advance k order) (s.setPhase k (.done result)) history := by
    refine continues_point hrun hperf (h.point hm rfl hk hrep hnew ?_)
    simp only [Performed, hop]
    exact ⟨reply, rfl, hans.mono hm⟩
  have hrefuse {status : Status} (hnone : call.request.operation = none)
      (hnew : ∀ done, s.Performed call done → done = []) (hcode : status.code = .invalidArgument)
      (hres : result = .error status) :
      Continues tr [] s (.advance k order) (s.setPhase k (.done result)) history := by
    refine continues_unseen hrun (Or.inl rfl) (h.pass hm rfl hk hrep fun done hdone => ?_)
    simp only [Performed, hnone]
    exact ⟨hnew done hdone, status, hres, hcode⟩
  cases hr with
  | teardownMissing | discoverMissing | peerListenerMissing | listenerMissing =>
    exact hrefuse rfl (fun _ h => h) rfl rfl
  | @remoteMissing slot sig => exact hrefuse rfl (fun _ h => h) rfl rfl
  | signalMissing => exact hrefuse rfl (fun _ h => h) rfl rfl
  | @removeAbsent request id caller habsent =>
    have hno : id ∉ e.present := fun hin => habsent ((h.represents.present id).mp hin)
    cases caller with
    | teardown =>
      obtain rfl : request = .teardown (some id) := hcons
      exact hpoint (Exchange.perform_leave_absent hno) (fun _ h => h) rfl .notAdvertised
    | signal slot =>
      obtain ⟨sig, rfl⟩ : ∃ sig, request = .signal slot (some id) (some sig) := hcons
      exact hpoint (Exchange.perform_send_absent hno) (fun _ h => h) rfl .remoteTornDown
  | @discover id hi =>
    refine hpoint (Exchange.perform_list hi.1 (hi.2.trans ?_)) (fun _ h => h) rfl .peerDiscover
    ext x
    rw [Finset.mem_erase, Finset.mem_erase, Finmap.mem_keys, h.represents.present]
  | @remoteNotAdvertised slot id sig hp =>
    exact hpoint (Exchange.perform_send_absent (hpresent id hp)) (fun _ h => h) rfl
      .remoteNotAdvertised
  | @remoteNotListening slot id sig peer hp hc =>
    have hbox := h.represents.mailbox_none (htab.key_ne hp hc)
    exact hpoint (Exchange.perform_send_closed (hmem hp) hbox) (fun _ h => h) rfl
      .remoteNotListening
  | @bufferFull slot id sig peer c sc hp hc hsc hsend =>
    obtain ⟨hbox, _⟩ := h.represents.mailbox_of_tx htab hp hc hsc
    exact hpoint (Exchange.perform_send_full (hmem hp) hbox hsend) (fun _ h => h) rfl .bufferFull
  | @listenerNotAdvertised slot id hp =>
    exact hpoint (Exchange.perform_listen_absent (hpresent id hp)) (fun _ h => h) rfl
      .listenerNotAdvertised
  | @listenerExists slot id peer c hp hc =>
    have hkey := htab.link id peer slot c hp hc
    obtain ⟨sc, hsc, _⟩ := Option.map_eq_some_iff.mp hkey
    obtain ⟨hbox, _⟩ := h.represents.mailbox_of_tx htab hp hc hsc
    exact hpoint (Exchange.perform_listen_taken (hmem hp) hbox) (fun _ h => h) rfl .listenerExists

/-- A handler that takes a peer out of the map performs a departure of the peer, or a send to a
mailbox that is gone. -/
theorem Explains.removes (hrun : registry.Run Machine.Free history e)
    (h : Explains tr s history e) {request : Request} {id : Id} {caller : Caller}
    (hcons : Call.Consistent ⟨request, .removing id caller⟩)
    (hgone : ∀ slot, s.Evicts k slot id → ∃ c, s.Gone slot id c)
    (hk : s.calls[k]? = some ⟨request, .removing id caller⟩) (hin : id ∈ s.peers) :
    Continues tr [.removed id] s (.advance k order)
      ({ s with peers := s.peers.erase id }.setPhase k (.done caller.result)) history := by
  have hm : s.Moves (.advance k order)
      ({ s with peers := s.peers.erase id }.setPhase k (.done caller.result)) [.removed id] :=
    .remove hk hin
  have hrep := h.represents
  have hpresent : id ∈ e.present := (hrep.present id).mpr hin
  cases caller with
  | teardown =>
    obtain rfl : request = .teardown (some id) := hcons
    exact continues_point hrun (Exchange.perform_leave hpresent)
      (h.point hm rfl hk (hrep.erase rfl rfl) (fun _ h => h) ⟨_, rfl, .teardown⟩)
  | signal slot =>
    obtain ⟨sig, rfl⟩ : ∃ sig, request = .signal slot (some id) (some sig) := hcons
    obtain ⟨c, sc, hsc, rfl, rfl, hdead⟩ := hgone slot (Or.inr ⟨_, hk⟩)
    exact continues_point hrun (Exchange.perform_send_gone hpresent (hrep.mailbox_eq hsc) hdead)
      (h.point hm rfl hk (hrep.erase rfl rfl) (fun _ h => h) ⟨_, rfl, .remoteDisconnected⟩)

/-- A handler that registers a channel performs the opening of a mailbox. -/
theorem Explains.registers (hrun : registry.Run Machine.Free history e)
    (h : Explains tr s history e) (htab : TableInv tr s) {slot : Slot} {id : Id}
    {peer : Listeners} (hk : s.calls[k]? = some ⟨.openListener slot (some id), .received⟩)
    (hp : s.peers.lookup id = some peer) (hc : peer.tx slot = none)
    (hload : (Channel.empty 16).trySend (⟨none⟩ : SignalListenerRsp) = .ok loadedChannel) :
    Continues tr [] s (.advance k order)
      (({ s with
          peers := s.peers.insert id (peer.setTx slot s.channels.length)
          channels := s.channels ++ [{ slot := slot, peer := id, channel := loadedChannel }] } :
        Server).setPhase k (.done (.ok (.openListener slot s.channels.length)))) history := by
  have hin : id ∈ s.peers := Finmap.mem_of_lookup_eq_some hp
  have hno := htab.key_ne hp hc
  have hpeers (x : Id) :
      x ∈ s.peers.insert id (peer.setTx slot s.channels.length) ↔ x ∈ s.peers := by
    rw [Finmap.mem_insert, or_iff_right_of_imp]
    rintro rfl
    exact hin
  have hm : s.Moves (.advance k order) _ [] := .openListener hk hp hc hload
  refine continues_point hrun (Exchange.perform_listen ((h.represents.present id).mpr hin)
    (h.represents.mailbox_none hno)) (h.point hm rfl hk
      (h.represents.register hno hpeers rfl) (fun _ h => h) ⟨_, rfl, .openListener ?_⟩)
  exact (key_append rfl _).trans (if_pos rfl)

/-- Every step continues the history. A handler performs its operation where it inserts, takes
its snapshot, removes, registers or sends, and where it refuses. -/
theorem Moves.continues (hm : s.Moves a t evs) {n : Nat} (hid : IdentityInv n tr s)
    (htab : TableInv tr s) (hcons : ∀ c ∈ s.calls, c.Consistent)
    (hgone : ∀ k slot p, s.Evicts k slot p → ∃ c, s.Gone slot p c)
    (hrun : registry.Run Machine.Free history e) (h : Explains tr s history e) :
    Continues tr evs s a t history := by
  have hrep := h.represents
  have hmem {id : Id} {peer : Listeners} (hp : s.peers.lookup id = some peer) : id ∈ e.present :=
    (hrep.present id).mpr (Finmap.mem_of_lookup_eq_some hp)
  have hm' := hm
  cases hm with
  | receive request =>
    exact continues_unseen hrun rfl
      (h.idle hm' rfl (hrep.frame (fun _ => Iff.rfl) rfl (by simp)))
  | generate hk =>
    exact continues_unseen hrun (Or.inl rfl)
      (h.pass hm' rfl hk (hrep.frame (fun _ => Iff.rfl) rfl (by simp)) fun _ h => h)
  | duplicate hk hin => exact absurd hin (hid.not_mem_peers ⟨_, hk⟩)
  | @insert k _ request id hk hin =>
    have hunused : id ∉ e.used := by
      rw [hrep.used]
      rintro ⟨j, hj⟩
      exact hid.not_inserted ⟨_, hk⟩ j hj
    exact continues_point hrun (Exchange.perform_join hunused)
      (h.point hm' rfl hk (hrep.insert rfl rfl) (fun _ h => h) rfl)
  | @announce k _ request id hk =>
    obtain rfl : request = .advertise := hcons _ (List.mem_of_getElem? hk)
    refine continues_unseen hrun (Or.inl rfl) (h.pass hm' (by simp) hk ?_ fun done hdone => ?_)
    · exact hrep.frame (by simp) (by simp) fun _ _ => not_mem_broadcastChange (by simp)
    · exact ⟨_, hdone, .advertise⟩
  | depart hk hd =>
    refine continues_unseen hrun (Or.inl rfl) (h.pass hm' (by simp) hk ?_ fun done hdone => ?_)
    · exact hrep.frame (by simp) (by simp) fun _ _ => not_mem_broadcastChange (by simp)
    · cases hd <;> exact hdone
  | remove hk hin =>
    exact h.removes hrun (hcons _ (List.mem_of_getElem? hk)) (fun slot => hgone _ slot _) hk hin
  | respond hk hr => exact hr.continues hrun h htab (hcons _ (List.mem_of_getElem? hk)) hk
  | @collect k order id hk hi =>
    have hids : order.toFinset = e.present.erase id := by
      rw [hi.2]
      ext x
      rw [Finset.mem_erase, Finset.mem_erase, Finmap.mem_keys, hrep.present]
    exact continues_point hrun (Exchange.perform_list hi.1 hids)
      (h.point hm' rfl hk (hrep.frame (fun _ => Iff.rfl) rfl (by simp)) (fun _ h => h) rfl)
  | @subscribe k _ request id initial hk =>
    obtain rfl : request = .openPeerListener (some id) := hcons _ (List.mem_of_getElem? hk)
    refine continues_unseen hrun (Or.inl rfl) (h.pass hm' rfl hk ?_ fun done hdone => ?_)
    · exact hrep.frame (fun _ => Iff.rfl) rfl (by simp)
    · exact ⟨_, hdone, .openPeerListener List.getElem?_concat_length rfl rfl⟩
  | @accept k _ slot id sig peer c sc channel hk hp hc hsc hsend =>
    obtain ⟨hbox, rfl, rfl⟩ := hrep.mailbox_of_tx htab hp hc hsc
    exact continues_point hrun (Exchange.perform_send (hmem hp) hbox hsend)
      (h.point hm' rfl hk (hrep.put htab hsc rfl rfl (by simp)) (fun _ h => h)
        ⟨_, rfl, .signal⟩)
  | disconnect hk _ _ _ _ =>
    exact continues_unseen hrun (Or.inl rfl)
      (h.pass hm' rfl hk (hrep.frame (fun _ => Iff.rfl) rfl (by simp)) fun _ h => h)
  | openListener hk hp hc hload =>
    obtain rfl := Except.ok.inj hload
    exact h.registers hrun htab hk hp hc hload
  | yieldInitial _ _ _ | yieldReceived _ _ _ _ _ | dropPeerStream _ _ =>
    exact continues_unseen hrun rfl
      (h.idle hm' rfl (hrep.frame (fun _ => Iff.rfl) rfl (by simp)))
  | @pollChannel c sc channel hsc hn =>
    obtain ⟨message, hhead, hyield⟩ := Channel.next_head hn
    have hlt := (List.getElem?_eq_some_iff.mp hsc).1
    refine ⟨[.read sc.slot sc.peer message], ⟨sc, { sc with channel := channel }, message, hsc,
      List.getElem?_set_self hlt, hyield, rfl⟩, _,
      Exchange.run_read hrun (hrep.mailbox_eq hsc) hn hhead, ?_⟩
    exact h.step hm' (hrep.put htab hsc rfl rfl (by simp)) (fun _ _ => rfl)
      fun k call hk => by simp [Action.call] at hk
  | @dropChannel c sc hsc =>
    refine ⟨[.closed sc.slot sc.peer], ⟨sc, hsc, rfl⟩, _,
      Exchange.run_close hrun (hrep.mailbox_eq hsc), ?_⟩
    exact h.step hm' (hrep.put htab hsc rfl rfl (by simp)) (fun _ _ => rfl)
      fun k call hk => by simp [Action.call] at hk

/-- Nothing has been asked of a new server. -/
theorem explains_new : Explains [] Server.new [] Exchange.empty where
  represents := by
    refine ⟨by simp [Exchange.empty], fun id => ?_, by simp [Exchange.empty, Server.new]⟩
    simp [Exchange.empty, Server.new, Finmap.notMem_empty]
  performed := by simp [Server.new]
  unasked _ _ := rfl

end

/-- The state is explained by a run of the registry with the given history. -/
def Explained (steps : List (Machine.Transition Server Action Event)) (s : Server)
    (history : History) : Prop :=
  registry.Simulated Machine.Free (fun steps => Explains (Machine.trace steps)) steps s history

/-- Requests are linearizable. The steps of a run can be given operations of the registry, at
most one for each step of a handler and that one its own, such that together they are a run of
the registry that explains the state, at the end and before every step: each call that has
returned has performed exactly one operation, which had the reply that the call has returned,
except that a call whose request lacks a field performs none and is refused. -/
theorem linearizable {steps : List (Machine.Transition Server Action Event)} {s : Server}
    (hr : server.recorded.Run Machine.Free steps s)
    (hn : allocations (Machine.trace steps) < 2 ^ 64) :
    ∃ points, List.Forall₂ Tied steps points ∧ Explained steps s points.flatten ∧
      ∀ before x after, steps = before ++ x :: after →
        Explained before x.source (points.take before.length).flatten := by
  refine hr.simulates (P := fun tr => allocations tr < 2 ^ 64) allocations_lt explains_new ?_ hn
  intro steps s a t evs history e hr hlt _ hrun h _ hs
  have hgone (k : Nat) (slot : Slot) (p : Id) (hev : s.Evicts k slot p) :
      ∃ c, s.Gone slot p c := by
    obtain ⟨c, hc, _⟩ := evicts_gone hr hlt hev
    exact ⟨c, hc⟩
  obtain ⟨piece, htied, e', hrun', h'⟩ := (step_moves hs).continues (identityInv hr.forget hlt)
    (deliveryInv hr.forget hlt).1 (consistent hr.forget) hgone hrun h
  refine ⟨piece, htied, e', hrun', ?_⟩
  change Explains (Machine.trace (steps ++ [⟨s, a, t, evs⟩])) t _ e'
  rw [Machine.trace_append, Machine.trace_singleton]
  exact h'

/-- A peer is still discovered after a signal to it has found its stream gone. -/
theorem linearizable_eviction : ∃ steps s, server.recorded.Run Machine.Free steps s ∧
    s.At 3 (.done (.error (Status.remoteDisconnected .offer))) ∧
    s.At 4 (.done (.ok (.peerDiscover [0]))) ∧
    ∃ points, List.Forall₂ Tied steps points ∧ Explained steps s points.flatten := by
  obtain ⟨steps, s, hr, hc⟩ := server.recorded.exec_reaches Machine.Free
    (List.flatten [Action.handling .advertise 0 3 [], Action.handling .advertise 1 3 [],
      Action.handling (.openOfferListener (some 0)) 2 1 [], [.dropChannel 0],
      Action.handling (.signalOffer (some 0) (some ⟨1, [7], []⟩)) 3 1 [],
      Action.handling (.peerDiscover (some 1)) 4 1 [0], [.advance 3 [], .advance 3 []]])
    (fun c => decide (allocations (Machine.trace c.2) = 2 ∧
      c.1.calls[3]? = some (Call.mk (.signalOffer (some 0) (some ⟨1, [7], []⟩))
        (.done (.error (Status.remoteDisconnected .offer)))) ∧
      c.1.calls[4]? = some (Call.mk (.peerDiscover (some 1)) (.done (.ok (.peerDiscover [0]))))))
    (by decide +kernel)
  obtain ⟨hn, hsignal, hdiscover⟩ := of_decide_eq_true hc
  obtain ⟨points, htied, hend, _⟩ := linearizable hr (by rw [hn]; decide)
  exact ⟨steps, s, hr, ⟨_, hsignal⟩, ⟨_, hdiscover⟩, points, htied, hend⟩

/-! ## After a departure -/

/-- The result says that the call has taken the peer out. -/
def TakesOut (p : Id) : Request → Except Status Response → Prop
  | .teardown (some id), result => id = p ∧ result = .ok .teardown
  | .signal slot (some id) (some _), result =>
    id = p ∧ result = .error (Status.remoteDisconnected slot)
  | _, _ => False

/-- The result of a call that does not find the peer: it is refused as not advertised where it is
addressed to the peer, and leaves the peer out where it lists the others. -/
def MissesPeer (s : Server) (p : Id) : Request → Except Status Response → Prop
  | .teardown (some id), result => id = p → result = .error Status.notAdvertised
  | .signal slot (some id) (some _), result => id = p →
    result = .error (Status.remoteNotAdvertised slot) ∨ result = .error Status.notAdvertised
  | .openListener _ (some id), result => id = p → result = .error Status.listenerNotAdvertised
  | .peerDiscover (some _), result => ∃ remotePeers,
    result = .ok (.peerDiscover remotePeers) ∧ p ∉ remotePeers
  | .openPeerListener (some _), result => ∃ (i : Nat) (st : PeerStream) (initial : List Id)
    (rest : List (Except Status PeerListenerRsp)), result = .ok (.openPeerListener i) ∧
      s.streams[i]? = some st ∧ st.loaded = .ok ⟨initial.map Change.add⟩ :: rest ∧ p ∉ initial
  | _, _ => True

section

variable {s : Server} {p : Id} {request : Request} {result : Except Status Response}
  {operation : Operation Id Slot SignalListenerRsp} {reply : Reply Id}

/-- A call that has taken a peer out has performed a departure. -/
theorem TakesOut.departs (h : TakesOut p request result) :
    ∃ operation, request.operation = some operation ∧ ∀ (s : Server) (reply : Reply Id),
      s.Answers request result reply → Exchange.Departs p operation reply := by
  cases request with
  | teardown localPeer =>
    cases localPeer with
    | none => exact h.elim
    | some id =>
      obtain ⟨rfl, rfl⟩ := h
      refine ⟨_, rfl, fun s reply hans => ?_⟩
      cases hans
      exact rfl
  | signal slot remotePeer sig =>
    cases remotePeer with
    | none => exact h.elim
    | some id =>
      cases sig with
      | none => exact h.elim
      | some sig =>
        obtain ⟨rfl, rfl⟩ := h
        refine ⟨_, rfl, fun s reply hans => ?_⟩
        generalize hres : Except.error (Status.remoteDisconnected slot) = result at hans
        cases hans with
        | remoteDisconnected => exact rfl
        | _ => cases slot <;> simp [Status.remoteDisconnected, Status.remoteNotAdvertised,
            Status.notAdvertised, Status.remoteNotListening, Status.bufferFull,
            Status.remoteName, Status.slotName] at hres
  | _ => exact h.elim

/-- A call whose operation misses the peer does not find it. -/
theorem Answers.missesPeer (hans : s.Answers request result reply)
    (hop : request.operation = some operation) (hmiss : Exchange.Misses p operation reply) :
    s.MissesPeer p request result := by
  cases request with
  | advertise => trivial
  | teardown localPeer =>
    cases localPeer with
    | none => trivial
    | some id =>
      obtain rfl := Option.some.inj hop
      intro hid
      have hreply := hmiss hid
      cases hans with
      | teardown => simp at hreply
      | notAdvertised => rfl
  | peerDiscover localPeer =>
    cases localPeer with
    | none => trivial
    | some id =>
      obtain rfl := Option.some.inj hop
      cases hans with
      | peerDiscover => exact ⟨_, rfl, hmiss⟩
  | openPeerListener localPeer =>
    cases localPeer with
    | none => trivial
    | some id =>
      obtain rfl := Option.some.inj hop
      cases hans with
      | openPeerListener hi _ hl => exact ⟨_, _, _, _, rfl, hi, hl, hmiss⟩
  | signal slot remotePeer sig =>
    cases remotePeer with
    | none => trivial
    | some id =>
      cases sig with
      | none => trivial
      | some sig =>
        obtain rfl := Option.some.inj hop
        intro hid
        have hreply := hmiss hid
        cases hans with
        | remoteNotAdvertised => exact Or.inl rfl
        | remoteTornDown => exact Or.inr rfl
        | _ => simp at hreply
  | openListener slot localPeer =>
    cases localPeer with
    | none => trivial
    | some id =>
      obtain rfl := Option.some.inj hop
      intro hid
      have hreply := hmiss hid
      cases hans with
      | listenerNotAdvertised => rfl
      | _ => simp at hreply

end

/-- A peer that has left is not found again. Once a call has returned that has taken a peer out,
by its teardown or by a signal that found its stream gone, every call that is received after
that is refused where it is addressed to the peer, and leaves the peer out where it lists the
others. -/
theorem departed_for_good {steps : List (Machine.Transition Server Action Event)} {s : Server}
    (hr : server.recorded.Run Machine.Free steps s)
    (hn : allocations (Machine.trace steps) < 2 ^ 64)
    {before after : List (Machine.Transition Server Action Event)}
    {x : Machine.Transition Server Action Event} (he : steps = before ++ x :: after)
    {k j : Nat} {request request' : Request} {result result' : Except Status Response} {p : Id}
    (hk : x.source.calls[k]? = some ⟨request, .done result⟩) (hout : TakesOut p request result)
    (hlater : x.source.calls.length ≤ j) (hj : s.calls[j]? = some ⟨request', .done result'⟩) :
    s.MissesPeer p request' result' := by
  obtain ⟨points, _, ⟨e, hrun, hexplains⟩, hcuts⟩ := linearizable hr hn
  obtain ⟨_, _, hearlier⟩ := hcuts before x after he
  obtain ⟨operation, hop, hdeparts⟩ := hout.departs
  have hfirst := hearlier.performed k _ hk
  simp only [Performed, hop] at hfirst
  obtain ⟨reply, hdone, hans⟩ := hfirst
  have hlast := hexplains.performed j _ hj
  simp only [Performed] at hlast
  cases hop' : request'.operation with
  | none =>
    cases request' with
    | advertise => trivial
    | signal slot remotePeer sig =>
      cases remotePeer with
      | none => trivial
      | some id =>
        cases sig with
        | none => trivial
        | some sig => simp [Request.operation] at hop'
    | teardown localPeer | peerDiscover localPeer | openPeerListener localPeer
    | openListener _ localPeer =>
      cases localPeer with
      | none => trivial
      | some id => simp [Request.operation] at hop'
  | some operation' =>
    simp only [hop'] at hlast
    obtain ⟨reply', hdone', hans'⟩ := hlast
    rw [← List.take_append_drop before.length points, List.flatten_append] at hrun hdone'
    rw [Exchange.operations_append, hearlier.unasked j hlater, List.nil_append] at hdone'
    obtain ⟨during, rest, hsplit⟩ := List.append_of_mem (Exchange.mem_of_operations hdone')
    rw [hsplit] at hrun
    exact hans'.missesPeer hop' (Exchange.misses_of_departs hrun (List.append_assoc _ _ _).symm
      (List.mem_append_left _ (Exchange.mem_of_operations hdone)) (hdeparts _ _ hans))

/-- After its teardown a peer is not discovered any more. -/
theorem departed_for_good_teardown : ∃ steps s, server.recorded.Run Machine.Free steps s ∧
    s.calls[2]? = some ⟨.teardown (some 0), .done (.ok .teardown)⟩ ∧
    s.calls[3]? = some ⟨.peerDiscover (some 1), .done (.ok (.peerDiscover []))⟩ ∧
    s.MissesPeer 0 (.peerDiscover (some 1)) (.ok (.peerDiscover [])) := by
  obtain ⟨steps, s, hr, hc⟩ := server.recorded.exec_reaches Machine.Free
    (List.flatten [Action.handling .advertise 0 3 [], Action.handling .advertise 1 3 [],
      Action.handling (.teardown (some 0)) 2 2 [],
      Action.handling (.peerDiscover (some 1)) 3 1 []])
    (fun c => decide (allocations (Machine.trace c.2) = 2 ∧
      c.1.calls[2]? = some (Call.mk (.teardown (some 0)) (.done (.ok .teardown))) ∧
      c.1.calls[3]? = some (Call.mk (.peerDiscover (some 1)) (.done (.ok (.peerDiscover [])))) ∧
      ∃ x ∈ c.2, x.source.calls.length ≤ 3 ∧
        x.source.calls[2]? = some (Call.mk (.teardown (some 0)) (.done (.ok .teardown)))))
    (by decide +kernel)
  obtain ⟨hn, hteardown, hdiscover, x, hx, hlater, hk⟩ := of_decide_eq_true hc
  obtain ⟨before, after, he⟩ := List.append_of_mem hx
  exact ⟨steps, s, hr, hteardown, hdiscover,
    departed_for_good hr (by rw [hn]; decide) he hk ⟨rfl, rfl⟩ hlater hdiscover⟩

end Server

end JustWebrtc.Signalling
