import JustWebrtc.Signalling.Client.Futures
import JustWebrtc.Signalling.System.Steps

/-!
# Clients and their calls

Each call of the server belongs to the client that sent its request, and a client's
requests are made in the name of the one identifier it was given. A step of the system is
a server step, a client that moves, or a client that moves and sends a request; everything
about the calls of clients follows from that.
-/

namespace JustWebrtc.Signalling

variable {ι A O C : Type*} [DecidableEq ι]

/-- The request is complete and made in the name of the peer `id`. -/
def Request.MadeBy (id : Id) : Request → Prop
  | .advertise => True
  | .teardown localPeer | .peerDiscover localPeer | .openPeerListener localPeer
  | .openListener _ localPeer => localPeer = some id
  | .signal _ remotePeer sig => ∃ r x, remotePeer = some r ∧ sig = some x ∧ x.sender = id

/-- What a suspended step awaits is a request in the name of its peer. -/
theorem Progress.Awaits.madeBy {id : Id} {progress : Progress} {request : Request}
    (h : progress.Awaits id request) : request.MadeBy id := by
  cases progress with
  | idle => exact h.elim
  | resyncing _ _ =>
    rw [show request = .peerDiscover (some id) from h]
    exact rfl
  | signallingOffer remoteId =>
    obtain ⟨signal, rfl, hs⟩ := h
    exact ⟨remoteId, signal, rfl, rfl, hs⟩
  | signallingAnswer remoteId =>
    obtain ⟨signal, rfl, hs⟩ := h
    exact ⟨remoteId, signal, rfl, rfl, hs⟩

/-- The client awaits the response to this request. -/
def Client.Awaits : Client A O C → Request → Prop
  | .advertising _, request => request = .advertise
  | .openingPeerListener id _, request => request = .openPeerListener (some id)
  | .openingOfferListener id _ _, request => request = .openOfferListener (some id)
  | .openingAnswerListener id _ _ _, request => request = .openAnswerListener (some id)
  | .running p _, request => p.progress.Awaits p.localId request
  | .closing p _, request => request = .teardown (some p.localId)
  | _, _ => False

/-- The place of a request in `start_peer`; all later requests come after it. -/
def Request.stage : Request → Nat
  | .advertise => 1
  | .openPeerListener _ => 2
  | .openListener .offer _ => 3
  | .openListener .answer _ => 4
  | _ => 5

/-- How far the client has come in `start_peer`. -/
def Client.stage : Client A O C → Nat
  | .fresh => 0
  | .advertising _ => 1
  | .openingPeerListener _ _ => 2
  | .openingOfferListener _ _ _ => 3
  | .openingAnswerListener _ _ _ _ => 4
  | .failed _ | .running _ _ | .closing _ _ | .closed _ => 5

theorem Request.stage_pos (r : Request) : 0 < r.stage := by
  cases r with
  | openListener slot _ => cases slot <;> exact Nat.succ_pos _
  | _ => exact Nat.succ_pos _

/-- What a running peer requests belongs to no stage of `start_peer`. -/
theorem Progress.Awaits.stage {id : Id} {progress : Progress} {request : Request}
    (h : progress.Awaits id request) : request.stage = 5 := by
  cases progress with
  | idle => exact h.elim
  | resyncing _ _ =>
    rw [show request = .peerDiscover (some id) from h]
    rfl
  | signallingOffer _ | signallingAnswer _ =>
    obtain ⟨signal, rfl, _⟩ := h
    rfl

/-- The request that opens a listener of a peer. -/
def Listener.request (id : Id) : Listener → Request
  | .peer => .openPeerListener (some id)
  | .signal slot => .openListener slot (some id)

/-- The response that hands out stream `n`. -/
def Listener.response (n : Nat) : Listener → Response
  | .peer => .openPeerListener n
  | .signal slot => .openListener slot n

namespace System

/-- What one step does to the server and to the clients: a server step, a client that moves,
or a client that moves and sends a request. -/
theorem Moves.effect {codecs : Codecs A O C} {s : System ι A O C} {a : Action ι A O C}
    {out : System ι A O C × List (Event ι A O C)} (hm : Moves codecs s a out) :
    (∃ b t evs, a = .server b ∧ s.server.step b = some (t, evs) ∧
        out = ({ s with server := t }, evs.map Event.server)) ∨
      (∃ j c evs, (∀ b, a ≠ .server b) ∧ out = s.put j c evs ∧ serverTrace evs = [] ∧
        ∀ i k r, Event.requested i k r ∉ evs) ∨
      ∃ j f r evs, (∀ b, a ≠ .server b) ∧ out = s.send j f r evs ∧ serverTrace evs = [] ∧
        ∀ i k r, Event.requested i k r ∉ evs := by
  cases hm with
  | server hs => exact Or.inl ⟨_, _, _, rfl, hs, rfl⟩
  | start _ | advertised _ _ | peerListener _ _ | offerListener _ _ | close _ =>
    exact Or.inr (Or.inr ⟨_, _, _, _, by simp, rfl, rfl, by simp⟩)
  | answerListener _ _ => exact Or.inr (Or.inl ⟨_, _, _, by simp, rfl, rfl, by simp⟩)
  | giveUp _ _ ha =>
    refine Or.inr (Or.inl ⟨_, _, _, ?_, rfl, rfl, by simp⟩)
    rcases ha with rfl | ⟨rfl, _⟩ <;> simp
  | closed _ ha =>
    refine Or.inr (Or.inl ⟨_, _, _, ?_, rfl, rfl, by simp⟩)
    rcases ha with rfl | rfl <;> simp
  | @act j p call a input out _ hh _ =>
    have ha : ∀ b, a ≠ .server b := by
      cases hh <;> simp
    have htr : serverTrace (eventsOf j out) = [] := by
      rw [serverTrace, List.filterMap_eq_nil_iff]
      intro e he
      rcases List.mem_append.mp he with he | he
      · obtain ⟨_, _, rfl⟩ := List.mem_map.mp he
        rfl
      · obtain ⟨_, _, rfl⟩ := List.mem_map.mp he
        rfl
    have hreq : ∀ i k r, Event.requested i k r ∉ eventsOf j out := by
      simp [eventsOf]
    unfold System.apply
    split
    · exact Or.inr (Or.inl ⟨_, _, _, ha, rfl, htr, hreq⟩)
    · exact Or.inr (Or.inr ⟨_, _, _, _, ha, rfl, htr, hreq⟩)

/-- The server stays as it is, or it moves by an action of its own or as a client's request
arrives. -/
theorem Moves.server_moves {codecs : Codecs A O C} {s t : System ι A O C} {a : Action ι A O C}
    {evs : List (Event ι A O C)} (hm : Moves codecs s a (t, evs)) :
    (t.server = s.server ∧ serverTrace evs = []) ∨
      ∃ b, s.server.Moves b t.server (serverTrace evs) ∧ (a = .server b ∨
        ∃ j r, b = .receive r ∧ Event.requested j s.server.calls.length r ∈ evs) := by
  rcases hm.effect with ⟨b, t', evs', rfl, hb, heq⟩ | ⟨_, _, _, _, heq, htr, _⟩ |
    ⟨j, _, r, evs', _, heq, htr, _⟩
  · rw [Prod.mk.injEq] at heq
    obtain ⟨rfl, rfl⟩ := heq
    rw [serverTrace_server]
    exact Or.inr ⟨b, Server.step_moves hb, Or.inl rfl⟩
  · rw [put, Prod.mk.injEq] at heq
    obtain ⟨rfl, rfl⟩ := heq
    exact Or.inl ⟨rfl, htr⟩
  · rw [send, Prod.mk.injEq] at heq
    obtain ⟨rfl, rfl⟩ := heq
    rw [serverTrace_append, htr]
    exact Or.inr ⟨.receive r, .receive r, Or.inr ⟨j, r, rfl, by simp⟩⟩

/-- The server of a run of the system has made a run of its own. -/
theorem serverRun {codecs : Codecs A O C} {ok : System ι A O C → Action ι A O C → Prop}
    (okServer : Server → Server.Action → Prop)
    (hserver : ∀ s b, ok s (.server b) → okServer s.server b)
    (hreceive : ∀ t request, okServer t (.receive request))
    {tr : List (Event ι A O C)} {s : System ι A O C} (hr : (system ι codecs).Run ok tr s) :
    Signalling.server.Run okServer (serverTrace tr) s.server := by
  refine hr.project System.server serverEvent rfl ?_
  intro s a t evs ha hs
  have hm : Moves codecs s a (t, evs) := step_moves hs
  rcases hm.effect with ⟨b, t', evs', rfl, hb, heq⟩ | ⟨j, c, evs', _, heq, htr, _⟩ |
    ⟨j, f, r, evs', _, heq, htr, _⟩
  · rw [Prod.mk.injEq] at heq
    obtain ⟨rfl, rfl⟩ := heq
    refine Or.inr ⟨b, hserver s b ha, ?_⟩
    exact hb.trans (congrArg (fun e => some (t', e)) (serverTrace_server evs').symm)
  · rw [put, Prod.mk.injEq] at heq
    obtain ⟨rfl, rfl⟩ := heq
    exact Or.inl ⟨rfl, htr⟩
  · rw [send, Prod.mk.injEq] at heq
    obtain ⟨rfl, rfl⟩ := heq
    refine Or.inr ⟨.receive r, hreceive _ _, ?_⟩
    have hnil : (evs' ++ [Event.requested j s.server.calls.length r]).filterMap serverEvent =
        [] := by
      rw [List.filterMap_append]
      exact List.append_eq_nil_iff.mpr ⟨htr, rfl⟩
    rw [hnil]
    rfl

omit [DecidableEq ι] in
/-- The server of a system has allocated no more before the end of a run. -/
theorem serverTrace_allocations_lt {n : Nat} (tr evs : List (Event ι A O C))
    (h : allocations (serverTrace (tr ++ evs)) < n) : allocations (serverTrace tr) < n := by
  rw [serverTrace_append] at h
  exact allocations_lt _ _ h

/-- A run of the server without any condition is behind every run of the system. -/
theorem freeRun {codecs : Codecs A O C} {ok : System ι A O C → Action ι A O C → Prop}
    {tr : List (Event ι A O C)} {s : System ι A O C} (hr : (system ι codecs).Run ok tr s) :
    Signalling.server.Run Machine.Free (serverTrace tr) s.server :=
  serverRun Machine.Free (fun _ _ _ => trivial) (fun _ _ => trivial) hr

/-! ## Calls -/

/-- What has returned once stays returned. -/
theorem Moves.returned {codecs : Codecs A O C} {s t : System ι A O C} {a : Action ι A O C}
    {evs : List (Event ι A O C)} (hm : Moves codecs s a (t, evs)) {k : Nat}
    {result : Except Status Response} (h : s.Returned k result) : t.Returned k result := by
  obtain ⟨request, hk⟩ := h
  rcases hm.server_moves with ⟨hserver, _⟩ | ⟨b, hb, _⟩
  · exact ⟨request, hserver ▸ hk⟩
  · exact ⟨request, hb.done hk⟩

/-- Every request of a client has become a call, and every call belongs to one client. -/
structure CallsInv (tr : List (Event ι A O C)) (s : System ι A O C) : Prop where
  sent : ∀ j k r, Event.requested j k r ∈ tr → ∃ phase, s.server.calls[k]? = some ⟨r, phase⟩
  owner : ∀ j j' k r r', Event.requested j k r ∈ tr → Event.requested j' k r' ∈ tr → j = j'

omit [DecidableEq ι] in
/-- Two records of the same call are about the same request. -/
theorem CallsInv.request_eq {tr : List (Event ι A O C)} {s : System ι A O C} (h : CallsInv tr s)
    {j j' : ι} {k : Nat} {r r' : Request} (hr : Event.requested j k r ∈ tr)
    (hr' : Event.requested j' k r' ∈ tr) : r = r' := by
  obtain ⟨phase, hk⟩ := h.sent j k r hr
  obtain ⟨phase', hk'⟩ := h.sent j' k r' hr'
  rw [hk, Option.some.injEq, Call.mk.injEq] at hk'
  exact hk'.1

/-- Every step keeps the calls and their owners. -/
theorem Moves.callsInv {codecs : Codecs A O C} {tr evs : List (Event ι A O C)}
    {s t : System ι A O C} {a : Action ι A O C} (hm : Moves codecs s a (t, evs))
    (h : CallsInv tr s) : CallsInv (tr ++ evs) t := by
  rcases hm.effect with ⟨b, t', evs', rfl, hb, heq⟩ | ⟨j, c, evs', _, heq, _, hreq⟩ |
    ⟨j, f, r, evs', _, heq, _, hreq⟩
  · rw [Prod.mk.injEq] at heq
    obtain ⟨rfl, rfl⟩ := heq
    have hold {i k r} (hm : Event.requested i k r ∈ tr ++ evs'.map Event.server) :
        Event.requested i k r ∈ tr := by simpa using hm
    refine ⟨fun i k r hr => ?_, fun i i' k r r' hr hr' => h.owner i i' k r r' (hold hr) (hold hr')⟩
    obtain ⟨phase, hk⟩ := h.sent i k r (hold hr)
    exact (Server.step_moves hb).request hk
  · rw [put, Prod.mk.injEq] at heq
    obtain ⟨rfl, rfl⟩ := heq
    have hold {i k r} (hm : Event.requested i k r ∈ tr ++ evs) : Event.requested i k r ∈ tr :=
      (List.mem_append.mp hm).resolve_right (hreq i k r)
    exact ⟨fun i k r hr => h.sent i k r (hold hr),
      fun i i' k r r' hr hr' => h.owner i i' k r r' (hold hr) (hold hr')⟩
  · rw [send, Prod.mk.injEq] at heq
    obtain ⟨rfl, rfl⟩ := heq
    have hcase {i k r'} (hm : Event.requested i k r' ∈ tr ++ (evs' ++
        [.requested j s.server.calls.length r])) :
        Event.requested i k r' ∈ tr ∨ i = j ∧ k = s.server.calls.length ∧ r' = r := by
      rcases List.mem_append.mp hm with hm | hm
      · exact Or.inl hm
      · rcases List.mem_append.mp hm with hm | hm
        · exact absurd hm (hreq i k r')
        · exact Or.inr (by simpa using hm)
    have hlt {i k r'} (hm : Event.requested i k r' ∈ tr) : k < s.server.calls.length := by
      obtain ⟨phase, hk⟩ := h.sent i k r' hm
      exact (List.getElem?_eq_some_iff.mp hk).1
    constructor
    · intro i k r' hr
      rcases hcase hr with hr | ⟨_, rfl, rfl⟩
      · obtain ⟨phase, hk⟩ := h.sent i k r' hr
        refine ⟨phase, ?_⟩
        rw [Server.receive, List.getElem?_append_left (hlt hr)]
        exact hk
      · exact ⟨.received, List.getElem?_concat_length⟩
    · intro i i' k r' r'' hr hr'
      rcases hcase hr with ho | ⟨hi, hk, _⟩ <;> rcases hcase hr' with ho' | ⟨hi', hk', _⟩
      · exact h.owner i i' k r' r'' ho ho'
      · exact absurd hk' (hlt ho).ne
      · exact absurd hk (hlt ho').ne
      · rw [hi, hi']

/-! ## Identifiers and streams of a client -/

/-- A listener that client `j` opened has been handed stream `n`. -/
def Opened (tr : List (Event ι A O C)) (s : System ι A O C) (j : ι) (id : Id) (kind : Listener)
    (n : Nat) : Prop :=
  ∃ k, Event.requested j k (kind.request id) ∈ tr ∧ s.Returned k (.ok (kind.response n))

/-- The listeners of a peer are its own, at most one of a kind. -/
structure PeerInv (tr : List (Event ι A O C)) (s : System ι A O C) (j : ι) (p : Peer A O C) :
    Prop where
  listens : ∀ task ∈ p.unorderedFuts, ∀ kind listener, task.listener = some (kind, listener) →
    Opened tr s j p.localId kind listener.source
  single : ∀ kind, p.unorderedFuts.countP (Task.listensTo kind) ≤ 1

/-- The streams a client holds are its own, and it awaits no response between its steps. -/
def Holds (tr : List (Event ι A O C)) (s : System ι A O C) (j : ι) : Client A O C → Prop
  | .openingOfferListener id i _ => Opened tr s j id .peer i
  | .openingAnswerListener id i c _ =>
    Opened tr s j id .peer i ∧ Opened tr s j id (.signal .offer) c
  | .running p call => PeerInv tr s j p ∧ (call = none → p.progress = .idle)
  | .closing p _ | .closed p => PeerInv tr s j p ∧ p.progress = .idle
  | _ => True

/-- What the past of a client says about it. -/
structure ClientInv (tr : List (Event ι A O C)) (s : System ι A O C) (j : ι) (c : Client A O C) :
    Prop where
  staged : ∀ k r, Event.requested j k r ∈ tr → r.stage ≤ c.stage
  given : ∀ id, Event.advertised j id ∈ tr ↔ c.localId = some id
  source : ∀ id, c.localId = some id → ∃ k, Event.requested j k .advertise ∈ tr ∧
    s.Returned k (.ok (.advertise (some id)))
  once : ∀ k k' r r', Event.requested j k r ∈ tr → Event.requested j k' r' ∈ tr →
    r.stage = r'.stage → r.stage < 5 → k = k'
  authored : ∀ k r, Event.requested j k r ∈ tr →
    r = .advertise ∨ ∃ id, c.localId = some id ∧ r.MadeBy id
  awaits : ∀ k, c.call = some k → ∃ r, Event.requested j k r ∈ tr ∧ c.Awaits r
  holds : Holds tr s j c

variable {tr evs : List (Event ι A O C)} {s t : System ι A O C} {j : ι}

omit [DecidableEq ι] in
theorem Opened.mono {id : Id} {kind : Listener} {n : Nat} (h : Opened tr s j id kind n)
    (hret : ∀ k result, s.Returned k result → t.Returned k result) :
    Opened (tr ++ evs) t j id kind n := by
  obtain ⟨k, hr, hk⟩ := h
  exact ⟨k, List.mem_append_left _ hr, hret k _ hk⟩

omit [DecidableEq ι] in
theorem PeerInv.mono {p : Peer A O C} (h : PeerInv tr s j p)
    (hret : ∀ k result, s.Returned k result → t.Returned k result) : PeerInv (tr ++ evs) t j p :=
  ⟨fun task ht kind listener hl => (h.listens task ht kind listener hl).mono hret, h.single⟩

omit [DecidableEq ι] in
theorem Holds.mono {c : Client A O C} (h : Holds tr s j c)
    (hret : ∀ k result, s.Returned k result → t.Returned k result) : Holds (tr ++ evs) t j c := by
  cases c with
  | openingOfferListener id i k => exact Opened.mono h hret
  | openingAnswerListener id i c k => exact ⟨h.1.mono hret, h.2.mono hret⟩
  | running p call => exact ⟨h.1.mono hret, h.2⟩
  | closing p k => exact ⟨h.1.mono hret, h.2⟩
  | closed p => exact ⟨h.1.mono hret, h.2⟩
  | _ => trivial

omit [DecidableEq ι] in
/-- An input keeps the listeners of a peer its own. -/
theorem PeerInv.act {codecs : Codecs A O C} {p : Peer A O C} {input : Input A O C}
    {out : Outcome A O C} (h : PeerInv tr s j p) (ha : p.Acts codecs input out) :
    PeerInv tr s j out.peer := by
  refine ⟨fun task ht kind listener hl => ?_, fun kind => (ha.listeners kind).trans (h.single kind)⟩
  obtain ⟨task', ht', listener', hl', hsrc⟩ := ha.streams ht hl
  rw [ha.spec.1, ← hsrc]
  exact h.listens task' ht' kind listener' hl'

omit [DecidableEq ι] in
/-- A peer has no second peer listener. -/
theorem PeerInv.only {p : Peer A O C} (h : PeerInv tr s j p) {i : Nat} {listener : Streaming}
    (hi : p.unorderedFuts[i]? = some (.peerListener listener)) (listener' : Streaming) :
    Task.peerListener listener' ∉ p.unorderedFuts.eraseIdx i := by
  intro hmem
  have hle := h.single .peer
  rw [(Peer.futs_perm hi).countP_eq, List.countP_cons_of_pos (by rfl)] at hle
  have hpos : 0 < (p.unorderedFuts.eraseIdx i).countP (Task.listensTo .peer) :=
    List.countP_pos_iff.mpr ⟨_, hmem, rfl⟩
  omega

namespace ClientInv

variable {c c' : Client A O C}

omit [DecidableEq ι] in
/-- Nothing about a client changes while it and its events rest. -/
theorem frame (h : ClientInv tr s j c)
    (hret : ∀ k result, s.Returned k result → t.Returned k result)
    (he : ∀ e ∈ evs, e.client ≠ some j) : ClientInv (tr ++ evs) t j c := by
  have hreq : ∀ k r, Event.requested j k r ∉ evs := fun k r hm => he _ hm rfl
  have hadv : ∀ id, Event.advertised j id ∉ evs := fun id hm => he _ hm rfl
  have hold {k r} (hm : Event.requested j k r ∈ tr ++ evs) : Event.requested j k r ∈ tr :=
    (List.mem_append.mp hm).resolve_right (hreq k r)
  refine ⟨fun k r hm => h.staged k r (hold hm), fun id => ?_, fun id hid => ?_,
    fun k k' r r' hk hk' => h.once k k' r r' (hold hk) (hold hk'),
    fun k r hm => h.authored k r (hold hm), fun k hk => ?_, h.holds.mono hret⟩
  · rw [List.mem_append, or_iff_left (hadv id)]
    exact h.given id
  · obtain ⟨k, hr, hk⟩ := h.source id hid
    exact ⟨k, List.mem_append_left _ hr, hret k _ hk⟩
  · obtain ⟨r, hr, ha⟩ := h.awaits k hk
    exact ⟨r, List.mem_append_left _ hr, ha⟩

omit [DecidableEq ι] in
/-- A client moves on under its identifier, perhaps with a request in its name, of a stage that
has not been reached before. -/
theorem move (h : ClientInv tr s j c)
    (hret : ∀ k result, s.Returned k result → t.Returned k result) (hstage : c.stage ≤ c'.stage)
    (hid : c'.localId = c.localId) (hadv : ∀ id, Event.advertised j id ∉ evs)
    (hone : ∀ k k' r r', Event.requested j k r ∈ evs → Event.requested j k' r' ∈ evs → k = k')
    (hreq : ∀ k r, Event.requested j k r ∈ evs → r.stage ≤ c'.stage ∧
      (c.stage < r.stage ∨ r.stage = 5) ∧ ∃ id, c.localId = some id ∧ r.MadeBy id)
    (hawaits : ∀ k, c'.call = some k → ∃ r, Event.requested j k r ∈ tr ++ evs ∧ c'.Awaits r)
    (hholds : Holds (tr ++ evs) t j c') : ClientInv (tr ++ evs) t j c' := by
  refine ⟨fun k r hm => ?_, fun id => ?_, fun id hi => ?_, fun k k' r r' hk hk' hr hlt => ?_,
    fun k r hm => ?_, hawaits, hholds⟩
  · rcases List.mem_append.mp hm with hm | hm
    · exact (h.staged k r hm).trans hstage
    · exact (hreq k r hm).1
  · rw [hid, List.mem_append, or_iff_left (hadv id)]
    exact h.given id
  · rw [hid] at hi
    obtain ⟨k, hr, hk⟩ := h.source id hi
    exact ⟨k, List.mem_append_left _ hr, hret k _ hk⟩
  · rcases List.mem_append.mp hk with hk | hk <;> rcases List.mem_append.mp hk' with hk' | hk'
    · exact h.once k k' r r' hk hk' hr hlt
    · have hle := h.staged k r hk
      have hnew := (hreq k' r' hk').2.1
      omega
    · have hle := h.staged k' r' hk'
      have hnew := (hreq k r hk).2.1
      omega
    · exact hone k k' r r' hk hk'
  · rw [hid]
    rcases List.mem_append.mp hm with hm | hm
    · exact h.authored k r hm
    · exact Or.inr (hreq k r hm).2.2

/-- A client moves on without a request. -/
theorem rest (h : ClientInv tr s j c)
    (hret : ∀ k result, s.Returned k result → (s.put j c' evs).1.Returned k result)
    (hstage : c.stage ≤ c'.stage) (hid : c'.localId = c.localId)
    (hadv : ∀ id, Event.advertised j id ∉ evs) (hreq : ∀ k r, Event.requested j k r ∉ evs)
    (hcall : c'.call = none) (hholds : Holds tr s j c') :
    ClientInv (tr ++ (s.put j c' evs).2) (s.put j c' evs).1 j ((s.put j c' evs).1.clients j) := by
  simp only [put, Function.update_self] at hret ⊢
  exact h.move hret hstage hid hadv (fun k _ r _ hm _ => absurd hm (hreq k r))
    (fun k r hm => absurd hm (hreq k r)) (fun k hk => by rw [hcall] at hk; simp at hk)
    (hholds.mono hret)

/-- A client moves on with a request in its name. -/
theorem request {f : Nat → Client A O C} {r : Request} (h : ClientInv tr s j c)
    (hret : ∀ k result, s.Returned k result → (s.send j f r evs).1.Returned k result)
    (hstage : ∀ n, c.stage ≤ (f n).stage ∧ r.stage ≤ (f n).stage)
    (hnew : c.stage < r.stage ∨ r.stage = 5) (hid : ∀ n, (f n).localId = c.localId)
    (hadv : ∀ id, Event.advertised j id ∉ evs) (hreq : ∀ k r, Event.requested j k r ∉ evs)
    (hcall : ∀ n, (f n).call = some n) (ha : ∀ n, (f n).Awaits r) {id : Id}
    (hlocal : c.localId = some id) (hmade : r.MadeBy id) (hholds : ∀ n, Holds tr s j (f n)) :
    ClientInv (tr ++ (s.send j f r evs).2) (s.send j f r evs).1 j
      ((s.send j f r evs).1.clients j) := by
  have hmem {k r'} (hm : Event.requested j k r' ∈
      evs ++ [.requested j s.server.calls.length r]) : k = s.server.calls.length ∧ r' = r := by
    rcases List.mem_append.mp hm with hm | hm
    · exact absurd hm (hreq k r')
    · exact (Event.requested.inj (List.mem_singleton.mp hm)).2
  simp only [send, Function.update_self] at hret ⊢
  refine h.move hret (hstage _).1 (hid _) (fun id hm => ?_) (fun k k' r r' hm hm' => ?_)
    (fun k r' hm => ?_) (fun k hk => ?_) ((hholds _).mono hret)
  · rcases List.mem_append.mp hm with hm | hm
    · exact hadv id hm
    · simp at hm
  · rw [(hmem hm).1, (hmem hm').1]
  · rw [(hmem hm).2]
    exact ⟨(hstage _).2, hnew, id, hlocal, hmade⟩
  · rw [hcall, Option.some.injEq] at hk
    exact ⟨r, by simp [hk], ha _⟩

omit [DecidableEq ι] in
/-- A client that has not started has sent nothing. -/
theorem unsent (h : ClientInv tr s j .fresh) (k : Nat) (r : Request) :
    Event.requested j k r ∉ tr := fun hm => by
  have hle := h.staged k r hm
  have hpos := r.stage_pos
  rw [Client.stage] at hle
  omega

omit [DecidableEq ι] in
/-- A client starts. -/
theorem start (h : ClientInv tr s j .fresh) (n : Nat) :
    ClientInv (tr ++ [.requested j n .advertise]) t j (.advertising n) := by
  have hnew {k r} (hm : Event.requested j k r ∈ tr ++ [.requested j n .advertise]) :
      k = n ∧ r = .advertise := by
    rcases List.mem_append.mp hm with hm | hm
    · exact absurd hm (h.unsent k r)
    · exact (Event.requested.inj (List.mem_singleton.mp hm)).2
  refine ⟨fun k r hm => ?_, fun id => ?_, by simp [Client.localId],
    fun k k' r r' hk hk' _ _ => ?_, fun k r hm => Or.inl (hnew hm).2, fun k hk => ?_, trivial⟩
  · rw [(hnew hm).2]
    exact le_rfl
  · simpa [Client.localId] using h.given id
  · rw [(hnew hk).1, (hnew hk').1]
  · rw [Client.call, Option.some.injEq] at hk
    exact ⟨.advertise, by simp [hk], rfl⟩

omit [DecidableEq ι] in
/-- A client is given its identifier. -/
theorem advertised {k : Nat} {id : Id} (h : ClientInv tr s j (.advertising k))
    (hret : ∀ k result, s.Returned k result → t.Returned k result)
    (hk : s.Returned k (.ok (.advertise (some id)))) (n : Nat) :
    ClientInv (tr ++ [.advertised j id, .requested j n (.openPeerListener (some id))]) t j
      (.openingPeerListener id n) := by
  have hold {k r} (hm : Event.requested j k r ∈
      tr ++ [.advertised j id, .requested j n (.openPeerListener (some id))]) :
      Event.requested j k r ∈ tr ∨ k = n ∧ r = .openPeerListener (some id) := by
    simpa using hm
  refine ⟨fun k' r hm => ?_, fun id' => ?_, fun id' hid => ?_,
    fun k₁ k₂ r₁ r₂ hk₁ hk₂ hr hlt => ?_, fun k' r hm => ?_, fun k' hk' => ?_, trivial⟩
  · rcases hold hm with hm | ⟨_, rfl⟩
    · exact (h.staged k' r hm).trans (Nat.le_succ _)
    · exact le_rfl
  · have hnot := h.given id'
    simp only [Client.localId, reduceCtorEq, iff_false] at hnot
    simp [hnot, Client.localId, eq_comm]
  · rw [Client.localId, Option.some.injEq] at hid
    obtain ⟨r, hr, ha⟩ := h.awaits k rfl
    rw [show r = .advertise from ha] at hr
    exact ⟨k, List.mem_append_left _ hr, hid ▸ hret k _ hk⟩
  · rcases hold hk₁ with ho₁ | ⟨hn₁, rfl⟩ <;> rcases hold hk₂ with ho₂ | ⟨hn₂, rfl⟩
    · exact h.once k₁ k₂ r₁ r₂ ho₁ ho₂ hr hlt
    · have hle := h.staged k₁ r₁ ho₁
      rw [hr] at hle
      exact absurd hle (Nat.not_succ_le_self 1)
    · have hle := h.staged k₂ r₂ ho₂
      rw [← hr] at hle
      exact absurd hle (Nat.not_succ_le_self 1)
    · rw [hn₁, hn₂]
  · rcases hold hm with hm | ⟨_, rfl⟩
    · rcases h.authored k' r hm with hr | ⟨_, hnone, _⟩
      · exact Or.inl hr
      · simp [Client.localId] at hnone
    · exact Or.inr ⟨id, rfl, rfl⟩
  · rw [Client.call, Option.some.injEq] at hk'
    exact ⟨.openPeerListener (some id), by simp [hk'], rfl⟩

end ClientInv

omit [DecidableEq ι] in
/-- What is heard is heard by the client of the action. -/
theorem Hears.client {p : Peer A O C} {call : Option Nat} {a : Action ι A O C}
    {input : Input A O C} (h : Hears s j p call a input) : a.client = some j := by
  cases h <;> rfl

omit [DecidableEq ι] in
/-- The events of an outcome are about its client. -/
theorem client_eventsOf {out : Outcome A O C} {e : Event ι A O C} (h : e ∈ eventsOf j out) :
    e.client = some j := by
  rcases List.mem_append.mp h with h | h
  · obtain ⟨_, _, rfl⟩ := List.mem_map.mp h
    rfl
  · obtain ⟨_, _, rfl⟩ := List.mem_map.mp h
    rfl

/-- A step leaves every client but its own alone, and records nothing about another. -/
theorem Moves.others {codecs : Codecs A O C} {a : Action ι A O C}
    {out : System ι A O C × List (Event ι A O C)} (hm : Moves codecs s a out) {i : ι}
    (hi : a.client ≠ some i) :
    out.1.clients i = s.clients i ∧ ∀ e ∈ out.2, e.client ≠ some i := by
  have hput {j c evs} (hij : some j ≠ some i)
      (he : ∀ e ∈ evs, Event.client e = some j) :
      (s.put j c evs).1.clients i = s.clients i ∧
        ∀ e ∈ (s.put j c evs).2, Event.client e ≠ some i :=
    ⟨Function.update_of_ne (fun h => hij (congrArg some h.symm)) _ _,
      fun e hm => by rw [he e hm]; exact hij⟩
  have hsend {j f r evs} (hij : some j ≠ some i)
      (he : ∀ e ∈ evs, Event.client e = some j) :
      (s.send j f r evs).1.clients i = s.clients i ∧
        ∀ e ∈ (s.send j f r evs).2, Event.client e ≠ some i := by
    refine ⟨Function.update_of_ne (fun h => hij (congrArg some h.symm)) _ _, fun e hm => ?_⟩
    rcases List.mem_append.mp hm with hm | hm
    · rw [he e hm]
      exact hij
    · rw [List.mem_singleton.mp hm]
      exact hij
  cases hm with
  | server _ =>
    refine ⟨rfl, fun e he => ?_⟩
    obtain ⟨_, _, rfl⟩ := List.mem_map.mp he
    simp [Event.client]
  | start _ | peerListener _ _ | offerListener _ _ | close _ => exact hsend hi (by simp)
  | advertised _ _ => exact hsend hi (by simp [Event.client])
  | answerListener _ _ => exact hput hi (by simp)
  | giveUp _ _ ha =>
    rcases ha with rfl | ⟨rfl, _⟩
    · exact hput hi (by simp)
    · exact hput hi (by simp)
  | closed _ ha =>
    rcases ha with rfl | rfl
    · exact hput hi (by simp)
    · exact hput hi (by simp)
  | @act j p call _ _ out _ hh _ =>
    rw [hh.client] at hi
    unfold System.apply
    split
    · exact hput hi fun e => client_eventsOf
    · exact hsend hi fun e => client_eventsOf

omit [DecidableEq ι] in
/-- The pending request of a client is the one its client state awaits. -/
theorem ClientInv.awaits_request {c : Client A O C} (h : ClientInv tr s j c)
    (hcalls : CallsInv tr s) {k : Nat} (hk : c.call = some k) {r : Request}
    (hr : Event.requested j k r ∈ tr) : c.Awaits r := by
  obtain ⟨r', hr', ha⟩ := h.awaits k hk
  rwa [hcalls.request_eq hr hr']

omit [DecidableEq ι] in
/-- The stream that a client is handed is its own. -/
theorem ClientInv.opened {c : Client A O C} (h : ClientInv tr s j c) {k n : Nat} {id : Id}
    {kind : Listener} (hk : c.call = some k) (hc : ∀ r, c.Awaits r → r = kind.request id)
    (hret : s.Returned k (.ok (kind.response n))) : Opened tr s j id kind n := by
  obtain ⟨r, hr, ha⟩ := h.awaits k hk
  exact ⟨k, hc r ha ▸ hr, hret⟩

omit [DecidableEq ι] in
/-- A new peer listens to the streams its client was handed. -/
theorem PeerInv.new {id : Id} {i c c' : Nat} (hi : Opened tr s j id .peer i)
    (hc : Opened tr s j id (.signal .offer) c) (hc' : Opened tr s j id (.signal .answer) c') :
    PeerInv tr s j (Peer.new id i c c' : Peer A O C) := by
  constructor
  · intro task ht kind listener hl
    simp only [Peer.new, List.mem_cons, List.not_mem_nil, or_false] at ht
    rcases ht with rfl | rfl | rfl
    all_goals
      simp only [Task.listener, Option.some.injEq, Prod.mk.injEq] at hl
      obtain ⟨rfl, rfl⟩ := hl
      assumption
  · intro kind
    rcases kind with _ | _ | _ <;>
      simp [Peer.new, Task.listensTo, Task.listener]

/-- A running client whose peer takes an input. -/
theorem ClientInv.act {codecs : Codecs A O C} {p : Peer A O C} {call : Option Nat}
    (h : ClientInv tr s j (.running p call)) {input : Input A O C} {out : Outcome A O C}
    (ha : p.Acts codecs input out)
    (hret : ∀ k result, s.Returned k result → (s.apply j out).1.Returned k result) :
    ClientInv (tr ++ (s.apply j out).2) (s.apply j out).1 j ((s.apply j out).1.clients j) := by
  obtain ⟨hid, hset⟩ := ha.spec
  have hinv := PeerInv.act h.holds.1 ha
  have hadv : ∀ id, Event.advertised j id ∉ eventsOf j out := by simp [eventsOf]
  have hreq : ∀ k r, Event.requested j k r ∉ eventsOf j out := by simp [eventsOf]
  have hlocal : ∀ call', (Client.running out.peer call').localId =
      (Client.running p call).localId := fun _ => congrArg some hid
  cases hr : out.request with
  | none =>
    simp only [System.apply, hr] at hret ⊢
    rw [Outcome.Settled, hr] at hset
    exact h.rest hret le_rfl (hlocal none) hadv hreq rfl ⟨hinv, fun _ => hset⟩
  | some r =>
    simp only [System.apply, hr] at hret ⊢
    rw [Outcome.Settled, hr] at hset
    refine h.request hret (fun _ => ⟨le_rfl, hset.stage.le⟩) (Or.inr hset.stage)
      (fun _ => hlocal _) hadv hreq (fun _ => rfl) (fun _ => ?_) rfl hset.madeBy
      fun _ => ⟨hinv, by simp⟩
    rw [Client.Awaits, hid]
    exact hset

omit [DecidableEq ι] in
/-- A client opens each of its listeners once. -/
theorem ClientInv.opened_once {c : Client A O C} (h : ClientInv tr s j c) (hcalls : CallsInv tr s)
    {id id' : Id} {kind : Listener} {n n' : Nat} (ho : Opened tr s j id kind n)
    (ho' : Opened tr s j id' kind n') : id = id' ∧ n = n' := by
  obtain ⟨k, hr, request, hk⟩ := ho
  obtain ⟨k', hr', request', hk'⟩ := ho'
  have hstage : (kind.request id).stage = (kind.request id').stage ∧
      (kind.request id).stage < 5 := by
    rcases kind with _ | _ | _ <;> simp [Listener.request, Request.stage]
  obtain rfl := h.once k k' _ _ hr hr' hstage.1 hstage.2
  have hreq := hcalls.request_eq hr hr'
  rw [hk, Option.some.injEq, Call.mk.injEq, Phase.done.injEq, Except.ok.injEq] at hk'
  rcases kind with _ | slot
  · simp only [Listener.request, Listener.response, Request.openPeerListener.injEq,
      Option.some.injEq, Response.openPeerListener.injEq] at hreq hk'
    exact ⟨hreq, hk'.2⟩
  · simp only [Listener.request, Listener.response, Request.openListener.injEq,
      Option.some.injEq, Response.openListener.injEq] at hreq hk'
    exact ⟨hreq.2, hk'.2.2⟩

/-- Every step keeps what the past of each client says about it. -/
theorem Moves.clientInv {codecs : Codecs A O C} {a : Action ι A O C}
    {out : System ι A O C × List (Event ι A O C)} (hm : Moves codecs s a out)
    (h : ∀ i, ClientInv tr s i (s.clients i)) (i : ι) :
    ClientInv (tr ++ out.2) out.1 i (out.1.clients i) := by
  have hret : ∀ k result, s.Returned k result → out.1.Returned k result :=
    fun k result hk => Moves.returned (show Moves codecs s a (out.1, out.2) from hm) hk
  by_cases hown : a.client = some i
  · have hi := h i
    cases hm with
    | server _ => simp [Action.client] at hown
    | @start j hj =>
      obtain rfl : j = i := Option.some.inj hown
      rw [hj] at hi
      simp only [send, Function.update_self]
      exact hi.start _
    | @advertised j k id hj hk =>
      obtain rfl : j = i := Option.some.inj hown
      rw [hj] at hi
      simp only [send, Function.update_self]
      exact hi.advertised hret hk _
    | @peerListener j id k n hj hk =>
      obtain rfl : j = i := Option.some.inj hown
      rw [hj] at hi
      have hn : Opened tr s j id .peer n := hi.opened rfl (fun _ h => h) hk
      exact hi.request hret (by simp [Client.stage, Request.stage]) (Or.inl (Nat.lt_succ_self _))
        (fun _ => rfl) (by simp) (by simp) (fun _ => rfl) (fun _ => rfl) rfl rfl fun _ => hn
    | @offerListener j id n k c hj hk =>
      obtain rfl : j = i := Option.some.inj hown
      rw [hj] at hi
      have hc : Opened tr s j id (.signal .offer) c := hi.opened rfl (fun _ h => h) hk
      exact hi.request hret (by simp [Client.stage, Request.stage]) (Or.inl (Nat.lt_succ_self _))
        (fun _ => rfl) (by simp) (by simp) (fun _ => rfl) (fun _ => rfl) rfl rfl
        fun _ => ⟨hi.holds, hc⟩
    | @answerListener j id n c k c' hj hk =>
      obtain rfl : j = i := Option.some.inj hown
      rw [hj] at hi
      obtain ⟨hn, hc⟩ := hi.holds
      have hc' : Opened tr s j id (.signal .answer) c' := hi.opened rfl (fun _ h => h) hk
      exact hi.rest hret (by simp [Client.stage]) rfl (by simp) (by simp) rfl
        ⟨PeerInv.new hn hc hc', fun _ => rfl⟩
    | @giveUp j k status _ hst hk ha =>
      obtain rfl : j = i := by
        rcases ha with rfl | ⟨rfl, _⟩ <;> exact Option.some.inj hown
      refine hi.rest hret ?_ rfl (by simp) (by simp) rfl trivial
      cases hc : s.clients j <;> simp [Client.stage]
    | @act j p call _ input out hj hh ha =>
      obtain rfl : j = i := by
        rw [hh.client] at hown
        exact Option.some.inj hown
      rw [hj] at hi
      exact hi.act ha hret
    | @close j p hj =>
      obtain rfl : j = i := Option.some.inj hown
      rw [hj] at hi
      exact hi.request hret (fun _ => ⟨le_rfl, le_rfl⟩) (Or.inr rfl) (fun _ => rfl) (by simp)
        (by simp) (fun _ => rfl) (fun _ => rfl) rfl rfl fun _ => ⟨hi.holds.1, hi.holds.2 rfl⟩
    | @closed j p k _ response hj ha =>
      obtain rfl : j = i := by
        rcases ha with rfl | rfl <;> exact Option.some.inj hown
      rw [hj] at hi
      exact hi.rest hret le_rfl rfl (by simp) (by simp) rfl hi.holds
  · obtain ⟨hc, he⟩ := hm.others hown
    rw [hc]
    exact (h i).frame hret he

/-- The calls and the clients after every run. -/
theorem clientInv {codecs : Codecs A O C} {ok : System ι A O C → Action ι A O C → Prop}
    {tr : List (Event ι A O C)} {s : System ι A O C} (hr : (system ι codecs).Run ok tr s) :
    CallsInv tr s ∧ ∀ j, ClientInv tr s j (s.clients j) := by
  refine hr.invariant (I := fun tr s => CallsInv tr s ∧ ∀ j, ClientInv tr s j (s.clients j)) ?_ ?_
  · refine ⟨⟨by simp, by simp⟩, fun j => ?_⟩
    exact ⟨by simp, by simp [system, Client.localId], by simp [system, Client.localId], by simp,
      by simp, by simp [system, Client.call], trivial⟩
  · intro tr s a t evs _ h _ hs
    have hm : Moves codecs s a (t, evs) := step_moves hs
    exact ⟨hm.callsInv h.1, fun j => hm.clientInv h.2 j⟩

end System

end JustWebrtc.Signalling
