import Mathlib.Combinatorics.Enumerative.DoubleCounting
import JustWebrtc.Signalling.Client.Slots
import JustWebrtc.Signalling.Server.Delivery
import JustWebrtc.Signalling.System.Ledger

/-!
# Relayed signals

A client reads the signals of its channels in order and calls one callback for each of them
that deserializes. Every signal in a channel was accepted for the channel's peer, its request
was sent by the client whose identifier it carries, and that client sent it for a description
that one of its callbacks had returned.
-/

namespace JustWebrtc.Signalling

variable {ι A O C : Type*} [DecidableEq ι]

/-- The request that carries a signal to a slot of a peer. -/
theorem Request.signalTo_eq {request : Request} {slot : Slot} {q : Id} {sig : Signal}
    (h : request.signalTo slot q = some sig) : request = .signal slot (some q) (some sig) := by
  unfold Request.signalTo at h
  split at h
  · rw [Option.ite_none_right_eq_some, Option.some.injEq] at h
    obtain ⟨⟨rfl, rfl⟩, rfl⟩ := h
    rfl
  · simp only [reduceCtorEq] at h

namespace Server

/-- What has been put on the wire of a channel stays there. -/
theorem Moves.signalWire {s t : Server} {a : Action} {evs : List Event} (hm : s.Moves a t evs)
    (c : Nat) : s.signalWire c <+: t.signalWire c := by
  have hset {c' : Nat} {sc : SignalChannel} {channel : Channel SignalListenerRsp}
      (hc : s.channels[c']? = some sc) (hy : sc.channel.yielded <+: channel.yielded) :
      s.signalWire c <+:
        ((s.channels.set c' { sc with channel := channel })[c]?).elim [] fun sc =>
          sc.channel.yielded := by
    by_cases hcc : c' = c
    · subst hcc
      rw [List.getElem?_set_self (List.getElem?_eq_some_iff.mp hc).1, Server.signalWire, hc]
      exact hy
    · rw [List.getElem?_set_ne hcc]
      exact List.prefix_rfl
  cases hm with
  | accept _ _ _ hsc hsend =>
    exact hset hsc (by rw [(Channel.trySend_ok hsend).2.2.1])
  | pollChannel hsc hn =>
    obtain ⟨_, _, m, hy⟩ := Channel.next_some hn
    exact hset hsc (by rw [hy]; exact List.prefix_append _ _)
  | dropChannel hsc => exact hset hsc List.prefix_rfl
  | @openListener k order slot id peer channel _ _ _ hsend =>
    change s.signalWire c <+: ((s.channels ++ [_])[c]?).elim [] _
    by_cases hlt : c < s.channels.length
    · rw [List.getElem?_append_left hlt]
      exact List.prefix_rfl
    · rw [Server.signalWire, List.getElem?_eq_none (by omega)]
      exact List.nil_prefix
  | announce _ | depart _ _ => simp [Server.signalWire]
  | _ => exact List.prefix_rfl

end Server

namespace System

variable {codecs : Codecs A O C} {tr evs : List (Event ι A O C)} {s t : System ι A O C}
  {a : Action ι A O C} {j : ι} {slot : Slot}

/-! ## Reading -/

/-- The callbacks that client `j` has called for signals of a slot, in order. -/
def receivedTasks (slot : Slot) (j : ι) (tr : List (Event ι A O C)) : List (Task A O C) :=
  tr.filterMap fun
    | .called i task => if i = j ∧ task.slot = some slot then some task else none
    | _ => none

/-- The callbacks that are called for messages read from a slot. -/
def readTasks (codecs : Codecs A O C) (slot : Slot) (messages : List SignalListenerRsp) :
    List (Task A O C) :=
  messages.filterMap fun message => message.signal.bind (codecs.received slot)

@[simp] theorem receivedTasks_append (slot : Slot) (j : ι) (tr evs : List (Event ι A O C)) :
    receivedTasks slot j (tr ++ evs) = receivedTasks slot j tr ++ receivedTasks slot j evs :=
  List.filterMap_append

/-- An outcome adds the callbacks of the slot that it calls. -/
theorem receivedTasks_apply (s : System ι A O C) (j : ι) (out : Outcome A O C) :
    receivedTasks slot j (s.apply j out).2 =
      out.called.filter (fun task => task.slot = some slot) := by
  have hcalled (tasks : List (Task A O C)) :
      receivedTasks slot j (tasks.map (Event.called j)) =
        tasks.filter (fun task => task.slot = some slot) := by
    rw [receivedTasks, List.filterMap_map, ← List.filterMap_eq_filter]
    apply List.filterMap_congr
    intro task _
    by_cases h : task.slot = some slot <;> simp [h, Option.guard]
  rw [apply_eq, receivedTasks_append, eventsOf, receivedTasks_append, hcalled]
  cases out.consumed <;> cases out.request <;> simp [receivedTasks]

/-- Callbacks that are called for signals of a slot are counted among these. -/
theorem countP_receivedTasks {P : Task A O C → Bool}
    (hP : ∀ task, P task = true → task.slot = some slot) :
    tr.countP (Event.Calls j P) = (receivedTasks slot j tr).countP P := by
  rw [receivedTasks, List.countP_filterMap]
  congr 1
  funext e
  cases e with
  | called i task =>
    by_cases h : i = j ∧ task.slot = some slot
    · simp [Event.Calls, h]
    · have hnot : ¬ (i = j ∧ P task = true) := fun hp => h ⟨hp.1, hP task hp.2⟩
      simp only [if_neg h, Option.map_none, Option.getD_none, Event.Calls]
      simpa using hnot
  | _ => rfl

/-- What is not recorded for the peer of client `j` is none of them. -/
theorem receivedTasks_nil (he : ∀ e ∈ evs, e.ofPeer j = false) : receivedTasks slot j evs = [] := by
  rw [receivedTasks, List.filterMap_eq_nil_iff]
  intro e hm
  have hn := he e hm
  cases e with
  | called i task =>
    rw [Event.ofPeer, decide_eq_false_iff_not] at hn
    exact if_neg fun h => hn h.1
  | _ => rfl

omit [DecidableEq ι] in
/-- A message that a listener of a slot is handed is the next one on the wire. -/
theorem Hears.signal_message {p : Peer A O C} {call : Option Nat} {i : Nat}
    {message : SignalListenerRsp} {listener : Streaming}
    (h : Hears s j p call a (.signalMessage i (.ok (some message))))
    (hi : p.unorderedFuts[i]? = some (.signalListener slot listener)) :
    (s.server.signalWire listener.source)[listener.taken]? = some message := by
  cases h with
  | offerMessage hi' hm | answerMessage hi' hm =>
    rw [hi, Option.some.injEq] at hi'
    cases slot <;> simp [Task.signalListener] at hi'
    rwa [hi']
  | signalLost hlost => exact absurd rfl (hlost message)

/-- The client has read `n` messages from its channel `c` of a slot, and has called the
callbacks of those. -/
structure Reads (codecs : Codecs A O C) (slot : Slot) (tr : List (Event ι A O C))
    (s : System ι A O C) (j : ι) (p : Peer A O C) (c n : Nat) : Prop where
  opened : Opened tr s j p.localId (.signal slot) c
  listener : ∀ l, .signalListener slot l ∈ p.unorderedFuts → l = ⟨c, n⟩
  bound : n ≤ (s.server.signalWire c).length
  received : receivedTasks slot j tr = readTasks codecs slot ((s.server.signalWire c).take n)

/-- A client without a peer has called nothing; a peer has read a part of its channel. -/
def ReadsInv (codecs : Codecs A O C) (slot : Slot) (tr : List (Event ι A O C))
    (s : System ι A O C) (j : ι) : Prop :=
  match (s.clients j).peer? with
  | none => receivedTasks slot j tr = []
  | some p => ∃ c n, Reads codecs slot tr s j p c n

/-- What a client has read of a wire stays read while the wire grows. -/
theorem Reads.mono {p : Peer A O C} {c n : Nat} (h : Reads codecs slot tr s j p c n)
    (hm : Moves codecs s a (t, evs)) (hrec : receivedTasks slot j evs = []) :
    Reads codecs slot (tr ++ evs) t j p c n := by
  have hwire : s.server.signalWire c <+: t.server.signalWire c := by
    rcases hm.server_moves with ⟨hserver, _⟩ | ⟨b, hb, _⟩
    · rw [hserver]
    · exact hb.signalWire c
  obtain ⟨more, hmore⟩ := hwire
  refine ⟨h.opened.mono fun k result => hm.returned, h.listener, ?_, ?_⟩
  · rw [← hmore, List.length_append]
    exact h.bound.trans (Nat.le_add_right _ _)
  · rw [receivedTasks_append, hrec, List.append_nil, h.received, ← hmore,
      List.take_append_of_le_length h.bound]

/-- An input to the peer reads at most the next message, and calls its callback. -/
theorem Reads.act {p : Peer A O C} {call : Option Nat} {c n : Nat}
    (h : Reads codecs slot tr s j p c n) (hpeer : PeerInv tr s j p) {input : Input A O C}
    {out : Outcome A O C} (hh : Hears s j p call a input) (ha : p.Acts codecs input out)
    (hm : Moves codecs s a (s.apply j out)) :
    ∃ n', Reads codecs slot (tr ++ (s.apply j out).2) (s.apply j out).1 j out.peer c n' := by
  have hserver : (s.apply j out).1.server.signalWire c = s.server.signalWire c := by
    rw [apply_eq]
    cases out.request <;> rfl
  have hopened : Opened (tr ++ (s.apply j out).2) (s.apply j out).1 j out.peer.localId
      (.signal slot) c := by
    rw [ha.spec.1]
    exact h.opened.mono fun k result =>
      Moves.returned (show Moves codecs s a ((s.apply j out).1, (s.apply j out).2) from hm)
  -- nothing is read where no listener goes on
  have hkept (hl : out.peer.listening slot ⊆ p.listening slot)
      (hcalled : out.called.filter (fun task => task.slot = some slot) = []) :
      Reads codecs slot (tr ++ (s.apply j out).2) (s.apply j out).1 j out.peer c n := by
    refine ⟨hopened, fun l hm => ?_, by rw [hserver]; exact h.bound, ?_⟩
    · exact h.listener l (Peer.mem_slotListener.mp (hl (Peer.mem_slotListener.mpr hm)))
    · rw [receivedTasks_append, receivedTasks_apply, hcalled, List.append_nil, h.received, hserver]
  have hreads := ha.reads slot
  cases hreads with
  | apart hperm hnil => exact ⟨n, hkept hperm.subset hnil⟩
  | lost hi _ hperm hnil =>
    refine ⟨n, hkept (fun l hm => ?_) hnil⟩
    exact ((List.eraseIdx_sublist _ _).filterMap _).subset (hperm.subset hm)
  | @read i listener message _ hi _ hperm hcalled =>
    have hmsg := hh.signal_message hi
    obtain rfl := h.listener listener (List.mem_of_getElem? hi)
    have hlt := (List.getElem?_eq_some_iff.mp hmsg).1
    refine ⟨n + 1, hopened, fun l hm => ?_, by rw [hserver]; exact hlt, ?_⟩
    · rcases List.mem_cons.mp (hperm.subset (Peer.mem_slotListener.mpr hm)) with hm | hm
      · exact hm
      · have hle := hpeer.single (.signal slot)
        rw [(Peer.futs_perm hi).countP_eq,
          List.countP_cons_of_pos (by simp [Task.listensTo])] at hle
        have hpos : 0 < (p.unorderedFuts.eraseIdx i).countP (Task.listensTo (.signal slot)) :=
          List.countP_pos_iff.mpr ⟨_, Peer.mem_slotListener.mp hm, by simp [Task.listensTo]⟩
        omega
    · rw [receivedTasks_append, receivedTasks_apply, hcalled, h.received, hserver,
        List.take_add_one, hmsg, readTasks, readTasks, List.filterMap_append]
      cases hsig : message.signal.bind (codecs.received slot) <;> simp [hsig, Codecs.decoded]

/-- Every step keeps what each client has read. -/
theorem Moves.readsInv (hm : Moves codecs s a (t, evs)) (hclient : ClientInv tr s j (s.clients j))
    (hclient' : ClientInv (tr ++ evs) t j (t.clients j)) (h : ReadsInv codecs slot tr s j) :
    ReadsInv codecs slot (tr ++ evs) t j := by
  rcases hm.peer_cases j with ⟨p, call, input, o, hj, hh, hacts, heq⟩ | ⟨he, hp⟩
  · rw [Prod.mk.injEq] at heq
    obtain ⟨rfl, rfl⟩ := heq
    rw [hj] at hclient
    rw [ReadsInv, hj] at h
    obtain ⟨c, n, h⟩ := h
    obtain ⟨n', h'⟩ := h.act hclient.holds.1 hh hacts hm
    rw [ReadsInv, clients_apply]
    exact ⟨c, n', h'⟩
  · have hnil : receivedTasks slot j evs = [] := receivedTasks_nil he
    rcases hp with hp | ⟨hnone, id, i, c, c', hp⟩
    · rw [ReadsInv, hp]
      rw [ReadsInv] at h
      split at h
      · rw [receivedTasks_append, h, hnil]
        rfl
      · obtain ⟨c, n, h⟩ := h
        exact ⟨c, n, h.mono hm hnil⟩
    · rw [ReadsInv, hnone] at h
      rw [ReadsInv, hp]
      have hpeer : PeerInv (tr ++ evs) t j (Peer.new id i c c') := by
        cases hc : t.clients j <;> rw [hc] at hp hclient' <;> simp [Client.peer?] at hp
        all_goals
          subst hp
          exact hclient'.holds.1
      obtain ⟨src, hsrc⟩ : ∃ src, ∀ l, .signalListener slot l ∈
          (Peer.new id i c c' : Peer A O C).unorderedFuts ↔ l = ⟨src, 0⟩ := by
        cases slot with
        | offer => exact ⟨c, by simp [Peer.new, Task.signalListener]⟩
        | answer => exact ⟨c', by simp [Peer.new, Task.signalListener]⟩
      refine ⟨src, 0, ?_, fun l => (hsrc l).mp, Nat.zero_le _, ?_⟩
      · exact hpeer.listens _ ((hsrc _).mpr rfl) _ ⟨src, 0⟩ (by simp)
      · rw [receivedTasks_append, h, hnil]
        rfl

/-- What each client has read after every run. -/
theorem readsInv {ok : System ι A O C → Action ι A O C → Prop}
    (hr : (system ι codecs).Run ok tr s) (slot : Slot) (j : ι) : ReadsInv codecs slot tr s j := by
  refine hr.invariant (I := fun tr s => ReadsInv codecs slot tr s j) ?_ ?_
  · rfl
  · intro tr s a t evs hr h ha hs
    have hm : Moves codecs s a (t, evs) := step_moves hs
    exact hm.readsInv ((clientInv hr).2 j) ((clientInv (hr.step ha hs)).2 j) h

/-! ## Sending -/

/-- In an honest run every call is the request of a client. -/
theorem authors (hr : (system ι codecs).Run Honest tr s) :
    ∀ k call, s.server.calls[k]? = some call → ∃ i, Event.requested i k call.request ∈ tr := by
  refine hr.invariant (I := fun tr s => ∀ k call, s.server.calls[k]? = some call →
    ∃ i, Event.requested i k call.request ∈ tr) (by simp [system, Server.new]) ?_
  intro tr s a t evs _ h ha hs k call hk
  have hm : Moves codecs s a (t, evs) := step_moves hs
  have hold {request : Request} (hex : ∃ phase, s.server.calls[k]? = some ⟨request, phase⟩) :
      ∃ i, Event.requested i k request ∈ tr ++ evs := by
    obtain ⟨phase, hk⟩ := hex
    obtain ⟨i, hi⟩ := h k _ hk
    exact ⟨i, List.mem_append_left _ hi⟩
  rcases hm.effect with ⟨b, t', evs', rfl, hb, heq⟩ | ⟨_, _, _, _, heq, _⟩ |
    ⟨i, f, r, evs', _, heq, _⟩
  · rw [Prod.mk.injEq] at heq
    obtain ⟨rfl, rfl⟩ := heq
    have hmoves := Server.step_moves hb
    rcases hmoves.calls with ⟨request, rfl, _⟩ | ⟨k', _, call', phase, _, hk', ht⟩ | ⟨_, _, ht⟩
    · exact absurd ha.1 (by simp [Action.outside])
    · rw [ht] at hk
      rcases (Server.getElem?_calls_setPhase hk').mp hk with ⟨rfl, rfl⟩ | ⟨_, hk⟩
      · exact hold ⟨_, hk'⟩
      · exact hold ⟨_, hk⟩
    · rw [ht] at hk
      exact hold ⟨_, hk⟩
  · rw [put, Prod.mk.injEq] at heq
    obtain ⟨rfl, rfl⟩ := heq
    exact hold ⟨_, hk⟩
  · rw [send, Prod.mk.injEq] at heq
    obtain ⟨rfl, rfl⟩ := heq
    by_cases hlt : k < s.server.calls.length
    · rw [Server.receive, List.getElem?_append_left hlt] at hk
      exact hold ⟨_, hk⟩
    · have hle := (List.getElem?_eq_some_iff.mp hk).1
      rw [Server.receive, List.length_append, List.length_singleton] at hle
      obtain rfl : k = s.server.calls.length := by omega
      rw [Server.receive, List.getElem?_concat_length, Option.some.injEq] at hk
      exact ⟨i, by simp [← hk]⟩

/-- In an honest run every client allocates at most once. -/
theorem allocations_le_card [Fintype ι] (hr : (system ι codecs).Run Honest tr s) :
    allocations (serverTrace tr) ≤ Fintype.card ι := by
  obtain ⟨hnodup, hpast⟩ := Server.allocated_once (freeRun hr)
  rw [← length_allocatedCalls, ← List.toFinset_card_of_nodup hnodup]
  refine Finset.card_le_card_of_forall_subsingleton
    (fun k j => Event.requested j k .advertise ∈ tr) (fun k hk => ?_) fun j _ k hk k' hk' => ?_
  · obtain ⟨phase, hk, _⟩ := hpast k (List.mem_toFinset.mp hk)
    obtain ⟨j, hj⟩ := authors hr k _ hk
    exact ⟨j, Finset.mem_univ j, hj⟩
  · exact ((clientInv hr).2 j).once k k' _ _ hk.2 hk'.2 rfl (by simp [Request.stage])

/-- No two clients are given the same identifier. -/
theorem localId_unique {ok : System ι A O C → Action ι A O C → Prop}
    (hr : (system ι codecs).Run ok tr s) (hn : allocations (serverTrace tr) < 2 ^ 64) {i j : ι}
    {id : Id} (hi : (s.clients i).localId = some id) (hj : (s.clients j).localId = some id) :
    i = j := by
  obtain ⟨hcalls, hclients⟩ := clientInv hr
  have hid := Server.identityInv (freeRun hr) hn
  obtain ⟨k, hk, hret⟩ := (hclients i).source id hi
  obtain ⟨k', hk', hret'⟩ := (hclients j).source id hj
  obtain ⟨x, hx, hins⟩ := hid.returned k _ hret
  obtain ⟨x', hx', hins'⟩ := hid.returned k' _ hret'
  obtain rfl := Option.some.inj hx
  obtain rfl := Option.some.inj hx'
  obtain rfl := hid.once k k' _ (hid.inserted k _ hins) (hid.inserted k' _ hins')
  exact hcalls.owner i j k _ _ hk hk'

/-- A signal to a slot of the peer `q` was requested by a client and accepted. -/
def Accepted (tr : List (Event ι A O C)) (slot : Slot) (q : Id) (sig : Signal) : Prop :=
  ∃ i k, Event.requested i k (.signal slot (some q) (some sig)) ∈ tr ∧
    Event.server (.accepted k) ∈ tr

omit [DecidableEq ι] in
/-- What the server has accepted is in the list of its acceptances. -/
theorem mem_acceptances {k : Nat} :
    k ∈ acceptances (serverTrace tr) ↔ Event.server (.accepted k) ∈ tr := by
  rw [← mem_serverTrace, acceptances, List.mem_filterMap]
  constructor
  · rintro ⟨e, hm, he⟩
    cases e <;> simp only [acceptedCall, Option.some.injEq, reduceCtorEq] at he
    rwa [← he]
  · exact fun hm => ⟨_, hm, rfl⟩

/-- The sender of a client's signal is the client. -/
theorem signal_author {ok : System ι A O C → Action ι A O C → Prop}
    (hr : (system ι codecs).Run ok tr s) {i : ι} {k : Nat} {remotePeer : Option Id} {sig : Signal}
    (h : Event.requested i k (.signal slot remotePeer (some sig)) ∈ tr) :
    (s.clients i).localId = some sig.sender := by
  obtain ⟨id, hid, r, x, _, hx, hsender⟩ :=
    (((clientInv hr).2 i).authored k _ h).resolve_left (by simp)
  rw [hid, Option.some.inj hx, hsender]

/-- A call that carries a signal to a slot of a peer is the request of a client. -/
theorem carried (hr : (system ι codecs).Run Honest tr s) {q : Id} {sig : Signal} {k : Nat}
    (h : ((s.server.calls[k]?).bind fun call => call.request.signalTo slot q) = some sig) :
    ∃ i, Event.requested i k (.signal slot (some q) (some sig)) ∈ tr := by
  obtain ⟨call, hk, hsig⟩ := Option.bind_eq_some_iff.mp h
  rw [← Request.signalTo_eq hsig]
  exact authors hr k call hk

/-- The call of such a request of client `i`. -/
def Event.sentCall (i : ι) (R : Request → Bool) : Event ι A O C → Option Nat
  | .requested i' k r => if i' = i ∧ R r = true then some k else none
  | _ => none

/-- The delivered signals of a client are no more than the requests it has sent. -/
theorem delivered_le_requested (hr : (system ι codecs).Run Honest tr s)
    (hn : allocations (serverTrace tr) < 2 ^ 64) {i : ι} {p q : Id}
    (hi : (s.clients i).localId = some p) {f : Signal → Bool} {R : Request → Bool}
    (hf : ∀ sig, f sig = true → sig.sender = p ∧ R (.signal slot (some q) (some sig)) = true) :
    (s.server.delivered (serverTrace tr) slot q).countP f ≤ tr.countP (Event.Requests i R) := by
  let carries (k : Nat) : Bool :=
    (((s.server.calls[k]?).bind fun call => call.request.signalTo slot q).map f).getD false
  have hleft : (s.server.delivered (serverTrace tr) slot q).countP f =
      ((acceptances (serverTrace tr)).filter carries).length := by
    rw [Server.delivered, List.countP_filterMap, List.countP_eq_length_filter]
  have hright : (tr.filterMap (Event.sentCall i R)).length = tr.countP (Event.Requests i R) := by
    rw [List.length_filterMap_eq_countP]
    congr 1
    funext e
    cases e with
    | requested i' k r =>
      by_cases h : i' = i ∧ R r = true
      · simp [Event.sentCall, Event.Requests, h]
      · simp only [Event.sentCall, if_neg h, Option.isSome_none, Event.Requests]
        simpa using h
    | _ => rfl
  have hnodup := (Server.deliveryInv (freeRun hr) hn).2.nodup.filter carries
  rw [hleft, ← hright]
  refine (hnodup.subperm fun k hk => ?_).length_le
  obtain ⟨_, hc⟩ := List.mem_filter.mp hk
  obtain ⟨sig, hsig, hfs⟩ : ∃ sig, ((s.server.calls[k]?).bind fun call =>
      call.request.signalTo slot q) = some sig ∧ f sig = true := by
    simp only [carries] at hc
    cases hx : (s.server.calls[k]?).bind fun call => call.request.signalTo slot q with
    | none => simp [hx] at hc
    | some sig => exact ⟨sig, rfl, by simpa [hx] using hc⟩
  obtain ⟨i', hreq⟩ := carried hr hsig
  obtain ⟨hsender, hR⟩ := hf sig hfs
  obtain rfl : i' = i := localId_unique hr hn (hsender ▸ signal_author hr hreq) hi
  exact List.mem_filterMap.mpr ⟨_, hreq, if_pos ⟨rfl, hR⟩⟩

/-! ## What is received has been sent -/

omit [DecidableEq ι] in
/-- The channel that a client is handed is the one of its peer and the slot. -/
theorem Opened.key {log : List Signalling.Event} {id : Id} {c : Nat}
    (h : Opened tr s j id (.signal slot) c) (hcalls : CallsInv tr s)
    (hdel : Server.DeliveryInv log s.server) : s.server.key c = some (slot, id) := by
  obtain ⟨k, hr, request, hk⟩ := h
  obtain ⟨q, hreq, hkey⟩ := hdel.opened k request slot c hk
  obtain ⟨phase, hk'⟩ := hcalls.sent j k _ hr
  rw [hk, Option.some.injEq, Call.mk.injEq] at hk'
  rw [hk'.1, Listener.request, Request.openListener.injEq, Option.some.injEq] at hreq
  rwa [hreq.2]

/-- The callbacks that a client has called for signals are, in order, some of those that the
delivered signals are for. -/
theorem received_sublist {ok : System ι A O C → Action ι A O C → Prop}
    (hr : (system ι codecs).Run ok tr s) (hn : allocations (serverTrace tr) < 2 ^ 64) {q : Id}
    (hj : (s.clients j).localId = some q) :
    (receivedTasks slot j tr).Sublist
      ((s.server.delivered (serverTrace tr) slot q).filterMap (codecs.received slot)) := by
  have hreads := readsInv hr slot j
  cases hp : (s.clients j).peer? with
  | none =>
    rw [ReadsInv, hp] at hreads
    rw [hreads]
    exact List.nil_sublist _
  | some p =>
    rw [ReadsInv, hp] at hreads
    obtain ⟨c, n, h⟩ := hreads
    obtain rfl : p.localId = q := by
      rw [Client.localId_of_peer? hp, Option.some.injEq] at hj
      exact hj
    obtain ⟨_, hdel⟩ := Server.deliveryInv (freeRun hr) hn
    have hkey := h.opened.key (clientInv hr).1 hdel
    simp only [Server.key, Option.map_eq_some_iff, Prod.mk.injEq] at hkey
    obtain ⟨sc, hsc, rfl, hpeer⟩ := hkey
    have hwire : (s.server.signalWire c).Sublist sc.channel.items := by
      rw [Server.signalWire, hsc]
      exact List.sublist_append_left _ _
    rw [hdel.items c sc hsc, hpeer] at hwire
    have hread := ((List.take_sublist n _).trans hwire).filterMap
      fun message => message.signal.bind (codecs.received sc.slot)
    rw [List.filterMap_cons, List.filterMap_map] at hread
    rw [h.received]
    exact hread

/-- A signal is sent for a description that a callback has returned for its addressee. -/
theorem requested_source {ok : System ι A O C → Action ι A O C → Prop}
    (hr : (system ι codecs).Run ok tr s) (hanswer : codecs.answer.Inverts)
    (hoffer : codecs.offer.Inverts) (hcandidates : codecs.candidates.Inverts) {i : ι} {k : Nat}
    {q : Id} {sig : Signal} (h : Event.requested i k (.signal slot (some q) (some sig)) ∈ tr) :
    ∃ state task, Event.consumed i state ∈ tr ∧ state.remoteId = some q ∧
      state.relayed sig.sender = some task ∧ codecs.received slot sig = some task := by
  classical
  let R (request : Request) : Bool := decide (request = .signal slot (some q) (some sig))
  let Q (state : SignallingState A O C) : Bool := decide (state.remoteId = some q ∧
    ∃ task, state.relayed sig.sender = some task ∧ codecs.received slot sig = some task)
  have hle : tr.countP (Event.Requests i R) ≤ tr.countP (Event.Consumes i Q) := by
    refine requested_le_consumed hr hanswer hoffer hcandidates i (fun request hR => ?_) ?_
    · rw [of_decide_eq_true hR]
      rfl
    · intro slot' state sig' task hR hrelay hrec
      obtain ⟨rfl, hq, hs⟩ := Request.signal.inj (of_decide_eq_true hR)
      obtain rfl := Option.some.inj hs
      exact decide_eq_true ⟨hq, task, hrelay, hrec⟩
  have hpos : 0 < tr.countP (Event.Requests i R) :=
    List.countP_pos_iff.mpr ⟨_, h, by simp [Event.Requests, R]⟩
  obtain ⟨e, hm, he⟩ := List.countP_pos_iff.mp (hpos.trans_le hle)
  cases e with
  | consumed i' state =>
    simp only [Event.Consumes, Bool.and_eq_true, decide_eq_true_eq, Q] at he
    obtain ⟨rfl, hq, task, hrelay, hrec⟩ := he
    exact ⟨state, task, hm, hq, hrelay, hrec⟩
  | _ => simp [Event.Consumes] at he

/-- A client that has called a callback for a signal has been given its identifier. -/
theorem received_localId {ok : System ι A O C → Action ι A O C → Prop}
    (hr : (system ι codecs).Run ok tr s) {task : Task A O C} (h : Event.called j task ∈ tr)
    (hslot : task.slot = some slot) : ∃ q, (s.clients j).localId = some q := by
  have hmem : task ∈ receivedTasks slot j tr := List.mem_filterMap.mpr ⟨_, h, by simp [hslot]⟩
  have hreads := readsInv hr slot j
  cases hp : (s.clients j).peer? with
  | none =>
    rw [ReadsInv, hp] at hreads
    simp [hreads] at hmem
  | some p => exact ⟨p.localId, Client.localId_of_peer? hp⟩

/-- A callback that a client has called for a signal is for a description that a callback of the
signal's sender has returned, and whose signal the server has accepted. -/
theorem relayed (hr : (system ι codecs).Run Honest tr s)
    (hn : allocations (serverTrace tr) < 2 ^ 64) (hanswer : codecs.answer.Inverts)
    (hoffer : codecs.offer.Inverts) (hcandidates : codecs.candidates.Inverts) {p q : Id}
    {task : Task A O C} (hj : (s.clients j).localId = some q) (h : Event.called j task ∈ tr)
    (hslot : task.slot = some slot) (hremote : task.remoteId = some p) :
    ∃ i sig state, (s.clients i).localId = some p ∧ sig.sender = p ∧
      codecs.received slot sig = some task ∧ Accepted tr slot q sig ∧
      Event.consumed i state ∈ tr ∧ state.remoteId = some q ∧ state.relayed p = some task := by
  have hmem : task ∈ receivedTasks slot j tr := List.mem_filterMap.mpr ⟨_, h, by simp [hslot]⟩
  obtain ⟨sig, hsig, hrec⟩ := List.mem_filterMap.mp ((received_sublist hr hn hj).subset hmem)
  have hsender : sig.sender = p := by
    have hid := (Codecs.received_spec hrec).2.1
    rw [hremote, Option.some.injEq] at hid
    exact hid.symm
  obtain ⟨k, hacc, hk⟩ := List.mem_filterMap.mp hsig
  obtain ⟨i, hreq⟩ := carried hr hk
  obtain ⟨state, task', hcons, hq, hrelay, hrec'⟩ :=
    requested_source hr hanswer hoffer hcandidates hreq
  obtain rfl := Option.some.inj (hrec.symm.trans hrec')
  exact ⟨i, sig, state, hsender ▸ signal_author hr hreq, hsender, hrec,
    ⟨i, k, hreq, mem_acceptances.mp hacc⟩, hcons, hq, hsender ▸ hrelay⟩

/-- A client has called callbacks for the signals of another at most as often as the other has
consumed descriptions for it. -/
theorem received_le_consumed (hr : (system ι codecs).Run Honest tr s)
    (hn : allocations (serverTrace tr) < 2 ^ 64) (hanswer : codecs.answer.Inverts)
    (hoffer : codecs.offer.Inverts) (hcandidates : codecs.candidates.Inverts) {i : ι} {p q : Id}
    (hi : (s.clients i).localId = some p) (hj : (s.clients j).localId = some q)
    {P : Task A O C → Bool} {Q : SignallingState A O C → Bool}
    (hP : ∀ task, P task = true → task.slot = some slot ∧ task.remoteId = some p)
    (hQ : ∀ state task, state.remoteId = some q → state.relayed p = some task → P task = true →
      Q state = true) :
    tr.countP (Event.Calls j P) ≤ tr.countP (Event.Consumes i Q) := by
  let f (sig : Signal) : Bool := ((codecs.received slot sig).map P).getD false
  let R (request : Request) : Bool := (request.signalTo slot q).any f
  have hf {sig : Signal} (h : f sig = true) :
      ∃ task, codecs.received slot sig = some task ∧ P task = true := by
    simp only [f] at h
    cases hrec : codecs.received slot sig with
    | none => simp [hrec] at h
    | some task => exact ⟨task, rfl, by simpa [hrec] using h⟩
  calc tr.countP (Event.Calls j P)
      = (receivedTasks slot j tr).countP P := countP_receivedTasks fun task hp => (hP task hp).1
    _ ≤ ((s.server.delivered (serverTrace tr) slot q).filterMap (codecs.received slot)).countP P :=
        (received_sublist hr hn hj).countP_le
    _ = (s.server.delivered (serverTrace tr) slot q).countP f := List.countP_filterMap
    _ ≤ tr.countP (Event.Requests i R) := by
        refine delivered_le_requested hr hn hi fun sig hs => ?_
        obtain ⟨task, hrec, hp⟩ := hf hs
        have hsender := (Codecs.received_spec hrec).2.1
        rw [(hP task hp).2, Option.some.injEq] at hsender
        exact ⟨hsender.symm, by simp [R, Request.signalTo, hs]⟩
    _ ≤ tr.countP (Event.Consumes i Q) := by
        refine requested_le_consumed hr hanswer hoffer hcandidates i (fun request hR => ?_) ?_
        · cases request <;> simp_all [R, Request.signalTo, Request.isSignal]
        · intro slot' state sig task hR hrelay hrec
          obtain ⟨sig', hsig, hs⟩ := (Option.any_eq_true _ _).mp hR
          obtain ⟨rfl, hq, hsame⟩ := Request.signal.inj (Request.signalTo_eq hsig)
          obtain rfl := Option.some.inj hsame
          obtain ⟨task', hrec', hp⟩ := hf hs
          obtain rfl := Option.some.inj (hrec.symm.trans hrec')
          have hsender := (Codecs.received_spec hrec).2.1
          rw [(hP task hp).2, Option.some.injEq] at hsender
          exact hQ state task hq (hsender ▸ hrelay) hp

end System

end JustWebrtc.Signalling
