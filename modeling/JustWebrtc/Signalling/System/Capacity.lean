import JustWebrtc.Signalling.System.Callbacks
import JustWebrtc.Signalling.System.Mesh
import JustWebrtc.Signalling.Server.Teardown

/-!
# Buffers of sixteen

A signal channel and the peer change ring hold sixteen messages each. A client signals to a slot
of another peer at most once and never to itself, and the first message of a channel is the empty
one, so the channels of sixteen clients never fill up, however slowly they are read. A client is
announced once, so where nobody leaves, no listener of sixteen clients lags behind.
-/

namespace JustWebrtc.Signalling

/-- The call has drawn an identifier and has not announced it. -/
def Call.advertising (c : Call) : Bool :=
  match c.phase with
  | .inserting _ | .announcing _ => true
  | _ => false

namespace Server

variable {s t : Server} {a : Action} {evs tr : List Signalling.Event}
  {ok : Server → Action → Prop}

/-! ## Channels -/

/-- Every channel holds sixteen messages and has been handed out. -/
structure ChannelsInv (s : Server) : Prop where
  capacity : ∀ sc ∈ s.channels, sc.channel.capacity = 16
  handed : ∀ c slot p, s.key c = some (slot, p) → ∃ k, s.HandedOut k slot p c

/-- A channel that stays in its place keeps its capacity. -/
theorem ChannelsInv.set (h : s.ChannelsInv) {c : Nat} {sc : SignalChannel}
    {channel : Channel SignalListenerRsp} (hc : s.channels[c]? = some sc)
    (hcap : channel.capacity = sc.channel.capacity) :
    ∀ sc' ∈ s.channels.set c { sc with channel := channel }, sc'.channel.capacity = 16 := by
  intro sc' hmem
  rcases List.mem_or_eq_of_mem_set hmem with hmem | rfl
  · exact h.capacity sc' hmem
  · exact hcap.trans (h.capacity sc (List.mem_of_getElem? hc))

/-- Every step keeps the capacities, and hands out the channel that it opens. -/
theorem Moves.channelsInv (hm : s.Moves a t evs) (h : s.ChannelsInv) : t.ChannelsInv := by
  have hkept {c : Nat} {slot : Slot} {p : Id} (hkey : s.key c = some (slot, p)) :
      ∃ k, t.HandedOut k slot p c := by
    obtain ⟨k, hk⟩ := h.handed c slot p hkey
    exact ⟨k, hm.done hk⟩
  cases hm with
  | accept _ _ _ hsc hsend =>
    refine ⟨h.set hsc (Channel.capacity_trySend hsend), fun c slot p hkey => hkept ?_⟩
    exact (key_set hsc _ c).symm.trans hkey
  | pollChannel hsc hn =>
    refine ⟨h.set hsc (Channel.capacity_next hn), fun c slot p hkey => hkept ?_⟩
    exact (key_set hsc _ c).symm.trans hkey
  | dropChannel hsc =>
    refine ⟨h.set hsc (Channel.capacity_dropReceiver _), fun c slot p hkey => hkept ?_⟩
    exact (key_set hsc _ c).symm.trans hkey
  | @openListener k _ slot id _ channel hk _ _ hsend =>
    refine ⟨fun sc hmem => ?_, fun c slot' p hkey => ?_⟩
    · rcases List.mem_append.mp hmem with hmem | hmem
      · exact h.capacity sc hmem
      · rw [List.mem_singleton.mp hmem]
        exact Channel.capacity_trySend hsend
    · have hnew : (if c = s.channels.length then some (slot, id) else s.key c) =
          some (slot', p) := (key_append rfl c).symm.trans hkey
      split at hnew
      · rename_i hc
        rw [Option.some.injEq, Prod.mk.injEq] at hnew
        obtain ⟨rfl, rfl⟩ := hnew
        rw [hc]
        exact ⟨k, (getElem?_calls_setPhase hk).mpr (Or.inl ⟨rfl, rfl⟩)⟩
      · exact hkept hnew
  | announce _ | depart _ _ =>
    refine ⟨by simpa using h.capacity, fun c slot p hkey => hkept ?_⟩
    simp only [Server.key, channels_setPhase, channels_broadcastChange] at hkey ⊢
    exact hkey
  | _ => exact ⟨h.capacity, fun c slot p hkey => hkept hkey⟩

theorem channelsInv (hr : server.Run ok tr s) : s.ChannelsInv := by
  refine hr.invariant (I := fun _ s => s.ChannelsInv) ⟨?_, ?_⟩ fun _ h _ hs =>
    (step_moves hs).channelsInv h
  · simp [server, Server.new]
  · simp [server, Server.new, key]

/-- Only a signal that finds its channel full is answered that it has been aborted. -/
theorem Responds.aborted {order : List Id} {call : Call} {status : Status}
    (h : s.Responds order call (.error status)) (ha : status.code = .aborted) :
    ∃ slot p sig peer c sc, call = ⟨.signal slot (some p) (some sig), .received⟩ ∧
      s.peers.lookup p = some peer ∧ peer.tx slot = some c ∧ s.channels[c]? = some sc ∧
      sc.channel.trySend ⟨some sig⟩ = .error .full ∧ status = Status.bufferFull slot := by
  cases h with
  | bufferFull hl htx hsc hsend => exact ⟨_, _, _, _, _, _, rfl, hl, htx, hsc, hsend, rfl⟩
  | _ => cases ha

/-- A signal that was refused for a full buffer had fifteen accepted before it. -/
theorem full_of_refused (hr : server.Run ok tr s) (hn : allocations tr < 2 ^ 64) {k : Nat}
    {slot : Slot} (h : s.At k (.done (.error (Status.bufferFull slot)))) :
    ∃ p sig c, s.calls[k]? = some ⟨.signal slot (some p) (some sig),
        .done (.error (Status.bufferFull slot))⟩ ∧ s.key c = some (slot, p) ∧
      15 ≤ (s.delivered tr slot p).length := by
  refine hr.invariant_while (P := fun tr => allocations tr < 2 ^ 64) (I := fun tr s =>
    s.At k (.done (.error (Status.bufferFull slot))) →
    ∃ p sig c, s.calls[k]? = some ⟨.signal slot (some p) (some sig),
        .done (.error (Status.bufferFull slot))⟩ ∧ s.key c = some (slot, p) ∧
      15 ≤ (s.delivered tr slot p).length) allocations_lt ?_ ?_ hn h
  · rintro ⟨_, hk⟩
    simp [server, Server.new] at hk
  · intro tr s a t evs hr hlt _ ih _ hs h
    have hm := step_moves hs
    obtain ⟨_, hdel⟩ := deliveryInv hr hlt
    have hgrow (p : Id) : (s.delivered tr slot p).length ≤
        (t.delivered (tr ++ evs) slot p).length := by
      rw [hdel.delivered hm, List.length_append]
      exact Nat.le_add_right _ _
    rcases hm.enters (by simp) h with ⟨_, hold⟩ | ⟨order, call, rfl, hk, he⟩
    · obtain ⟨p, sig, c, hk, hkey, hlen⟩ := ih hold
      exact ⟨p, sig, c, hm.done hk, hm.key hkey, hlen.trans (hgrow p)⟩
    · rcases he with hresp | ⟨_, _, _, hstatus⟩ | ⟨_, slot', _, _, hstatus⟩
      · obtain ⟨slot', p, sig, peer, c, sc, rfl, hl, htx, hsc, hsend, hstatus⟩ :=
          hresp.aborted rfl
        obtain rfl : slot = slot' := by
          cases slot <;> cases slot' <;> first | rfl | exact absurd hstatus (by decide)
        obtain ⟨phase, hk'⟩ := hm.request hk
        obtain ⟨_, hdone⟩ := h
        obtain rfl : phase = _ := congrArg Call.phase (Option.some.inj (hk'.symm.trans hdone))
        have hkey : s.key c = some (slot, p) := (deliveryInv hr hlt).1.link p peer slot c hl htx
        refine ⟨p, sig, c, hk', hm.key hkey, le_trans ?_ (hgrow p)⟩
        obtain ⟨hslot, hpeer⟩ : sc.slot = slot ∧ sc.peer = p := by
          simpa [key, hsc] using hkey
        have hfull := Channel.capacity_le_items hsend
        rw [(channelsInv hr).capacity sc (List.mem_of_getElem? hsc), hdel.items c sc hsc,
          List.length_cons, List.length_map, hslot, hpeer] at hfull
        omega
      · cases slot <;> exact absurd hstatus (by decide)
      · cases slot <;> cases slot' <;> exact absurd hstatus (by decide)

/-! ## Changes -/

/-- Where nobody departs, every change that a step broadcasts is paid for by an identifier that
has been drawn. -/
theorem Moves.announces (hm : s.Moves a t evs) (hb : BroadcastInv tr s) (h : s.Kept) :
    (changeLog evs).length + t.calls.countP Call.advertising ≤
      allocations evs + s.calls.countP Call.advertising := by
  -- a handler that broadcasts nothing and still has nothing to announce
  have idle {k : Nat} {call : Call} {phase : Phase} {u : Server} (hu : u.calls = s.calls)
      (hk : s.calls[k]? = some call) (hp : Call.advertising { call with phase := phase } = false) :
      (u.setPhase k phase).calls.countP Call.advertising ≤ s.calls.countP Call.advertising := by
    have hcount := countP_setPhase phase hu hk Call.advertising
    rw [hp] at hcount
    simp only [Bool.false_eq_true, if_false] at hcount
    omega
  cases hm with
  | receive request => simp [changeLog, allocations, Call.advertising]
  | @generate k _ hk =>
    have hcount := countP_setPhase (u := { s with generator := s.generator + 1 })
      (.inserting s.generator) rfl hk Call.advertising
    simp only [Call.advertising, Bool.false_eq_true, if_false, if_true] at hcount
    simp only [changeLog, List.filterMap_cons, sentChange, List.filterMap_nil, List.length_nil,
      allocations, List.countP_cons, List.countP_nil, Event.isAllocated, if_true]
    omega
  | @insert k _ request id hk _ =>
    have hcount := countP_setPhase (u := { s with peers := s.peers.insert id {} })
      (.announcing id) rfl hk Call.advertising
    simp only [Call.advertising, if_true] at hcount
    simp only [changeLog, List.filterMap_cons, sentChange, List.filterMap_nil, List.length_nil]
    omega
  | @announce k _ request id hk =>
    have hcount := countP_setPhase (u := (s.broadcastChange (.add id)).1)
      (.done (.ok (.advertise (some id)))) (by simp) hk Call.advertising
    simp only [Call.advertising, Bool.false_eq_true, if_false, if_true] at hcount
    rw [(broadcastChange_sent hb.records _).1]
    simp only [changeLog, List.filterMap_cons, sentChange, List.filterMap_nil, List.length_cons,
      List.length_nil]
    omega
  | depart hk hd =>
    have hno := h.calls _ (List.mem_of_getElem? hk)
    cases hd <;> simp [Request.tearsDown, Phase.departs] at hno
  | remove hk _ =>
    have hno := h.calls _ (List.mem_of_getElem? hk)
    simp [Phase.departs] at hno
  | duplicate hk _ | respond hk _ | collect hk _ | subscribe hk | accept hk _ _ _ _
  | disconnect hk _ _ _ _ | openListener hk _ _ _ =>
    exact (Nat.zero_add _).trans_le ((idle rfl hk rfl).trans (Nat.le_add_left _ _))
  | _ => exact (Nat.zero_add _).trans_le (Nat.le_add_left _ _)

end Server

/-! ## Signals -/

/-- The request carries a signal to a slot of the peer. -/
def Request.signals (slot : Slot) (q : Id) (request : Request) : Bool :=
  (request.signalTo slot q).isSome

@[simp] theorem Request.signals_signal (slot : Slot) (q : Id) (sig : Signal) :
    (Request.signal slot (some q) (some sig)).signals slot q = true := by
  simp [Request.signals, Request.signalTo]

theorem Request.signals_eq {request : Request} {slot : Slot} {q : Id}
    (h : request.signals slot q = true) : ∃ sig, request = .signal slot (some q) (some sig) := by
  obtain ⟨sig, hsig⟩ := Option.isSome_iff_exists.mp h
  exact ⟨sig, Request.signalTo_eq hsig⟩

variable {ι A O C : Type*} [DecidableEq ι]

namespace System

variable {codecs : Codecs A O C} {tr evs : List (Event ι A O C)} {s t : System ι A O C}
  {a : Action ι A O C} {i j : ι} {slot : Slot} {p q : Id}

/-- A client does not create an offer for its own peer. -/
theorem createOffer_other {ok : System ι A O C → Action ι A O C → Prop}
    (hr : (system ι codecs).Run ok tr s) (hj : (s.clients j).localId = some p)
    (h : Event.called j (.createOffer q) ∈ tr) : q ≠ p := by
  rintro rfl
  rw [← mem_createdOffers] at h
  rcases discoveryInv hr j with hnone | ⟨peer, initial, rest, hdisc⟩
  · rw [hnone.offers] at h
    exact List.not_mem_nil h
  · obtain ⟨n, st, ho, hst, hhead⟩ := hdisc.handed
    obtain ⟨st', initial', hst', _, hhead', _, hnot⟩ :=
      ho.hands_out (clientInv hr).1 (Server.handsOut (freeRun hr))
    obtain rfl := Option.some.inj (hst.symm.trans hst')
    rw [hhead, Option.some.injEq, Except.ok.injEq, PeerListenerRsp.mk.injEq,
      List.map_inj_right fun _ _ he => Change.add_injective he] at hhead'
    have hlocal := Client.localId_of_peer? hdisc.peer
    rw [hj, Option.some.injEq] at hlocal
    rw [hdisc.offers, hhead', hlocal] at h
    exact hnot h

section

variable (hr : (system ι codecs).Run Honest tr s) (hn : allocations (serverTrace tr) < 2 ^ 64)
  (hanswer : codecs.answer.Inverts) (hoffer : codecs.offer.Inverts)
  (hcandidates : codecs.candidates.Inverts)

include hr hn hanswer hoffer hcandidates

/-- A client signals to a slot of a peer at most once. -/
theorem signals_once (j : ι) (slot : Slot) (q : Id) :
    tr.countP (Event.Requests j (Request.signals slot q)) ≤ 1 := by
  have hsent : tr.countP (Event.Requests j (Request.signals slot q)) ≤
      results j (slot.creator, q) tr := by
    refine requested_le_consumed hr hanswer hoffer hcandidates j (fun request h => ?_) ?_
    · obtain ⟨sig, rfl⟩ := Request.signals_eq h
      rfl
    · intro slot' state sig task hR hrelay hrec
      obtain ⟨sig', he⟩ := Request.signals_eq hR
      obtain ⟨rfl, hremote, _⟩ := Request.signal.inj he
      exact decide_eq_true
        (SignallingState.callback_of_relayed hremote hrelay (Codecs.received_spec hrec).1)
  exact hsent.trans ((results_le_calls hr j _).trans
    (called_once hr hn hanswer hoffer hcandidates j slot.creator q))

omit hn in
/-- A client offers only to a peer that it has called `create_offer` for. -/
theorem offer_called {k : Nat} {sig : Signal}
    (h : Event.requested j k (.signalOffer (some q) (some sig)) ∈ tr) :
    Event.called j (.createOffer q) ∈ tr := by
  obtain ⟨state, task, hcons, hremote, hrelay, hrec⟩ :=
    requested_source hr hanswer hoffer hcandidates h
  have hslot := (Codecs.received_spec hrec).1
  obtain ⟨offerSet, rfl⟩ : ∃ offerSet, state = .createOffer q offerSet := by
    cases state <;> simp only [SignallingState.relayed, Option.some.injEq, reduceCtorEq] at hrelay
    all_goals
      subst hrelay
      simp_all [Task.slot, SignallingState.remoteId]
  obtain ⟨task', hcalled, hyield, hid⟩ := called_of_consumed hr hcons rfl
  obtain rfl : task' = .createOffer q := by
    cases task' <;> simp_all [Task.yields, Task.remoteId, SignallingState.remoteId]
  exact hcalled

omit hn in
/-- A client does not offer to its own peer. -/
theorem offers_other {k : Nat} {sig : Signal}
    (h : Event.requested j k (.signalOffer (some q) (some sig)) ∈ tr) : sig.sender ≠ q :=
  (createOffer_other hr (signal_author hr h)
    (offer_called hr hanswer hoffer hcandidates h)).symm

/-- A client does not signal to its own peer. -/
theorem signals_other {k : Nat} {sig : Signal}
    (h : Event.requested j k (.signal slot (some q) (some sig)) ∈ tr) : sig.sender ≠ q := by
  cases slot with
  | offer => exact offers_other hr hanswer hoffer hcandidates h
  | answer =>
    -- the answer is to an offer, and that has come from another peer
    rintro rfl
    obtain ⟨answerSet, _, hcons⟩ := answer_source hr hanswer hoffer hcandidates h
    obtain ⟨task, hcalled, hyield, hremote⟩ := called_of_consumed hr hcons rfl
    have hslot : task.slot = some .offer := by
      cases task <;> simp_all [Task.yields, Task.slot]
    obtain ⟨i, sig', _, hi, hsender, _, ⟨i', k', hreq, _⟩, _⟩ := relayed hr hn hanswer hoffer
      hcandidates (signal_author hr h) hcalled hslot hremote
    exact offers_other hr hanswer hoffer hcandidates hreq hsender

/-- The signals that have been accepted for a slot of a peer, and one that has not, come from as
many clients, none of them the one of the peer. -/
theorem delivered_lt_card [Fintype ι] (hi : (s.clients i).localId = some q) {k : Nat} {sig : Signal}
    {phase : Phase} (hk : s.server.calls[k]? = some ⟨.signal slot (some q) (some sig), phase⟩)
    (hnot : k ∉ acceptances (serverTrace tr)) :
    (s.server.delivered (serverTrace tr) slot q).length + 1 < Fintype.card ι := by
  let carries (k : Nat) : Bool :=
    ((s.server.calls[k]?).bind fun call => call.request.signalTo slot q).isSome
  have hlength : (s.server.delivered (serverTrace tr) slot q).length =
      ((acceptances (serverTrace tr)).filter carries).length := by
    rw [Server.delivered, List.length_filterMap_eq_countP, List.countP_eq_length_filter]
  have hnodup : (k :: (acceptances (serverTrace tr)).filter carries).Nodup :=
    List.nodup_cons.mpr ⟨fun hmem => hnot (List.mem_of_mem_filter hmem),
      (Server.deliveryInv (freeRun hr) hn).2.nodup.filter carries⟩
  -- each of these calls has an author of its own
  have hle : (k :: (acceptances (serverTrace tr)).filter carries).toFinset.card ≤
      (Finset.univ.erase i).card := by
    refine Finset.card_le_card_of_forall_subsingleton (fun k j =>
      ∃ sig, Event.requested j k (.signal slot (some q) (some sig)) ∈ tr) (fun k' hk' => ?_) ?_
    · have hcarries : ∃ sig phase,
          s.server.calls[k']? = some ⟨.signal slot (some q) (some sig), phase⟩ := by
        rcases List.mem_cons.mp (List.mem_toFinset.mp hk') with rfl | hmem
        · exact ⟨sig, phase, hk⟩
        · obtain ⟨sig', hsig⟩ := Option.isSome_iff_exists.mp (List.mem_filter.mp hmem).2
          obtain ⟨call, hcall, hto⟩ := Option.bind_eq_some_iff.mp hsig
          exact ⟨sig', call.phase, hcall.trans (by rw [← Request.signalTo_eq hto])⟩
      obtain ⟨sig', phase', hcall⟩ := hcarries
      obtain ⟨j, hj⟩ := authors hr k' _ hcall
      refine ⟨j, Finset.mem_erase.mpr ⟨?_, Finset.mem_univ j⟩, sig', hj⟩
      rintro rfl
      have hsender := signal_author hr hj
      rw [hi, Option.some.injEq] at hsender
      exact signals_other hr hn hanswer hoffer hcandidates hj hsender.symm
    · rintro j - k₁ ⟨-, sig₁, h₁⟩ k₂ ⟨-, sig₂, h₂⟩
      have hsame := eq_of_countP_le_one
        (signals_once hr hn hanswer hoffer hcandidates j slot q) h₁ h₂
        (by simp [Event.Requests]) (by simp [Event.Requests])
      exact (Event.requested.inj hsame).2.1
  rw [List.toFinset_card_of_nodup hnodup, List.length_cons, ← hlength,
    Finset.card_erase_of_mem (Finset.mem_univ i), Finset.card_univ] at hle
  omega

/-- A signal is refused for a full buffer only where there are more than sixteen clients. -/
theorem full_card [Fintype ι] {k : Nat}
    (h : s.Returned k (.error (Status.bufferFull slot))) : 16 < Fintype.card ι := by
  obtain ⟨q, sig, c, hk, hkey, hlen⟩ := Server.full_of_refused (freeRun hr) hn h
  -- the channel has been opened by the client of its peer
  obtain ⟨k', hopen⟩ := (Server.channelsInv (freeRun hr)).handed c slot q hkey
  obtain ⟨i, hi⟩ := authors hr k' _ hopen
  have hlocal : (s.clients i).localId = some q := by
    obtain ⟨id, hid, hmade⟩ := (((clientInv hr).2 i).authored k' _ hi).resolve_left (by simp)
    rw [hid, show some q = some id from hmade]
  have hnot : k ∉ acceptances (serverTrace tr) := by
    intro hmem
    obtain ⟨slot', _, hdone⟩ := ((Server.deliveryInv (freeRun hr) hn).2.accepted k).mp hmem
    rw [hk, Option.some.injEq, Call.mk.injEq] at hdone
    simp at hdone
  have hlt := delivered_lt_card hr hn hanswer hoffer hcandidates hlocal hk hnot
  omega

end

/-- The channels of sixteen clients never fill up: no signal is refused for a full buffer, in any
run, however slowly the clients read, and whoever leaves, fails or is evicted on the way. -/
theorem buffers_suffice [Fintype ι] (hr : (system ι codecs).Run Honest tr s)
    (hanswer : codecs.answer.Inverts) (hoffer : codecs.offer.Inverts)
    (hcandidates : codecs.candidates.Inverts) (hcard : Fintype.card ι ≤ 16) : s.Roomy := by
  have hn : allocations (serverTrace tr) < 2 ^ 64 := by
    have hle := allocations_le_card hr
    omega
  intro k slot hfull
  have hlt := full_card hr hn hanswer hoffer hcandidates hfull
  omega

/-- The schedule of a client that starts with call `k` and takes the snapshot `order`. -/
def Action.starting (j : ι) (k : Nat) (order : List Id) : List (Action ι A O C) :=
  List.flatten [[.start j], Action.handling k 3 [], [.reply j], Action.handling (k + 1) 2 order,
    [.reply j], Action.handling (k + 2) 1 [], [.reply j], Action.handling (k + 3) 1 [], [.reply j]]

/-- The schedule of `n` clients that start one after the other and offer to a first one, which
does not read its offers. -/
def Action.crowding (n : Nat) : List (Action (Fin (n + 1)) Unit Unit Unit) :=
  Action.starting 0 0 [] ++ (List.range n).flatMap fun m =>
    Action.starting (Fin.ofNat (n + 1) (m + 1)) (5 * m + 4)
        ((List.range (m + 1)).map UInt64.ofNat) ++
      [.server (.pollPeerStream (m + 1)), .listen (Fin.ofNat (n + 1) (m + 1)) 0,
        .finish (Fin.ofNat (n + 1) (m + 1)) 3 (.ok (.createOffer 0 ((), ())))] ++
      Action.handling (5 * m + 8) 1 []

/-- Fifteen offers fill the channel of the sixteenth client to the last place. -/
theorem buffers_suffice_sixteen : ∃ tr s, (system (Fin 16) Codecs.unit).Run Honest tr s ∧
    ((s.server.channels[0]?).map fun sc => sc.channel.queue.length) = some 16 ∧ s.Roomy := by
  obtain ⟨tr, s, hr, hc⟩ := (system (Fin 16) Codecs.unit).exec_reaches Honest
    (Action.crowding 15)
    (fun c => decide (((c.1.server.channels[0]?).map fun sc : SignalChannel =>
      sc.channel.queue.length) = some 16)) (by decide +kernel)
  exact ⟨tr, s, hr, of_decide_eq_true hc, buffers_suffice hr (fun _ _ _ => rfl) (fun _ _ _ => rfl)
    (fun _ _ _ => rfl) (by simp)⟩

/-- A seventeenth client can find the channel of another one full. -/
theorem buffers_overflow : ∃ tr s, (system (Fin 17) Codecs.unit).Run Faultless tr s ∧
    ¬ s.Roomy := by
  obtain ⟨tr, s, hr, hc⟩ := (system (Fin 17) Codecs.unit).exec_reaches Faultless
    (Action.crowding 16) (fun c => decide (¬ c.1.Roomy)) (by decide +kernel)
  exact ⟨tr, s, hr, of_decide_eq_true hc⟩

/-! ## Listeners -/

/-- In a faultless run no more changes are broadcast than identifiers are drawn. -/
theorem changes_le_allocations (hr : (system ι codecs).Run Faultless tr s) :
    (changeLog (serverTrace tr)).length + s.server.calls.countP Call.advertising ≤
      allocations (serverTrace tr) := by
  refine hr.invariant (I := fun tr s => (changeLog (serverTrace tr)).length +
    s.server.calls.countP Call.advertising ≤ allocations (serverTrace tr)) ?_ ?_
  · simp [system, Server.new, serverTrace, changeLog]
  · intro tr s a t evs hr h ha hs
    have hm : Moves codecs s a (t, evs) := step_moves hs
    rw [serverTrace_append, changeLog_append, List.length_append, allocations_append]
    rcases hm.server_moves with ⟨hserver, hnil⟩ | ⟨b, hb, _⟩
    · rw [hserver, hnil]
      exact h
    · have hpaid := hb.announces (Server.broadcastInv (freeRun hr)) (kept hr).1
      omega

/-- A stream of a faultless run loses messages only where there are more than sixteen clients. -/
theorem lagged_card [Fintype ι] (hr : (system ι codecs).Run Faultless tr s) {st : PeerStream}
    (hst : st ∈ s.server.streams) (h : ¬ st.Intact) : 16 < Fintype.card ι := by
  obtain ⟨i, hi⟩ := List.mem_iff_getElem?.mp hst
  obtain ⟨start, initial, rest, pos, w⟩ :=
    ((Server.broadcastInv (freeRun hr)).streams i st hi).walk
  by_contra hcard
  have hlog : (changeLog (serverTrace tr)).length ≤ start + 16 := by
    have hchanges := changes_le_allocations hr
    have halloc := allocations_le_card (honest hr)
    omega
  have hnone := w.follows.no_loss hlog
  refine h ⟨(kept hr).1.streams st hst, List.all_eq_true.mpr fun item hitem => ?_⟩
  have hloaded : item ∈ st.loaded := List.mem_append_left _ hitem
  rw [w.loaded] at hloaded
  rcases List.mem_cons.mp hloaded with rfl | hrest
  · rfl
  · cases item with
    | ok m => rfl
    | error e => exact absurd (List.mem_map.mpr ⟨_, hrest, rfl⟩) hnone

/-- No listener of sixteen clients lags behind: in a faultless run every item of every peer stream
is a message, however slowly it is read. -/
theorem listeners_keep_up [Fintype ι] (hr : (system ι codecs).Run Faultless tr s)
    (hcard : Fintype.card ι ≤ 16) : ∀ st ∈ s.server.streams, st.Intact := by
  intro st hst
  by_contra hlag
  have hlt := lagged_card hr hst hlag
  omega

/-- The first of sixteen clients reads all fifteen changes after the last of them. -/
theorem listeners_keep_up_sixteen : ∃ tr s, (system (Fin 16) Codecs.unit).Run Faultless tr s ∧
    ((s.server.streams[0]?).map fun st => st.items.length) = some 16 ∧
    ∀ st ∈ s.server.streams, st.Intact := by
  obtain ⟨tr, s, hr, hc⟩ := (system (Fin 16) Codecs.unit).exec_reaches Faultless
    (Action.crowding 15 ++ List.replicate 16 (.server (.pollPeerStream 0)))
    (fun c => decide (((c.1.server.streams[0]?).map fun st : PeerStream =>
      st.items.length) = some 16)) (by decide +kernel)
  exact ⟨tr, s, hr, of_decide_eq_true hc, listeners_keep_up hr (by simp)⟩

end System

end JustWebrtc.Signalling
