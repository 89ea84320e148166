import JustWebrtc.Signalling.Server.Identity

/-!
# Delivery of signals

Each peer has at most one channel per slot, ever: the sender cell of its map entry is
written once, and its identifier does not come back after a removal. What a channel has
accepted is its initial empty response followed by the signals of the accepted requests
that name its peer and slot, in the order of their acceptance.
-/

namespace JustWebrtc.Signalling

/-- The signal a request carries to a slot of a peer. -/
def Request.signalTo (slot : Slot) (p : Id) : Request → Option Signal
  | .signal slot' (some id) (some sig) => if slot' = slot ∧ id = p then some sig else none
  | _ => none

/-- The accepted call of an event. -/
def acceptedCall : Event → Option Nat
  | .accepted k => some k
  | _ => none

/-- The calls whose signal has been accepted, in the order of their acceptance. -/
def acceptances (tr : List Event) : List Nat := tr.filterMap acceptedCall

@[simp] theorem acceptances_append (tr evs : List Event) :
    acceptances (tr ++ evs) = acceptances tr ++ acceptances evs := List.filterMap_append

/-- The results that hand out a channel or report an accepted signal. -/
def Phase.Delivering : Phase → Prop
  | .done (.ok (.signal _)) | .done (.ok (.openListener _ _)) => True
  | _ => False

namespace Server

/-- The slot and the peer of a channel. -/
def key (s : Server) (c : Nat) : Option (Slot × Id) :=
  (s.channels[c]?).map fun sc => (sc.slot, sc.peer)

/-- The accepted signals for a slot of a peer, in the order of their acceptance. -/
def delivered (s : Server) (tr : List Event) (slot : Slot) (p : Id) : List Signal :=
  (acceptances tr).filterMap fun k => (s.calls[k]?).bind fun call => call.request.signalTo slot p

/-! ## The channel table -/

/-- Sender cells and channels belong together, and no channel has a double. -/
structure TableInv (tr : List Event) (s : Server) : Prop where
  link : ∀ p peer slot c, s.peers.lookup p = some peer → peer.tx slot = some c →
    s.key c = some (slot, p)
  back : ∀ p peer slot c, s.key c = some (slot, p) → s.peers.lookup p = some peer →
    peer.tx slot = some c
  known : ∀ slot p c, s.key c = some (slot, p) → ∃ k, Event.inserted k p ∈ tr
  one : ∀ x c c', s.key c = some x → s.key c' = some x → c = c'

/-- Replacing a channel by one of the same slot and peer changes no key. -/
theorem key_set {s : Server} {c : Nat} {sc : SignalChannel} (hc : s.channels[c]? = some sc)
    (channel : Channel SignalListenerRsp) (c' : Nat) :
    ({ s with channels := s.channels.set c { sc with channel := channel } } : Server).key c' =
      s.key c' := by
  simp only [key, List.getElem?_set]
  by_cases h : c = c'
  · subst h
    obtain ⟨hlt, hget⟩ := List.getElem?_eq_some_iff.mp hc
    simp [hlt, hget]
  · simp [h]

/-- A new channel has the next reference. -/
theorem key_append {s t : Server} {sc : SignalChannel} (hc : t.channels = s.channels ++ [sc])
    (c : Nat) : t.key c = if c = s.channels.length then some (sc.slot, sc.peer) else s.key c := by
  rw [key, hc]
  split
  · rename_i he
    rw [he, List.getElem?_concat_length]
    rfl
  · rename_i hne
    rcases lt_or_gt_of_ne hne with hlt | hgt
    · rw [List.getElem?_append_left hlt]
      rfl
    · rw [key, List.getElem?_eq_none (by simp; omega), List.getElem?_eq_none (by omega)]

namespace TableInv

variable {tr evs : List Event} {s t : Server}

/-- A step that changes neither the keys nor the map. -/
theorem frame (h : TableInv tr s) (hp : t.peers = s.peers) (hkey : ∀ c, t.key c = s.key c) :
    TableInv (tr ++ evs) t := by
  refine ⟨?_, ?_, ?_, ?_⟩
  · intro p peer slot c hl ht
    rw [hp] at hl
    rw [hkey]
    exact h.link p peer slot c hl ht
  · intro p peer slot c hk hl
    rw [hkey] at hk
    rw [hp] at hl
    exact h.back p peer slot c hk hl
  · intro slot p c hk
    rw [hkey] at hk
    obtain ⟨k, hins⟩ := h.known slot p c hk
    exact ⟨k, List.mem_append_left _ hins⟩
  · intro x c c' hc hc'
    rw [hkey] at hc hc'
    exact h.one x c c' hc hc'

/-- A new map entry has empty cells, and no channel is left over for it. -/
theorem insert (h : TableInv tr s) {id : Id} (hnew : ∀ k, Event.inserted k id ∉ tr)
    (hp : t.peers = s.peers.insert id {}) (hkey : ∀ c, t.key c = s.key c) :
    TableInv (tr ++ evs) t := by
  refine ⟨?_, ?_, ?_, ?_⟩
  · intro p peer slot c hl ht
    rw [hp] at hl
    by_cases hpid : p = id
    · subst hpid
      rw [Finmap.lookup_insert, Option.some.injEq] at hl
      rw [← hl, Listeners.tx_default] at ht
      simp only [reduceCtorEq] at ht
    · rw [Finmap.lookup_insert_of_ne _ hpid] at hl
      rw [hkey]
      exact h.link p peer slot c hl ht
  · intro p peer slot c hk hl
    rw [hkey] at hk
    rw [hp] at hl
    by_cases hpid : p = id
    · subst hpid
      obtain ⟨k, hins⟩ := h.known slot p c hk
      exact absurd hins (hnew k)
    · rw [Finmap.lookup_insert_of_ne _ hpid] at hl
      exact h.back p peer slot c hk hl
  · intro slot p c hk
    rw [hkey] at hk
    obtain ⟨k, hins⟩ := h.known slot p c hk
    exact ⟨k, List.mem_append_left _ hins⟩
  · intro x c c' hc hc'
    rw [hkey] at hc hc'
    exact h.one x c c' hc hc'

/-- A removal leaves the remaining entries and all channels. -/
theorem erase (h : TableInv tr s) {id : Id} (hp : t.peers = s.peers.erase id)
    (hkey : ∀ c, t.key c = s.key c) : TableInv (tr ++ evs) t := by
  have hsub {p peer} (hl : t.peers.lookup p = some peer) : s.peers.lookup p = some peer := by
    rw [hp] at hl
    by_cases hpid : p = id
    · subst hpid
      rw [Finmap.lookup_erase] at hl
      simp only [reduceCtorEq] at hl
    · rwa [Finmap.lookup_erase_ne hpid] at hl
  refine ⟨?_, ?_, ?_, ?_⟩
  · intro p peer slot c hl ht
    rw [hkey]
    exact h.link p peer slot c (hsub hl) ht
  · intro p peer slot c hk hl
    rw [hkey] at hk
    exact h.back p peer slot c hk (hsub hl)
  · intro slot p c hk
    rw [hkey] at hk
    obtain ⟨k, hins⟩ := h.known slot p c hk
    exact ⟨k, List.mem_append_left _ hins⟩
  · intro x c c' hc hc'
    rw [hkey] at hc hc'
    exact h.one x c c' hc hc'

/-- Filling an empty cell with a reference to a new channel. -/
theorem register (h : TableInv tr s) {id : Id} {slot : Slot} {peer : Listeners}
    {channel : Channel SignalListenerRsp} (hl : s.peers.lookup id = some peer)
    (hnone : peer.tx slot = none) (hkeys : ∃ k, Event.inserted k id ∈ tr)
    (hp : t.peers = s.peers.insert id (peer.setTx slot s.channels.length))
    (hc : t.channels = s.channels ++ [{ slot := slot, peer := id, channel := channel }]) :
    TableInv (tr ++ evs) t := by
  have hkey := key_append hc
  have hfree {c} (hk : s.key c = some (slot, id)) : False := by
    have hsome := h.back id peer slot c hk hl
    rw [hnone] at hsome
    simp only [reduceCtorEq] at hsome
  have hlt {c x} (hk : s.key c = some x) : c ≠ s.channels.length := by
    intro he
    rw [key, he, List.getElem?_eq_none le_rfl] at hk
    simp only [Option.map_none, reduceCtorEq] at hk
  have hold {c x} (hk : s.key c = some x) : t.key c = some x := by
    rw [hkey, if_neg (hlt hk)]
    exact hk
  have hcases {c x} (hk : t.key c = some x) :
      (c = s.channels.length ∧ x = (slot, id)) ∨ s.key c = some x := by
    rw [hkey] at hk
    by_cases he : c = s.channels.length
    · rw [if_pos he, Option.some.injEq] at hk
      exact Or.inl ⟨he, hk.symm⟩
    · rw [if_neg he] at hk
      exact Or.inr hk
  refine ⟨?_, ?_, ?_, ?_⟩
  · intro p peer' slot' c hl' ht
    rw [hp] at hl'
    by_cases hpid : p = id
    · subst hpid
      rw [Finmap.lookup_insert, Option.some.injEq] at hl'
      subst hl'
      by_cases hs : slot' = slot
      · subst hs
        rw [Listeners.tx_setTx, Option.some.injEq] at ht
        rw [hkey, if_pos ht.symm]
      · rw [Listeners.tx_setTx_ne _ _ hs] at ht
        exact hold (h.link p peer slot' c hl ht)
    · rw [Finmap.lookup_insert_of_ne _ hpid] at hl'
      exact hold (h.link p peer' slot' c hl' ht)
  · intro p peer' slot' c hk hl'
    rw [hp] at hl'
    by_cases hpid : p = id
    · subst hpid
      rw [Finmap.lookup_insert, Option.some.injEq] at hl'
      subst hl'
      rcases hcases hk with ⟨rfl, hx⟩ | hk
      · rw [Prod.mk.injEq] at hx
        rw [hx.1, Listeners.tx_setTx]
      · by_cases hs : slot' = slot
        · rw [hs] at hk
          exact (hfree hk).elim
        · rw [Listeners.tx_setTx_ne _ _ hs]
          exact h.back p peer slot' c hk hl
    · rw [Finmap.lookup_insert_of_ne _ hpid] at hl'
      rcases hcases hk with ⟨_, hx⟩ | hk
      · rw [Prod.mk.injEq] at hx
        exact absurd hx.2 hpid
      · exact h.back p peer' slot' c hk hl'
  · intro slot' p c hk
    rcases hcases hk with ⟨_, hx⟩ | hk
    · rw [Prod.mk.injEq] at hx
      obtain ⟨k, hins⟩ := hkeys
      exact ⟨k, by rw [hx.2]; exact List.mem_append_left _ hins⟩
    · obtain ⟨k, hins⟩ := h.known slot' p c hk
      exact ⟨k, List.mem_append_left _ hins⟩
  · intro x c c' hk hk'
    rcases hcases hk with ⟨hc1, hx⟩ | hk1 <;> rcases hcases hk' with ⟨hc2, hx'⟩ | hk2
    · rw [hc1, hc2]
    · rw [hx] at hk2
      exact (hfree hk2).elim
    · rw [hx'] at hk1
      exact (hfree hk1).elim
    · exact h.one x c c' hk1 hk2

end TableInv

/-- Every step keeps the channel table. -/
theorem Moves.tableInv {n : Nat} {tr evs : List Event} {s t : Server} {a : Action}
    (hm : s.Moves a t evs) (h : TableInv tr s) (hid : IdentityInv n tr s) :
    TableInv (tr ++ evs) t := by
  cases hm with
  | insert hk _ => exact h.insert (hid.not_inserted ⟨_, hk⟩) rfl (fun _ => rfl)
  | remove _ _ => exact h.erase rfl (fun _ => rfl)
  | openListener _ hp hnone _ =>
    exact h.register hp hnone (hid.keys _ (Finmap.mem_of_lookup_eq_some hp)) rfl rfl
  | accept _ _ _ hsc _ => exact h.frame rfl (key_set hsc _)
  | pollChannel hsc _ => exact h.frame rfl (key_set hsc _)
  | dropChannel hsc => exact h.frame rfl (key_set hsc _)
  | announce _ | depart _ _ => exact h.frame (by simp) (fun c => by simp [key])
  | receive _ | generate _ | duplicate _ _ | respond _ _ | collect _ _ | subscribe _
  | disconnect _ _ _ _ _ | yieldInitial _ _ _ | yieldReceived _ _ _ _ _ | dropPeerStream _ _ =>
    exact h.frame rfl (fun _ => rfl)

/-! ## Handed out and accepted -/

/-- A call's result is about delivery only if it was so before, or if the step is the one
that accepts its signal or hands out its channel. -/
theorem Moves.delivering {s t : Server} {a : Action} {evs : List Event} (hm : s.Moves a t evs)
    {j : Nat} {request : Request} {phase : Phase} (hj : t.calls[j]? = some ⟨request, phase⟩)
    (hp : phase.Delivering) :
    s.calls[j]? = some ⟨request, phase⟩ ∨
      (s.calls[j]? = some ⟨request, .received⟩ ∧
        ((∃ slot, phase = .done (.ok (.signal slot)) ∧ evs = [.accepted j]) ∨
          ∃ slot id channel, request = .openListener slot (some id) ∧
            phase = .done (.ok (.openListener slot s.channels.length)) ∧ evs = [] ∧
            t.channels = s.channels ++ [{ slot := slot, peer := id, channel := channel }])) := by
  have hsame {request' phase'} (hs : s.calls[j]? = some ⟨request', phase'⟩) :
      request = request' := by
    obtain ⟨_, ht⟩ := hm.request hs
    rw [hj, Option.some.injEq, Call.mk.injEq] at ht
    exact ht.1
  rcases hm.enters (by rintro rfl; exact hp) ⟨request, hj⟩ with
    ⟨_, request', hs⟩ | ⟨order, ⟨request', phase'⟩, _, hs, he⟩
  · exact Or.inl (hsame hs ▸ hs)
  · refine Or.inr ?_
    obtain rfl := hsame hs
    cases phase with
    | done result =>
      rcases result with status | response
      · exact hp.elim
      · cases response with
        | signal slot =>
          obtain ⟨id, sig, hc, rfl⟩ := he
          obtain ⟨rfl, rfl⟩ := Call.mk.inj hc
          exact ⟨hs, Or.inl ⟨slot, rfl, rfl⟩⟩
        | openListener slot c =>
          obtain ⟨id, channel, hc, rfl, rfl, ht⟩ := he
          obtain ⟨rfl, rfl⟩ := Call.mk.inj hc
          exact ⟨hs, Or.inr ⟨slot, id, channel, rfl, rfl, rfl, ht⟩⟩
        | _ => exact hp.elim
    | _ => exact hp.elim

/-- A channel keeps its reference, its slot and its peer. -/
theorem Moves.key {s t : Server} {a : Action} {evs : List Event} (hm : s.Moves a t evs)
    {c : Nat} {x : Slot × Id} (h : s.key c = some x) : t.key c = some x := by
  cases hm with
  | accept _ _ _ hsc _ | pollChannel hsc _ | dropChannel hsc =>
    exact (key_set hsc _ c).trans h
  | openListener _ _ _ _ =>
    refine (key_append rfl c).trans ?_
    have hlt : c ≠ s.channels.length := by
      intro he
      rw [Server.key, he, List.getElem?_eq_none le_rfl] at h
      simp only [Option.map_none, reduceCtorEq] at h
    rw [if_neg hlt]
    exact h
  | announce _ | depart _ _ =>
    simpa [Server.key] using h
  | _ => exact h

theorem acceptances_broadcastChange (s : Server) (change : PeerChange) :
    acceptances [(s.broadcastChange change).2] = [] := by
  obtain ⟨m, sent, he⟩ := s.broadcastChange_event change
  rw [he]
  rfl

/-- An acceptance is recorded by the step that finishes its call, which names a channel. -/
theorem Moves.accepted {s t : Server} {a : Action} {evs : List Event} (hm : s.Moves a t evs)
    {k : Nat} (h : k ∈ acceptances evs) :
    ∃ order slot id sig peer c sc channel, a = .advance k order ∧ evs = [.accepted k] ∧
      s.calls[k]? = some ⟨.signal slot (some id) (some sig), .received⟩ ∧
      s.peers.lookup id = some peer ∧ peer.tx slot = some c ∧ s.channels[c]? = some sc ∧
      sc.channel.trySend ⟨some sig⟩ = .ok channel ∧
      t.channels = s.channels.set c { sc with channel := channel } ∧
      t.At k (.done (.ok (.signal slot))) := by
  cases hm with
  | @accept k' order slot id sig peer c sc channel hk hp hc hsc hsend =>
    simp only [acceptances, acceptedCall, List.filterMap_cons, List.filterMap_nil,
      List.mem_singleton] at h
    subst h
    refine ⟨order, slot, id, sig, peer, c, sc, channel, rfl, rfl, hk, hp, hc, hsc, hsend, rfl, ?_⟩
    exact ⟨.signal slot (some id) (some sig),
      (getElem?_calls_setPhase (s := { s with channels := _ }) hk).mpr (Or.inl ⟨rfl, rfl⟩)⟩
  | announce _ | depart _ _ =>
    rw [acceptances_broadcastChange] at h
    simp at h
  | _ => simp [acceptances, acceptedCall] at h

/-- What has been handed out and accepted so far. -/
structure DeliveryInv (tr : List Event) (s : Server) : Prop where
  opened : ∀ (k : Nat) (request : Request) (slot : Slot) (c : Nat),
    s.calls[k]? = some ⟨request, .done (.ok (.openListener slot c))⟩ →
      ∃ p, request = .openListener slot (some p) ∧ s.key c = some (slot, p)
  handed : ∀ k k' slot slot' c, s.At k (.done (.ok (.openListener slot c))) →
    s.At k' (.done (.ok (.openListener slot' c))) → k = k'
  accepted : ∀ k, k ∈ acceptances tr ↔ ∃ slot, s.At k (.done (.ok (.signal slot)))
  nodup : (acceptances tr).Nodup
  routed : ∀ k ∈ acceptances tr, ∃ slot p sig phase c,
    s.calls[k]? = some ⟨.signal slot (some p) (some sig), phase⟩ ∧ s.key c = some (slot, p)
  items : ∀ (c : Nat) (sc : SignalChannel), s.channels[c]? = some sc →
    sc.channel.items = ⟨none⟩ :: (s.delivered tr sc.slot sc.peer).map fun sig => ⟨some sig⟩

namespace DeliveryInv

variable {tr evs : List Event} {s t : Server} {a : Action}

/-- Requests stay, so the accepted signals stay, and new ones come after them. -/
theorem delivered (h : DeliveryInv tr s) (hm : s.Moves a t evs) (slot : Slot) (p : Id) :
    t.delivered (tr ++ evs) slot p = s.delivered tr slot p ++ t.delivered evs slot p := by
  simp only [Server.delivered, acceptances_append, List.filterMap_append]
  congr 1
  apply List.filterMap_congr
  intro k hk
  obtain ⟨slot', p', sig, phase, c, hcall, _⟩ := h.routed k hk
  obtain ⟨phase', hcall'⟩ := hm.request hcall
  rw [hcall, hcall']
  rfl

/-- A step that accepts nothing delivers nothing. -/
theorem delivered_of_nil (h : DeliveryInv tr s) (hm : s.Moves a t evs) (he : acceptances evs = [])
    (slot : Slot) (p : Id) : t.delivered (tr ++ evs) slot p = s.delivered tr slot p := by
  have hnil : t.delivered evs slot p = [] := by
    rw [Server.delivered, he]
    rfl
  rw [h.delivered hm, hnil, List.append_nil]

/-- Accepting a signal appends it to its own channel and to no other. -/
theorem items_accept (h : DeliveryInv tr s) (hm : s.Moves a t evs) (htab : TableInv tr s)
    {k : Nat} (hk : k ∈ acceptances evs) {c : Nat} {sc : SignalChannel}
    (hc : t.channels[c]? = some sc) :
    sc.channel.items =
      ⟨none⟩ :: (t.delivered (tr ++ evs) sc.slot sc.peer).map fun sig => ⟨some sig⟩ := by
  obtain ⟨order, slot, id, sig, peer, c', sc', channel, _, rfl, hcall, hp, hc', hsc', hsend, ht,
    _⟩ := hm.accepted hk
  obtain ⟨phase, hcall'⟩ := hm.request hcall
  have hkey := htab.link id peer slot c' hp hc'
  rw [Server.key, hsc', Option.map_some, Option.some.injEq, Prod.mk.injEq] at hkey
  obtain ⟨hslot, hpeer⟩ := hkey
  have hnew (slot' : Slot) (p : Id) : t.delivered [.accepted k] slot' p =
      if slot = slot' ∧ id = p then [sig] else [] := by
    simp only [Server.delivered, acceptances, acceptedCall, List.filterMap_cons,
      List.filterMap_nil, hcall', Option.bind_some, Request.signalTo]
    by_cases hs : slot = slot' ∧ id = p
    · simp only [if_pos hs]
    · simp only [if_neg hs]
  rw [h.delivered hm, hnew]
  rw [ht] at hc
  by_cases hcc : c = c'
  · subst hcc
    rw [List.getElem?_set_self (List.getElem?_eq_some_iff.mp hsc').1, Option.some.injEq] at hc
    subst hc
    rw [if_pos ⟨hslot.symm, hpeer.symm⟩, (Channel.trySend_ok hsend).2.1, h.items c sc' hsc',
      List.map_append]
    rfl
  · rw [List.getElem?_set_ne (Ne.symm hcc)] at hc
    have hne : ¬ (slot = sc.slot ∧ id = sc.peer) := by
      rintro ⟨hs, hi⟩
      refine hcc (htab.one (slot, id) c c' ?_ (htab.link id peer slot c' hp hc'))
      rw [Server.key, hc, hs, hi]
      rfl
    rw [if_neg hne, List.append_nil]
    exact h.items c sc hc

/-- A freshly registered channel holds the empty response, and nothing was accepted for its
slot and peer before. -/
theorem items_register (h : DeliveryInv tr s) (htab : TableInv tr s) {id : Id} {slot : Slot}
    {peer : Listeners} (hl : s.peers.lookup id = some peer) (hnone : peer.tx slot = none) :
    s.delivered tr slot id = [] := by
  rw [Server.delivered, List.filterMap_eq_nil_iff]
  intro k hk
  obtain ⟨slot', p', sig, phase, c, hcall, hkey⟩ := h.routed k hk
  rw [hcall, Option.bind_some, Request.signalTo, if_neg]
  rintro ⟨rfl, rfl⟩
  have hsome := htab.back p' peer slot' c hkey hl
  rw [hnone] at hsome
  simp only [reduceCtorEq] at hsome

/-- Every step keeps the contents of all channels in line with the accepted signals. -/
theorem step_items (h : DeliveryInv tr s) (hm : s.Moves a t evs) (htab : TableInv tr s) {c : Nat}
    {sc : SignalChannel} (hc : t.channels[c]? = some sc) :
    sc.channel.items =
      ⟨none⟩ :: (t.delivered (tr ++ evs) sc.slot sc.peer).map fun sig => ⟨some sig⟩ := by
  by_cases hacc : acceptances evs = []
  · rw [h.delivered_of_nil hm hacc]
    have hset : ∀ {c' : Nat} {sc' : SignalChannel} {channel : Channel SignalListenerRsp},
        s.channels[c']? = some sc' → channel.items = sc'.channel.items →
        (s.channels.set c' { sc' with channel := channel })[c]? = some sc →
        sc.channel.items =
          ⟨none⟩ :: (s.delivered tr sc.slot sc.peer).map fun sig => ⟨some sig⟩ := by
      intro c' sc' channel hsc' hitems hc
      by_cases hcc : c = c'
      · subst hcc
        rw [List.getElem?_set_self (List.getElem?_eq_some_iff.mp hsc').1, Option.some.injEq] at hc
        subst hc
        exact hitems.trans (h.items c sc' hsc')
      · rw [List.getElem?_set_ne (Ne.symm hcc)] at hc
        exact h.items c sc hc
    cases hm with
    | pollChannel hsc hn => exact hset hsc (Channel.next_some hn).1 hc
    | dropChannel hsc => exact hset hsc (Channel.items_dropReceiver _) hc
    | @openListener k order slot id peer channel hk hl hnone hsend =>
      change (s.channels ++ [_])[c]? = some sc at hc
      by_cases hlt : c < s.channels.length
      · rw [List.getElem?_append_left hlt] at hc
        exact h.items c sc hc
      · have hceq : c = s.channels.length := by
          have := (List.getElem?_eq_some_iff.mp hc).1
          rw [List.length_append, List.length_singleton] at this
          omega
        subst hceq
        rw [List.getElem?_concat_length, Option.some.injEq] at hc
        subst hc
        rw [h.items_register htab hl hnone, (Channel.trySend_ok hsend).2.1]
        rfl
    | accept _ _ _ _ _ => simp [acceptances, acceptedCall] at hacc
    | announce _ | depart _ _ =>
      rw [channels_setPhase, channels_broadcastChange] at hc
      exact h.items c sc hc
    | _ => exact h.items c sc hc
  · obtain ⟨k, hk⟩ := List.exists_mem_of_ne_nil _ hacc
    exact h.items_accept hm htab hk hc

/-- Every step keeps the delivery invariant. -/
theorem step (h : DeliveryInv tr s) (hm : s.Moves a t evs) (htab : TableInv tr s) :
    DeliveryInv (tr ++ evs) t := by
  have hdone {k phase} (hp : Phase.Delivering phase) (hk : s.At k phase) : t.At k phase := by
    obtain ⟨request, hk⟩ := hk
    cases phase with
    | done result => exact ⟨request, hm.done hk⟩
    | _ => exact hp.elim
  refine ⟨?_, ?_, ?_, ?_, ?_, fun c sc hc => h.step_items hm htab hc⟩
  · intro k request slot c hk
    rcases hm.delivering hk trivial with hk | ⟨_, ⟨_, hp, _⟩ | ⟨slot', id, channel, hr, hp, _, hc⟩⟩
    · obtain ⟨p, hr, hkey⟩ := h.opened k request slot c hk
      exact ⟨p, hr, hm.key hkey⟩
    · simp at hp
    · simp only [Phase.done.injEq, Except.ok.injEq, Response.openListener.injEq] at hp
      refine ⟨id, hp.1 ▸ hr, ?_⟩
      rw [hp.2, hp.1, key_append hc, if_pos rfl]
  · rintro k k' slot slot' c ⟨r, hk⟩ ⟨r', hk'⟩
    have hnew {j : Nat} {request : Request} {slot : Slot}
        (hj : s.calls[j]? = some ⟨request, .done (.ok (.openListener slot c))⟩)
        (hc : c = s.channels.length) : False := by
      obtain ⟨p, _, hkey⟩ := h.opened j request slot c hj
      rw [hc, Server.key, List.getElem?_eq_none le_rfl] at hkey
      simp only [Option.map_none, reduceCtorEq] at hkey
    have hcase {j : Nat} {request : Request} {slot : Slot}
        (hj : t.calls[j]? = some ⟨request, .done (.ok (.openListener slot c))⟩) :
        s.calls[j]? = some ⟨request, .done (.ok (.openListener slot c))⟩ ∨
          (c = s.channels.length ∧ a.call = some j) := by
      rcases hm.delivering hj trivial with hj' | ⟨hj', ⟨_, hp, _⟩ | ⟨_, _, _, _, hp, _, _⟩⟩
      · exact Or.inl hj'
      · simp at hp
      · simp only [Phase.done.injEq, Except.ok.injEq, Response.openListener.injEq] at hp
        refine Or.inr ⟨hp.2, ?_⟩
        by_contra hne
        have hstay := hm.calls_of_ne hj' hne
        rw [hj, Option.some.injEq, Call.mk.injEq] at hstay
        simp at hstay
    rcases hcase hk with ho | ⟨hc, ha⟩ <;> rcases hcase hk' with ho' | ⟨hc', ha'⟩
    · exact h.handed k k' slot slot' c ⟨r, ho⟩ ⟨r', ho'⟩
    · exact (hnew ho hc').elim
    · exact (hnew ho' hc).elim
    · rw [ha, Option.some.injEq] at ha'
      exact ha'
  · intro k
    rw [acceptances_append, List.mem_append, h.accepted]
    constructor
    · rintro (⟨slot, hk⟩ | hk)
      · exact ⟨slot, hdone trivial hk⟩
      · obtain ⟨_, slot, _, _, _, _, _, _, _, _, _, _, _, _, _, _, hat⟩ := hm.accepted hk
        exact ⟨slot, hat⟩
    · rintro ⟨slot, r, hk⟩
      rcases hm.delivering hk trivial with hk | ⟨_, ⟨_, _, he⟩ | ⟨_, _, _, _, hp, _, _⟩⟩
      · exact Or.inl ⟨slot, r, hk⟩
      · exact Or.inr (by rw [he]; exact List.mem_singleton_self k)
      · simp at hp
  · rw [acceptances_append]
    by_cases hacc : acceptances evs = []
    · rw [hacc, List.append_nil]
      exact h.nodup
    · obtain ⟨k, hk⟩ := List.exists_mem_of_ne_nil _ hacc
      obtain ⟨_, _, _, _, _, _, _, _, _, rfl, hcall, _⟩ := hm.accepted hk
      refine List.nodup_append.mpr ⟨h.nodup, List.nodup_singleton k, ?_⟩
      rintro j hj j' hj' rfl
      obtain rfl : j = k := List.mem_singleton.mp hj'
      obtain ⟨slot, r, hat⟩ := (h.accepted j).mp hj
      rw [hcall, Option.some.injEq, Call.mk.injEq] at hat
      simp at hat
  · intro k hk
    rw [acceptances_append] at hk
    rcases List.mem_append.mp hk with hk | hk
    · obtain ⟨slot, p, sig, phase, c, hcall, hkey⟩ := h.routed k hk
      obtain ⟨phase', hcall'⟩ := hm.request hcall
      exact ⟨slot, p, sig, phase', c, hcall', hm.key hkey⟩
    · obtain ⟨_, slot, id, sig, peer, c, _, _, _, _, hcall, hp, hc, _⟩ := hm.accepted hk
      obtain ⟨phase', hcall'⟩ := hm.request hcall
      exact ⟨slot, id, sig, phase', c, hcall', hm.key (htab.link id peer slot c hp hc)⟩

end DeliveryInv

/-- The channel table and the delivery invariant hold after every run with fewer than
`2 ^ 64` allocations. -/
theorem deliveryInv {ok : Server → Action → Prop} {tr : List Event} {s : Server}
    (hr : server.Run ok tr s) (hn : allocations tr < 2 ^ 64) :
    TableInv tr s ∧ DeliveryInv tr s := by
  refine hr.invariant_while (P := fun tr => allocations tr < 2 ^ 64)
    (I := fun tr s => TableInv tr s ∧ DeliveryInv tr s) allocations_lt ?_ ?_ hn
  · constructor
    · refine ⟨?_, ?_, ?_, ?_⟩ <;> simp [server, Server.new, Server.key]
    · refine ⟨?_, ?_, ?_, ?_, ?_, ?_⟩ <;>
        simp [server, Server.new, Server.key, Server.At, acceptances]
  · intro tr s a t evs hr hlt _ h _ hs
    obtain ⟨htab, hdel⟩ := h
    exact ⟨(step_moves hs).tableInv htab (identityInv hr hlt), hdel.step (step_moves hs) htab⟩

/-- A step of a signal request that accepts nothing changes no channel, and no step of it
touches the entry or a channel of a peer it does not name. -/
theorem Moves.signal_frame {s t : Server} {k : Nat} {order : List Id} {tr evs : List Event}
    (hm : s.Moves (.advance k order) t evs) (htab : TableInv tr s) {slot : Slot}
    {remotePeer : Option Id} {sig : Option Signal} {phase : Phase}
    (hk : s.calls[k]? = some ⟨.signal slot remotePeer sig, phase⟩)
    (hc : (Call.mk (.signal slot remotePeer sig) phase).Consistent) :
    (k ∉ acceptances evs → t.channels = s.channels) ∧
      ∀ x, remotePeer ≠ some x → t.peers.lookup x = s.peers.lookup x ∧
        ∀ (c : Nat) (sc : SignalChannel), s.channels[c]? = some sc → sc.peer = x →
          t.channels[c]? = some sc := by
  cases hm with
  | generate hj | collect hj _ | openListener hj _ _ _ =>
    rw [hk, Option.some.injEq, Call.mk.injEq] at hj
    simp at hj
  | duplicate hj _ | insert hj _ | announce hj | subscribe hj =>
    rw [hk, Option.some.injEq, Call.mk.injEq] at hj
    obtain ⟨rfl, rfl⟩ := hj
    simp [Call.Consistent] at hc
  | depart hj hd =>
    refine ⟨fun _ => by simp, fun x _ => ⟨by simp, fun c sc hsc _ => ?_⟩⟩
    rwa [channels_setPhase, channels_broadcastChange]
  | @remove _ _ _ id caller hj hmem =>
    rw [hk, Option.some.injEq, Call.mk.injEq] at hj
    obtain ⟨rfl, rfl⟩ := hj
    have hid : remotePeer = some id := by
      cases caller with
      | teardown => simp [Call.Consistent] at hc
      | signal slot' =>
        obtain ⟨sig', hsig⟩ := hc
        rw [Request.signal.injEq] at hsig
        exact hsig.2.1
    refine ⟨fun _ => rfl, fun x hx => ⟨Finmap.lookup_erase_ne ?_, fun c sc hsc _ => hsc⟩⟩
    rintro rfl
    exact hx hid
  | respond _ _ | disconnect _ _ _ _ _ =>
    exact ⟨fun _ => rfl, fun x _ => ⟨rfl, fun c sc hsc _ => hsc⟩⟩
  | @accept _ _ slot' id sig' peer c sc channel hj hp hc' hsc hsend =>
    rw [hk, Option.some.injEq, Call.mk.injEq, Request.signal.injEq] at hj
    obtain ⟨⟨rfl, rfl, rfl⟩, rfl⟩ := hj
    refine ⟨fun hn => absurd ?_ hn, fun x hx => ⟨rfl, fun c' sc' hsc' hpeer => ?_⟩⟩
    · exact List.mem_singleton_self k
    · have hkey := htab.link id peer slot c hp hc'
      rw [Server.key, hsc, Option.map_some, Option.some.injEq, Prod.mk.injEq] at hkey
      have hne : c ≠ c' := by
        rintro rfl
        rw [hsc, Option.some.injEq] at hsc'
        subst hsc'
        exact hx (by rw [← hpeer, hkey.2])
      exact (List.getElem?_set_ne hne).trans hsc'

/-- Call `k` has handed out stream `c` for a slot of a peer. -/
def HandedOut (s : Server) (k : Nat) (slot : Slot) (p : Id) (c : Nat) : Prop :=
  s.calls[k]? = some ⟨.openListener slot (some p), .done (.ok (.openListener slot c))⟩

instance (s : Server) (k : Nat) (slot : Slot) (p : Id) (c : Nat) :
    Decidable (s.HandedOut k slot p c) := inferInstanceAs (Decidable (_ = _))

/-- Signals are delivered without loss, duplication, reordering or misrouting. For a slot
and a peer at most one stream is ever handed out. While its receiver is alive, what it has
yielded and what is queued are the empty response and then the signals of the accepted
calls that name the peer and the slot, in the order of acceptance; a call is accepted at
most once, exactly when it succeeds. A request that is rejected changes no channel, and one
that names another peer leaves the peer's entry and its channels alone. -/
theorem signal_delivery {tr : List Event} {s : Server} (hr : server.Run Machine.Free tr s)
    (hn : allocations tr < 2 ^ 64) (slot : Slot) (p : Id) :
    (∀ k k' c c', s.HandedOut k slot p c → s.HandedOut k' slot p c' → k = k' ∧ c = c') ∧
      (∀ k c, s.HandedOut k slot p c →
        ∃ sc : SignalChannel, s.channels[c]? = some sc ∧ (sc.channel.receiverAlive = true →
          sc.channel.yielded ++ sc.channel.queue =
            ⟨none⟩ :: (s.delivered tr slot p).map fun sig => ⟨some sig⟩)) ∧
      ((acceptances tr).Nodup ∧
        ∀ k, k ∈ acceptances tr ↔ ∃ slot', s.At k (.done (.ok (.signal slot')))) ∧
      ∀ (k : Nat) order slot' remotePeer sig phase t evs,
        s.calls[k]? = some ⟨.signal slot' remotePeer sig, phase⟩ →
        server.step s (.advance k order) = some (t, evs) →
        (k ∉ acceptances evs → t.channels = s.channels) ∧
          (remotePeer ≠ some p → t.peers.lookup p = s.peers.lookup p ∧
            ∀ (c : Nat) (sc : SignalChannel), s.channels[c]? = some sc → sc.peer = p →
              t.channels[c]? = some sc) := by
  obtain ⟨htab, h⟩ := deliveryInv hr hn
  have hkey {k c} (hk : s.HandedOut k slot p c) : s.key c = some (slot, p) := by
    obtain ⟨p', hr, hkey⟩ := h.opened k _ slot c hk
    rw [Request.openListener.injEq, Option.some.injEq] at hr
    rwa [← hr.2] at hkey
  refine ⟨?_, ?_, ⟨h.nodup, h.accepted⟩, ?_⟩
  · intro k k' c c' hk hk'
    have hcc := htab.one (slot, p) c c' (hkey hk) (hkey hk')
    subst hcc
    exact ⟨h.handed k k' slot slot c ⟨_, hk⟩ ⟨_, hk'⟩, rfl⟩
  · intro k c hk
    have hx := hkey hk
    simp only [Server.key, Option.map_eq_some_iff, Prod.mk.injEq] at hx
    obtain ⟨sc, hsc, hslot, hpeer⟩ := hx
    refine ⟨sc, hsc, fun _ => ?_⟩
    have hitems := h.items c sc hsc
    rw [hslot, hpeer] at hitems
    exact hitems
  · intro k order slot' remotePeer sig phase t evs hk hs
    have hm : s.Moves (.advance k order) t evs := step_moves hs
    obtain ⟨hrej, hother⟩ := hm.signal_frame htab hk
      (consistent hr _ (List.mem_of_getElem? hk))
    exact ⟨hrej, hother p⟩

/-- An offer waits behind the empty response in the channel of the peer it names. -/
theorem signal_delivery_offer : ∃ tr s, ∃ sc : SignalChannel, server.Run Machine.Free tr s ∧
    s.HandedOut 1 .offer 0 0 ∧ s.channels[0]? = some sc ∧ acceptances tr = [2] ∧
    (sc.channel.receiverAlive = true →
      sc.channel.yielded ++ sc.channel.queue =
        ⟨none⟩ :: (s.delivered tr .offer 0).map fun sig => ⟨some sig⟩) ∧
    s.delivered tr .offer 0 = [⟨1, [7], []⟩] := by
  obtain ⟨tr, s, hr, hc⟩ := server.exec_reaches Machine.Free
    (Action.handling .advertise 0 3 [] ++ Action.handling (.openOfferListener (some 0)) 1 1 [] ++
      [.pollChannel 0] ++ Action.handling (.signalOffer (some 0) (some ⟨1, [7], []⟩)) 2 1 [])
    (fun c => decide (allocations c.2 = 1 ∧ acceptances c.2 = [2] ∧ c.1.HandedOut 1 .offer 0 0 ∧
      c.1.delivered c.2 .offer 0 = [⟨1, [7], []⟩])) (by decide +kernel)
  obtain ⟨hn, hacc, hout, hdel⟩ := of_decide_eq_true hc
  have hlt : allocations tr < 2 ^ 64 := by
    rw [hn]
    decide
  obtain ⟨sc, hsc, hitems⟩ := (signal_delivery hr hlt .offer 0).2.1 1 0 hout
  exact ⟨tr, s, sc, hr, hout, hsc, hacc, hitems, hdel⟩

end Server

end JustWebrtc.Signalling
