import JustWebrtc.Signalling.Server.Delivery
import JustWebrtc.Signalling.Server.Teardown

/-!
# Who is taken out of the map

A peer leaves the map by a teardown that names it or by a signal to it that has found its
stream gone. That observation is made under a read lock and acted on under a later write
lock. It stays true in between: a dropped receiver does not come back, and neither does an
identifier, so the entry that is removed is the one whose stream was gone.
-/

namespace JustWebrtc.Signalling

/-- The peer a request names, as its own or as the remote one. -/
def Request.named : Request → Option Id
  | .advertise => none
  | .teardown localPeer => localPeer
  | .peerDiscover localPeer => localPeer
  | .openPeerListener localPeer => localPeer
  | .signal _ remotePeer _ => remotePeer
  | .openListener _ localPeer => localPeer

namespace Server

section

variable {s t : Server} {a : Action} {k : Nat} {order : List Id} {call : Call} {phase : Phase}
  {evs tr : List Event} {p : Id} {slot : Slot} {c : Nat}

/-- The receiver of channel `c`, opened for a slot of `p`, has been dropped. -/
def Gone (s : Server) (slot : Slot) (p : Id) (c : Nat) : Prop :=
  ∃ sc, s.channels[c]? = some sc ∧ sc.slot = slot ∧ sc.peer = p ∧
    sc.channel.receiverAlive = false

/-- The channel of a slot of `p` that its entry in the map refers to. -/
def Registered (s : Server) (slot : Slot) (p : Id) (c : Nat) : Prop :=
  ∃ peer, s.peers.lookup p = some peer ∧ peer.tx slot = some c

/-- Replacing a channel does not bring a dropped receiver back. -/
theorem Gone.set {sc : SignalChannel} {c' : Nat} {channel : Channel SignalListenerRsp}
    (h : s.Gone slot p c) (hc : s.channels[c']? = some sc)
    (hdrop : sc.channel.receiverAlive = false → channel.receiverAlive = false) :
    Gone { s with channels := s.channels.set c' { sc with channel := channel } } slot p c := by
  obtain ⟨sc', hsc, hslot, hpeer, hdead⟩ := h
  by_cases hcc : c' = c
  · subst hcc
    rw [hc, Option.some.injEq] at hsc
    subst hsc
    have hlt := (List.getElem?_eq_some_iff.mp hc).1
    exact ⟨{ sc with channel := channel }, List.getElem?_set_self hlt, hslot, hpeer, hdrop hdead⟩
  · exact ⟨sc', (List.getElem?_set_ne hcc).trans hsc, hslot, hpeer, hdead⟩

/-- A dropped receiver stays dropped. -/
theorem Moves.gone (hm : s.Moves a t evs) (h : s.Gone slot p c) : t.Gone slot p c := by
  cases hm with
  | accept _ _ _ hsc hsend =>
    refine h.set hsc fun hdead => ?_
    rw [(Channel.trySend_ok hsend).1] at hdead
    simp at hdead
  | pollChannel hsc hn => exact h.set hsc fun hdead => (Channel.next_some hn).2.1.trans hdead
  | dropChannel hsc => exact h.set hsc fun _ => rfl
  | openListener _ _ _ _ =>
    obtain ⟨sc, hsc, hgone⟩ := h
    exact ⟨sc, (List.getElem?_append_left (List.getElem?_eq_some_iff.mp hsc).1).trans hsc, hgone⟩
  | announce _ | depart _ _ =>
    obtain ⟨sc, hsc, hgone⟩ := h
    exact ⟨sc, by rw [channels_setPhase, channels_broadcastChange]; exact hsc, hgone⟩
  | _ => exact h

/-- The call whose eviction of a slot of `p` is under way. -/
def Evicts (s : Server) (k : Nat) (slot : Slot) (p : Id) : Prop :=
  s.At k (.evicting p slot) ∨ s.At k (.removing p (.signal slot))

/-- An eviction under way is of a channel that was gone when the call has looked, and is. -/
theorem evicts_gone {ok : Server → Action → Prop}
    {steps : List (Machine.Transition Server Action Event)} (hr : server.recorded.Run ok steps s)
    (hn : allocations (Machine.trace steps) < 2 ^ 64) (h : s.Evicts k slot p) :
    ∃ c, s.Gone slot p c ∧ ∃ y ∈ steps, y.action.call = some k ∧ y.source.At k .received ∧
        y.source.Gone slot p c := by
  refine hr.recorded_invariant (I := fun steps s => allocations (Machine.trace steps) < 2 ^ 64 →
    s.Evicts k slot p → ∃ c, s.Gone slot p c ∧
      ∃ y ∈ steps, y.action.call = some k ∧ y.source.At k .received ∧
        y.source.Gone slot p c) ?_ ?_ hn h
  · intro _ h
    rcases h with ⟨_, h⟩ | ⟨_, h⟩ <;> simp [server, Server.new] at h
  · intro steps s a t evs hr ih _ hs hn h
    have hm := step_moves hs
    rw [Machine.trace_append, allocations_append] at hn
    have hlt : allocations (Machine.trace steps) < 2 ^ 64 := by omega
    have hold (h : s.Evicts k slot p) : ∃ c, t.Gone slot p c ∧
        ∃ y ∈ steps ++ [⟨s, a, t, evs⟩], y.action.call = some k ∧ y.source.At k .received ∧
        y.source.Gone slot p c := by
      obtain ⟨c, hc, y, hy, hgone⟩ := ih hlt h
      exact ⟨c, hm.gone hc, y, List.mem_append_left _ hy, hgone⟩
    rcases h with h | h
    · rcases hm.enters (by simp) h with ⟨_, h⟩ | ⟨order, call, rfl, hk, he⟩
      · exact hold (Or.inl h)
      · obtain ⟨sig, peer, c, sc, rfl, hpeer, hc, hsc, hsend⟩ := he
        have hdead : sc.channel.receiverAlive = false := by
          rcases Channel.trySend_error hsend with ⟨_, hdead⟩ | ⟨hfull, _⟩
          · exact hdead
          · simp at hfull
        have hkey := (deliveryInv hr.forget hlt).1.link p peer slot c hpeer hc
        rw [key, hsc, Option.map_some, Option.some.injEq, Prod.mk.injEq] at hkey
        have hgone : s.Gone slot p c := ⟨sc, hsc, hkey.1, hkey.2, hdead⟩
        exact ⟨c, hm.gone hgone, _, List.mem_append_right _ (List.mem_singleton_self _), rfl,
          ⟨_, hk⟩, hgone⟩
    · rcases hm.enters (by simp) h with ⟨_, h⟩ | ⟨order, call, rfl, hk, hd⟩
      · exact hold (Or.inr h)
      · cases hd with
        | evict => exact hold (Or.inl ⟨_, hk⟩)

/-- A channel of a slot of `p` is the one that the entry of `p` refers to. -/
theorem Gone.registered (h : s.Gone slot p c) (htab : TableInv tr s) (hp : p ∈ s.peers) :
    s.Registered slot p c := by
  obtain ⟨peer, hpeer⟩ := Finmap.mem_iff.mp hp
  obtain ⟨sc, hsc, hslot, hsp, _⟩ := h
  refine ⟨peer, hpeer, htab.back p peer slot c ?_ hpeer⟩
  rw [key, hsc, Option.map_some, hslot, hsp]

/-- What a step of a call leaves alone: the entry and the channels of every peer in the map that
its request does not name. -/
theorem Moves.unnamed (hm : s.Moves (.advance k order) t evs) (htab : TableInv tr s)
    (hk : s.calls[k]? = some call) (hc : call.Consistent) {q : Id}
    (hq : call.request.named ≠ some q) (hmem : q ∈ s.peers) :
    t.peers.lookup q = s.peers.lookup q ∧
      ∀ (c : Nat) (sc : SignalChannel), s.channels[c]? = some sc → sc.peer = q →
        t.channels[c]? = some sc := by
  cases hm with
  | generate _ | duplicate _ _ | respond _ _ | collect _ _ | subscribe _ | disconnect _ _ _ _ _ =>
    exact ⟨rfl, fun c sc hsc _ => hsc⟩
  | @insert _ _ request id hj hnew =>
    refine ⟨Finmap.lookup_insert_of_ne _ ?_, fun c sc hsc _ => hsc⟩
    rintro rfl
    exact hnew hmem
  | announce _ | depart _ _ =>
    exact ⟨by simp, fun c sc hsc _ => by rwa [channels_setPhase, channels_broadcastChange]⟩
  | @remove _ _ request id caller hj _ =>
    rw [hk, Option.some.injEq] at hj
    subst hj
    refine ⟨Finmap.lookup_erase_ne ?_, fun c sc hsc _ => hsc⟩
    rintro rfl
    have hadd := hc.addressee
    refine hq ?_
    cases request <;> simp_all [Request.addressee, Request.named]
  | @accept _ _ slot id sig peer c sc channel hj hp hc' hsc hsend =>
    rw [hk, Option.some.injEq] at hj
    subst hj
    refine ⟨rfl, fun c' sc' hsc' hpeer => ?_⟩
    have hkey := htab.link id peer slot c hp hc'
    rw [Server.key, hsc, Option.map_some, Option.some.injEq, Prod.mk.injEq] at hkey
    refine (List.getElem?_set_ne ?_).trans hsc'
    rintro rfl
    rw [hsc, Option.some.injEq] at hsc'
    subst hsc'
    exact hq (by rw [← hpeer, hkey.2]; rfl)
  | @openListener _ _ slot id peer channel hj _ _ _ =>
    rw [hk, Option.some.injEq] at hj
    subst hj
    refine ⟨Finmap.lookup_insert_of_ne _ ?_, fun c sc hsc _ => ?_⟩
    · rintro rfl
      exact hq rfl
    · exact (List.getElem?_append_left (List.getElem?_eq_some_iff.mp hsc).1).trans hsc

/-- A request that ends in a removal: a teardown of `p`, or a signal to a slot of `p` whose
registered stream was gone when the request has looked and is gone now. -/
def Removed (before : List (Machine.Transition Server Action Event)) (s t : Server) (k : Nat)
    (p : Id) : Prop :=
  t.calls[k]? = some ⟨.teardown (some p), .done (.ok .teardown)⟩ ∨
    ∃ slot sig c, t.calls[k]? =
        some ⟨.signal slot (some p) (some sig), .done (.error (Status.remoteDisconnected slot))⟩ ∧
      s.Registered slot p c ∧ s.Gone slot p c ∧
      ∃ y ∈ before, y.action.call = some k ∧ y.source.At k .received ∧
        y.source.Gone slot p c

/-- Evictions are safe: who leaves the map, what results remove nobody, and what no step of a
request touches. -/
structure EvictionSafe (steps : List (Machine.Transition Server Action Event)) (s : Server) :
    Prop where
  /-- A peer leaves by a teardown of it, or by a signal to it after its stream was dropped. -/
  removal : ∀ before x after, steps = before ++ x :: after → ∀ p ∈ x.source.peers,
    p ∉ x.target.peers → ∃ k, x.action.call = some k ∧ Removed before x.source x.target k p
  /-- A call with any other result has removed nobody. -/
  outcome : ∀ k result, s.At k (.done result) → result ≠ .ok .teardown →
    (∀ slot, result ≠ .error (Status.remoteDisconnected slot)) →
    ∀ x ∈ steps, x.action.call = some k → ∀ p ∈ x.source.peers, p ∈ x.target.peers
  /-- The entry and the listeners of a peer that a request does not name stay as they are. -/
  frame : ∀ x ∈ steps, ∀ k ∈ x.action.call, ∀ call ∈ x.source.calls[k]?,
    ∀ q ∈ x.source.peers, call.request.named ≠ some q →
    x.target.peers.lookup q = x.source.peers.lookup q ∧
      ∀ (c : Nat) (sc : SignalChannel), x.source.channels[c]? = some sc → sc.peer = q →
        x.target.channels[c]? = some sc
  /-- Arriving requests and the transport leave the map alone. -/
  idle : ∀ x ∈ steps, x.action.call = none → x.target.peers = x.source.peers

/-- What the steps of a run leave behind for a later state: a call that has come to a result
keeps it. -/
theorem done_kept {ok : Server → Action → Prop}
    {steps : List (Machine.Transition Server Action Event)} (hr : server.recorded.Run ok steps s) :
    ∀ x ∈ steps, ∀ (k : Nat) request result, x.target.calls[k]? = some ⟨request, .done result⟩ →
      s.calls[k]? = some ⟨request, .done result⟩ := by
  refine hr.recorded_invariant (I := fun steps s => ∀ x ∈ steps, ∀ (k : Nat) request result,
    x.target.calls[k]? = some ⟨request, .done result⟩ →
      s.calls[k]? = some ⟨request, .done result⟩) (by simp) ?_
  intro steps s a t evs _ ih _ hs x hx k request result hk
  rcases List.mem_append.mp hx with hx | hx
  · exact (step_moves hs).done (ih x hx k request result hk)
  · rw [List.mem_singleton.mp hx] at hk
    exact hk

/-- Every step that takes a peer out of the map is the end of a teardown of it, or of a signal
to it whose stream was gone. -/
theorem removed_of_lost {ok : Server → Action → Prop}
    {steps : List (Machine.Transition Server Action Event)} (hr : server.recorded.Run ok steps s)
    (hn : allocations (Machine.trace steps) < 2 ^ 64) (hm : s.Moves a t evs) (hp : p ∈ s.peers)
    (hlost : p ∉ t.peers) : ∃ k, a.call = some k ∧ Removed steps s t k p := by
  obtain ⟨k, order, request, caller, rfl, hk, rfl⟩ := hm.lost hp hlost
  refine ⟨k, rfl, ?_⟩
  have hdone : ({ s with peers := s.peers.erase p }.setPhase k
      (.done caller.result)).calls[k]? = some ⟨request, .done caller.result⟩ :=
    (getElem?_calls_setPhase (s := { s with peers := s.peers.erase p }) hk).mpr
      (Or.inl ⟨rfl, rfl⟩)
  have hcons := consistent hr.forget _ (List.mem_of_getElem? hk)
  cases caller with
  | teardown =>
    rw [show request = .teardown (some p) from hcons] at hdone
    exact Or.inl hdone
  | signal slot =>
    obtain ⟨sig, hreq⟩ := hcons
    rw [show request = .signal slot (some p) (some sig) from hreq] at hdone
    obtain ⟨c, hgone, hseen⟩ := evicts_gone hr hn (Or.inr ⟨request, hk⟩)
    have htab := (deliveryInv hr.forget hn).1
    exact Or.inr ⟨slot, sig, c, hdone, hgone.registered htab hp, hgone, hseen⟩

/-- In every run with fewer than `2 ^ 64` allocations, evictions are safe. -/
theorem eviction_safe {steps : List (Machine.Transition Server Action Event)} {s : Server}
    (hr : server.recorded.Run Machine.Free steps s)
    (hn : allocations (Machine.trace steps) < 2 ^ 64) : EvictionSafe steps s := by
  have hat {before after : List (Machine.Transition Server Action Event)}
      {x : Machine.Transition Server Action Event} (he : steps = before ++ x :: after) :
      server.recorded.Run Machine.Free before x.source ∧
        allocations (Machine.trace before) < 2 ^ 64 ∧
        x.source.Moves x.action x.target x.events := by
    obtain ⟨hbefore, _, hs⟩ := hr.split he
    rw [he, Machine.trace_append, allocations_append] at hn
    exact ⟨hbefore, by omega, step_moves hs⟩
  constructor
  · intro before x after he p hp hlost
    obtain ⟨hbefore, hlt, hm⟩ := hat he
    exact removed_of_lost hbefore hlt hm hp hlost
  · intro k result hreturned hok herr x hx hcall p hp
    obtain ⟨request, hk⟩ := hreturned
    by_contra hlost
    obtain ⟨before, after, he⟩ := List.append_of_mem hx
    obtain ⟨hbefore, hlt, hm⟩ := hat he
    obtain ⟨k', hcall', hrem⟩ := removed_of_lost hbefore hlt hm hp hlost
    rw [hcall, Option.some.injEq] at hcall'
    subst hcall'
    rcases hrem with hdone | ⟨slot, sig, c, hdone, _⟩
    · have hkept := done_kept hr x hx k _ _ hdone
      rw [hk, Option.some.injEq, Call.mk.injEq, Phase.done.injEq] at hkept
      exact hok hkept.2
    · have hkept := done_kept hr x hx k _ _ hdone
      rw [hk, Option.some.injEq, Call.mk.injEq, Phase.done.injEq] at hkept
      exact herr slot hkept.2
  · intro x hx k hcall call hk q hq hnamed
    obtain ⟨before, after, he⟩ := List.append_of_mem hx
    obtain ⟨hbefore, hlt, hm⟩ := hat he
    obtain ⟨source, action, target, events⟩ := x
    cases action with
    | advance k' order =>
      obtain rfl : k' = k := by simpa [Action.call] using hcall
      exact hm.unnamed (deliveryInv hbefore.forget hlt).1 hk
        (consistent hbefore.forget _ (List.mem_of_getElem? hk)) hnamed hq
    | _ => simp [Action.call] at hcall
  · intro x hx hcall
    obtain ⟨before, after, he⟩ := List.append_of_mem hx
    exact (hat he).2.2.peers_idle hcall

/-- A signal to a peer whose stream was dropped takes that peer out of the map. -/
theorem eviction_safe_disconnected : ∃ steps s, server.recorded.Run Machine.Free steps s ∧
    s.At 3 (.done (.error (Status.remoteDisconnected .offer))) ∧ EvictionSafe steps s := by
  obtain ⟨steps, s, hr, hc⟩ := server.recorded.exec_reaches Machine.Free
    (List.flatten [Action.handling .advertise 0 3 [], Action.handling .advertise 1 3 [],
      Action.handling (.openOfferListener (some 0)) 2 1 [], [.dropChannel 0],
      Action.handling (.signalOffer (some 0) (some ⟨1, [7], []⟩)) 3 3 []])
    (fun c => decide (allocations (Machine.trace c.2) = 2 ∧ c.1.calls[3]? = some (Call.mk
      (.signalOffer (some 0) (some ⟨1, [7], []⟩))
      (.done (.error (Status.remoteDisconnected .offer)))))) (by decide +kernel)
  obtain ⟨hn, hk⟩ := of_decide_eq_true hc
  exact ⟨steps, s, hr, ⟨_, hk⟩, eviction_safe hr (by rw [hn]; decide)⟩

end

end Server

end JustWebrtc.Signalling
