import JustWebrtc.Signalling.System.Rest

/-!
# What comes about

Every run can be gone on with until nothing more can happen, and at rest the peers are quiet. So
what holds of quiet peers comes about in the end, under every schedule. Where handlers run to
completion, every client has discovered exactly the peers of the other clients. Where no last
offer is lost, one of any two clients is linked to the other.
-/

namespace JustWebrtc.Signalling

namespace Server

variable {s t : Server} {a : Action} {evs tr : List Event}

/-- Where handlers run to completion, at most one of them is mid-way. -/
theorem midway_unique (hr : server.Run Alone tr s) {k k' : Nat} {phase phase' : Phase}
    (hk : s.At k phase) (hk' : s.At k' phase') (hmid : phase.midway = true)
    (hmid' : phase'.midway = true) : k = k' := by
  have hnew {phase : Phase} (hmid : phase.midway = true) : phase ≠ .received := by
    rintro rfl
    simp [Phase.midway] at hmid
  refine hr.invariant (I := fun _ s => ∀ k k' phase phase', s.At k phase → s.At k' phase' →
    phase.midway = true → phase'.midway = true → k = k') ?_ ?_ k k' phase phase' hk hk' hmid hmid'
  · rintro k k' phase phase' ⟨request, hk⟩
    simp [server, Server.new] at hk
  · intro tr s a t evs _ ih ha hs k k' phase phase' hk hk' hmid hmid'
    have hm := step_moves hs
    -- a call that is mid-way still, beside the one that has moved
    have hmoved {j k : Nat} {order : List Id} {phase : Phase} (ha : s.Alone (.advance k order))
        (hj : s.At j phase) (hmid : phase.midway = true) : j = k := by
      by_contra hjk
      obtain ⟨request, hj⟩ := hj
      simp [ha.others hjk hj] at hmid
    rcases hm.enters (hnew hmid) hk with ⟨_, hold⟩ | ⟨order, _, rfl, _, _⟩
    · rcases hm.enters (hnew hmid') hk' with ⟨_, hold'⟩ | ⟨order, _, rfl, _, _⟩
      · exact ih k k' phase phase' hold hold' hmid hmid'
      · exact hmoved ha hold hmid
    · rcases hm.enters (hnew hmid') hk' with ⟨_, hold'⟩ | ⟨order', _, hsame, _, _⟩
      · exact (hmoved ha hold' hmid').symm
      · exact (Action.advance.inj hsame).1

/-- Where handlers run to completion and one of them has not returned, one of them can go on. -/
theorem alone_enabled (hr : server.Run Alone tr s) (htab : TableInv tr s) {k : Nat} {call : Call}
    (hk : s.calls[k]? = some call) (hp : ∀ result, call.phase ≠ .done result) :
    ∃ k order out, s.Alone (.advance k order) ∧ s.step (.advance k order) = some out := by
  by_cases hmid : ∃ (k' : Nat) (call' : Call), s.calls[k']? = some call' ∧
      call'.phase.midway = true
  · obtain ⟨k', call', hk', hmid⟩ := hmid
    have hnot (result : Except Status Response) : call'.phase ≠ .done result := by
      intro hdone
      simp [hdone, Phase.midway] at hmid
    obtain ⟨order, out, hs⟩ := advance_enabled htab hk' hnot
    refine ⟨k', order, out, ?_, hs⟩
    rintro _ ⟨⟩ c hc
    obtain ⟨j, hjk, hj⟩ := List.mem_eraseIdx_iff_getElem?.mp hc
    by_contra hbusy
    exact hjk (midway_unique hr ⟨c.request, hj⟩ ⟨call'.request, hk'⟩
      (Bool.not_eq_false _ ▸ hbusy) hmid)
  · obtain ⟨order, out, hs⟩ := advance_enabled htab hk hp
    refine ⟨k, order, out, fun _ _ c hc => ?_, hs⟩
    obtain ⟨j, hj⟩ := List.mem_iff_getElem?.mp (List.mem_of_mem_eraseIdx hc)
    by_contra hbusy
    exact hmid ⟨j, c, hj, Bool.not_eq_false _ ▸ hbusy⟩

end Server

variable {ι A O C : Type*} [DecidableEq ι]

namespace System

/-- A faultless step that interrupts no handler. -/
def Orderly (s : System ι A O C) (a : Action ι A O C) : Prop := s.Faultless a ∧ s.Alone a

instance (s : System ι A O C) (a : Action ι A O C) : Decidable (s.Orderly a) :=
  inferInstanceAs (Decidable (s.Faultless a ∧ s.Alone a))

variable {codecs : Codecs A O C} {tr : List (Event ι A O C)} {s : System ι A O C}
  {a : Action ι A O C} {i j : ι} {p : Peer A O C} {x : Id}

/-- The server of a system whose handlers run to completion. -/
theorem aloneRun (hr : (system ι codecs).Run Alone tr s) :
    Signalling.server.Run Server.Alone (serverTrace tr) s.server :=
  serverRun Server.Alone (fun _ _ ha => ha) (by simp [Server.Alone, Server.Action.call]) hr

/-- Where handlers run to completion, that holds nothing up. -/
theorem stuck_of_orderly (hr : (system ι codecs).Run Orderly tr s)
    (hn : allocations (serverTrace tr) < 2 ^ 64) (hstuck : (system ι codecs).Stuck Orderly s) :
    (system ι codecs).Stuck Faultless s := by
  have hserver := aloneRun (hr.mono fun _ _ h => h.2)
  have hdone {k : Nat} {call : Call} (hk : s.server.calls[k]? = some call) :
      ∃ result, call.phase = .done result := by
    by_contra hnot
    obtain ⟨k, order, out, halone, hs⟩ := Server.alone_enabled hserver
      (Server.deliveryInv (freeRun hr) hn).1 hk fun result hp => hnot ⟨result, hp⟩
    have hnone := hstuck (.server (.advance k order))
      ⟨⟨⟨rfl, by simp [Action.finished]⟩, rfl⟩, halone⟩
    simp [system, step, hs] at hnone
  intro a ha
  refine hstuck a ⟨ha, ?_⟩
  cases a with
  | server b =>
    intro k _ c hc
    obtain ⟨n, hn⟩ := List.mem_iff_getElem?.mp (List.mem_of_mem_eraseIdx hc)
    obtain ⟨result, hp⟩ := hdone hn
    rw [hp]
    rfl
  | _ => exact trivial

section

variable (hr : (system ι codecs).Run Faultless tr s) (hn : allocations (serverTrace tr) < 2 ^ 64)
  (hstuck : (system ι codecs).Stuck Meshes s)

include hr hn hstuck

/-- At rest the map holds the peers of the clients. -/
theorem rest_keys : x ∈ s.server.peers.keys ↔ ∃ i, (s.clients i).localId = some x := by
  rw [Finmap.mem_keys]
  constructor
  · intro hx
    obtain ⟨k, hk⟩ := (Server.identityInv (freeRun hr) hn).keys x hx
    obtain ⟨i, p, call, hi, rfl⟩ := rest_inserted hr hn hstuck hk
    exact ⟨i, by rw [hi]; rfl⟩
  · rintro ⟨i, hi⟩
    obtain ⟨n, _, hst⟩ := standing hr hn hi
    exact (Server.entriesInv (freeRun hr)).standing n _ hst

end

/-- A quiet peer of a client whose stream has lost nothing has discovered the other peers of the
map, where no handler is mid-way. -/
theorem Quiet.discovers (hq : Quiet s j p) (hr : (system ι codecs).Run Alone tr s)
    (hn : allocations (serverTrace tr) < 2 ^ 64) (hsettled : s.server.Settled)
    (hint : ∀ st ∈ s.server.streams, st.Intact) :
    p.discoveredPeers = s.server.peers.keys.erase p.localId := by
  have hserver := freeRun hr
  obtain ⟨hcalls, hclients⟩ := clientInv hr
  have hpeer : (s.clients j).peer? = some p := by
    rw [hq.running]
    rfl
  have hinv : PeerInv tr s j p := by
    have hclient := hclients j
    rw [hq.running] at hclient
    exact hclient.holds.1
  obtain ⟨task, hl, hlisten⟩ := List.countP_pos_iff.mp
    (Nat.lt_of_lt_of_eq Nat.zero_lt_one (hq.listeners .peer).symm)
  obtain ⟨listener, rfl⟩ : ∃ listener, task = .peerListener listener := by
    cases task <;> simp_all [Task.listensTo, Task.listener]
  obtain ⟨st, _, hst, _⟩ := (hinv.listens _ hl .peer listener rfl).hands_out hcalls
    (Server.handsOut hserver)
  obtain ⟨hdrained, htaken⟩ := hq.drained _ hl
  rw [Server.peerWire, hst] at htaken
  have hid := hinv.stream_localId hcalls (Server.handsOut hserver) hl hst
  have hown := (ownInv hr hn j).discovered p hpeer
  ext x
  rw [Finset.mem_erase, Finmap.mem_keys, ← hsettled.shown x]
  by_cases hx : x = p.localId
  · subst hx
    exact ⟨fun h => absurd h hown, fun h => absurd rfl h.1⟩
  · have hreads := ((converges hr j p hpeer).reads listener hl).drained
      (Server.broadcastInv hserver) hst (hint st (List.mem_of_getElem? hst)) hdrained htaken
      (hid ▸ hx)
    exact hreads.trans (and_iff_right hx).symm

/-- Discovery settles: a run of at most sixteen clients without faults, on a server whose handlers
run to completion, goes on to a state at rest, and in every such state each client has discovered
exactly the peers of the other clients. -/
theorem discovery_settles [Fintype ι] [Nonempty A] [Nonempty O] [Nonempty C]
    {xs : List (Machine.Transition (System ι A O C) (Action ι A O C) (Event ι A O C))}
    (hr : (system ι codecs).recorded.Run Orderly xs s) (hcard : Fintype.card ι ≤ 16)
    (hanswer : codecs.answer.Inverts) (hoffer : codecs.offer.Inverts)
    (hcandidates : codecs.candidates.Inverts) :
    (∃ more t, (system ι codecs).recorded.Run Orderly (xs ++ more) t ∧
        (system ι codecs).Stuck Orderly t) ∧
      ((system ι codecs).Stuck Orderly s → ∀ j, ∃ p, Quiet s j p ∧
        ∀ x, x ∈ p.discoveredPeers ↔ ∃ i, i ≠ j ∧ (s.clients i).localId = some x) := by
  have hsmall : Fintype.card ι < 2 ^ 64 := by omega
  refine ⟨comes_to_rest hr (fun _ _ h => h.1) hsmall hanswer hoffer hcandidates,
    fun hstuck j => ?_⟩
  have hrun := hr.forget
  have hfaultless : (system ι codecs).Run Faultless (Machine.trace xs) s :=
    hrun.mono fun _ _ h => h.1
  have hn := lt_of_le_of_lt (allocations_le_card (honest hfaultless)) hsmall
  have hint := intact_of_card hfaultless hcard
  have hrest : (system ι codecs).Stuck Meshes s :=
    fun a ha => stuck_of_orderly hrun hn hstuck a ha.1
  have hsettled : s.server.Settled := by
    intro c hc
    obtain ⟨k, hk⟩ := List.mem_iff_getElem?.mp hc
    obtain ⟨result, hp⟩ := rest_returned hfaultless hn hrest hanswer hoffer hcandidates hk
    rw [hp]
    rfl
  obtain ⟨p, hq⟩ := rest_quiet hfaultless hn hanswer hoffer hcandidates hrest hint j
  have hlocal : (s.clients j).localId = some p.localId := by
    rw [hq.running]
    rfl
  refine ⟨p, hq, fun x => ?_⟩
  rw [hq.discovers (hrun.mono fun _ _ h => h.2) hn hsettled hint, Finset.mem_erase,
    rest_keys hfaultless hn hrest]
  constructor
  · rintro ⟨hx, i, hi⟩
    refine ⟨i, ?_, hi⟩
    rintro rfl
    exact hx (Option.some.inj (hi.symm.trans hlocal))
  · rintro ⟨i, hij, hi⟩
    refine ⟨?_, i, hi⟩
    rintro rfl
    exact hij (localId_unique hrun hn hi hlocal)

/-- Two clients discover each other. -/
theorem discovery_settles_two : ∃ xs s, (system Bool Codecs.unit).recorded.Run Orderly xs s ∧
    ∀ j, ∃ p, Quiet s j p ∧
      ∀ x, x ∈ p.discoveredPeers ↔ ∃ i, i ≠ j ∧ (s.clients i).localId = some x := by
  obtain ⟨xs, s, hr, hstuck⟩ := (discovery_settles
    (Machine.Run.init : (system Bool Codecs.unit).recorded.Run Orderly [] _) (by simp)
    (fun _ _ _ => rfl) (fun _ _ _ => rfl) fun _ _ _ => rfl).1
  exact ⟨_, s, hr, (discovery_settles hr (by simp) (fun _ _ _ => rfl) (fun _ _ _ => rfl)
    fun _ _ _ => rfl).2 hstuck⟩

/-- The mesh forms: a run of at most sixteen clients without faults, whose offers are heard or go
to a peer whose own snapshot lists their sender, goes on to a state at rest, and in every such
state each client runs a quiet peer and one of any two is linked to the other. -/
theorem mesh_forms [Fintype ι] [Nonempty A] [Nonempty O] [Nonempty C]
    {xs : List (Machine.Transition (System ι A O C) (Action ι A O C) (Event ι A O C))}
    (hr : (system ι codecs).recorded.Run Meshes xs s) (hcard : Fintype.card ι ≤ 16)
    (hcodecs : codecs.Faithful) :
    (∃ more t, (system ι codecs).recorded.Run Meshes (xs ++ more) t ∧
        (system ι codecs).Stuck Meshes t) ∧
      ((system ι codecs).Stuck Meshes s → ∀ i j, i ≠ j → ∃ p r, Quiet s i p ∧ Quiet s j r ∧
        (Linked (Machine.trace xs) i j p.localId r.localId ∨
          Linked (Machine.trace xs) j i r.localId p.localId)) := by
  have hanswer := hcodecs.answer.inverts
  have hoffer := hcodecs.offer.inverts
  have hcandidates := hcodecs.candidates.inverts
  have hsmall : Fintype.card ι < 2 ^ 64 := by omega
  refine ⟨comes_to_rest hr (fun _ _ h => h.1) hsmall hanswer hoffer hcandidates,
    fun hstuck i j hij => ?_⟩
  have hrun := hr.forget
  have hfaultless : (system ι codecs).Run Faultless (Machine.trace xs) s :=
    hrun.mono fun _ _ h => h.1
  have hn := lt_of_le_of_lt (allocations_le_card (honest hfaultless)) hsmall
  have hroom : s.Roomy := by
    intro k slot hfull
    have hlt := full_card (honest hfaultless) hn hanswer hoffer hcandidates hfull
    omega
  have hquiet := rest_quiet hfaultless hn hanswer hoffer hcandidates hstuck
    (intact_of_card hfaultless hcard)
  obtain ⟨p, hp⟩ := hquiet i
  obtain ⟨r, hq⟩ := hquiet j
  refine ⟨p, r, hp, hq, ?_⟩
  rcases hp.covers hq hfaultless hn hij with h | h
  · exact hp.linked_of_called hq hrun hn hcodecs hroom h
  · exact (hq.linked_of_called hp hrun hn hcodecs hroom h).symm

/-- Two clients are linked in the end. -/
theorem mesh_forms_two : ∃ xs s p r, (system Bool Codecs.unit).recorded.Run Meshes xs s ∧
    Quiet s true p ∧ Quiet s false r ∧
    (Linked (Machine.trace xs) true false p.localId r.localId ∨
      Linked (Machine.trace xs) false true r.localId p.localId) := by
  have hcodecs : Codecs.unit.Faithful :=
    ⟨fun _ => ⟨[], rfl, rfl⟩, fun _ => ⟨[], rfl, rfl⟩, fun _ => ⟨[], rfl, rfl⟩⟩
  obtain ⟨xs, s, hr, hstuck⟩ := (mesh_forms
    (Machine.Run.init : (system Bool Codecs.unit).recorded.Run Meshes [] _) (by simp) hcodecs).1
  obtain ⟨p, r, hlinked⟩ := (mesh_forms hr (by simp) hcodecs).2 hstuck true false (by simp)
  exact ⟨_, s, p, r, hr, hlinked⟩

end System

end JustWebrtc.Signalling
