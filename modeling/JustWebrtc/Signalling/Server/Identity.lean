import JustWebrtc.Signalling.Server.Calls

/-!
# Peer identifiers

Identifiers are allocated by incrementing a 64-bit counter outside any lock, and become
keys of the peer map later. While fewer than `2 ^ 64` have been allocated the counter has
not wrapped, so every allocation is fresh, including against the identifiers that other
handlers have allocated and not yet inserted. The invariant takes the number of
allocations as a parameter, because other instances of the process share the counter.
-/

namespace JustWebrtc.Signalling

/-- An identifier was taken from the counter. -/
def Event.isAllocated : Event → Bool
  | .allocated _ _ => true
  | _ => false

/-- The number of `advertise` requests of a run that have drawn an identifier. -/
def allocations (tr : List Event) : Nat := tr.countP Event.isAllocated

@[simp] theorem allocations_append (tr evs : List Event) :
    allocations (tr ++ evs) = allocations tr + allocations evs := List.countP_append

/-- A run has allocated no more before its end. -/
theorem allocations_lt {n : Nat} (tr evs : List Event) (h : allocations (tr ++ evs) < n) :
    allocations tr < n := by
  rw [allocations_append] at h
  exact (Nat.le_add_right _ _).trans_lt h

/-- The call that an event allocates for. -/
def Event.allocatedCall : Event → Option Nat
  | .allocated k _ => some k
  | _ => none

/-- The calls that have allocated are as many as the allocations. -/
theorem length_allocatedCalls (tr : List Event) :
    (tr.filterMap Event.allocatedCall).length = allocations tr := by
  rw [List.length_filterMap_eq_countP]
  refine List.countP_congr fun e _ => ?_
  cases e <;> rfl

/-- The handler is past its allocation, or it has none. -/
def Phase.allocated : Phase → Bool
  | .inserting _ | .announcing _ | .done _ => true
  | _ => false

/-- The phases that speak about an identifier of `advertise`. -/
def Phase.Advertising : Phase → Prop
  | .inserting _ | .announcing _ | .done (.ok (.advertise _)) => True
  | .done (.error e) => e = Status.duplicateId
  | _ => False

namespace Server

/-- After `n` allocations in the process: what has been allocated by this instance, what is
pending between allocation and insertion, and what has ever been a key. -/
structure IdentityInv (n : Nat) (tr : List Event) (s : Server) : Prop where
  generator : s.generator = UInt64.ofNat n
  below : ∀ k id, Event.allocated k id ∈ tr → id.toNat < n
  once : ∀ k k' id, Event.allocated k id ∈ tr → Event.allocated k' id ∈ tr → k = k'
  inserted : ∀ k id, Event.inserted k id ∈ tr → Event.allocated k id ∈ tr
  keys : ∀ id ∈ s.peers, ∃ k, Event.inserted k id ∈ tr
  removed : ∀ id, Event.removed id ∈ tr → id ∉ s.peers ∧ ∃ k, Event.inserted k id ∈ tr
  pending : ∀ k id, s.At k (.inserting id) →
    Event.allocated k id ∈ tr ∧ Event.inserted k id ∉ tr
  announced : ∀ k id, s.At k (.announcing id) → Event.inserted k id ∈ tr
  returned : ∀ k id, s.At k (.done (.ok (.advertise id))) →
    ∃ x, id = some x ∧ Event.inserted k x ∈ tr
  fresh : ∀ k, ¬ s.At k (.done (.error Status.duplicateId))
  duplicated : ∀ k id, Event.duplicated k id ∉ tr

/-- The responses that change nothing are not about an identifier of `advertise`. -/
theorem Responds.not_advertising {s : Server} {order : List Id} {c : Call}
    {result : Except Status Response} (h : s.Responds order c result) :
    ¬ (Phase.done result).Advertising := by
  cases h <;> simp [Phase.Advertising, Status.duplicateId, Status.missingLocalPeer,
    Status.notAdvertised, Status.missingRemotePeer, Status.missingSignal,
    Status.remoteNotAdvertised, Status.remoteNotListening, Status.bufferFull,
    Status.listenerNotAdvertised, Status.listenerExists]

theorem Caller.result_not_advertising (caller : Caller) :
    ¬ (Phase.done caller.result).Advertising := by
  cases caller <;> simp [Phase.Advertising, Caller.result, Status.duplicateId,
    Status.remoteDisconnected]

/-- A moved call is in an advertising phase afterwards only if it was before, unless the
phase it moves to is one. -/
theorem at_of_not_advertising {s u : Server} {k j : Nat} {phase phase' : Phase} {call : Call}
    (hu : u.calls = s.calls) (hk : s.calls[k]? = some call) (hp : ¬ phase.Advertising)
    (hp' : phase'.Advertising) (h : (u.setPhase k phase).At j phase') : s.At j phase' := by
  rcases (at_setPhase (by rw [hu]; exact hk)).mp h with ⟨_, rfl⟩ | ⟨_, h⟩
  · exact absurd hp' hp
  · obtain ⟨request, hj⟩ := h
    exact ⟨request, by rw [← hu]; exact hj⟩

namespace IdentityInv

variable {n : Nat} {tr evs : List Event} {s t : Server}

/-- More allocations elsewhere in the process do no harm. -/
theorem mono (h : IdentityInv n tr s) {m : Nat} (hnm : n ≤ m) :
    IdentityInv m tr { s with generator := UInt64.ofNat m } :=
  { h with
    generator := rfl
    below := fun k id hm => (h.below k id hm).trans_le hnm }

/-- A step that concerns no identifier. -/
theorem frame (h : IdentityInv n tr s) (hg : t.generator = s.generator)
    (hp : ∀ id, id ∈ t.peers ↔ id ∈ s.peers)
    (he : ∀ e ∈ evs, (∃ m b, e = .broadcast m b) ∨ (∃ k i, e = .subscribed k i) ∨
      ∃ k, e = .accepted k)
    (ha : ∀ k phase, phase.Advertising → t.At k phase → s.At k phase) :
    IdentityInv (n + allocations evs) (tr ++ evs) t := by
  have hzero : allocations evs = 0 := by
    rw [allocations, List.countP_eq_zero]
    intro e hev
    rcases he e hev with ⟨m, b, rfl⟩ | ⟨k, i, rfl⟩ | ⟨k, rfl⟩ <;> simp [Event.isAllocated]
  rw [hzero, Nat.add_zero]
  have hmem (e : Event) (h1 : ∀ m b, e ≠ .broadcast m b) (h2 : ∀ k i, e ≠ .subscribed k i)
      (h3 : ∀ k, e ≠ .accepted k) : e ∈ tr ++ evs ↔ e ∈ tr := by
    rw [List.mem_append, or_iff_left]
    intro hev
    rcases he e hev with ⟨m, b, rfl⟩ | ⟨k, i, rfl⟩ | ⟨k, rfl⟩
    · exact h1 m b rfl
    · exact h2 k i rfl
    · exact h3 k rfl
  have halloc (k id) : Event.allocated k id ∈ tr ++ evs ↔ Event.allocated k id ∈ tr :=
    hmem _ (by simp) (by simp) (by simp)
  have hins (k id) : Event.inserted k id ∈ tr ++ evs ↔ Event.inserted k id ∈ tr :=
    hmem _ (by simp) (by simp) (by simp)
  have hrem (id) : Event.removed id ∈ tr ++ evs ↔ Event.removed id ∈ tr :=
    hmem _ (by simp) (by simp) (by simp)
  have hdup (k id) : Event.duplicated k id ∈ tr ++ evs ↔ Event.duplicated k id ∈ tr :=
    hmem _ (by simp) (by simp) (by simp)
  refine ⟨hg.trans h.generator, ?_, ?_, ?_, ?_, ?_, ?_, ?_, ?_, ?_, ?_⟩
  · simpa only [halloc] using h.below
  · simpa only [halloc] using h.once
  · simpa only [halloc, hins] using h.inserted
  · simpa only [hins, hp] using h.keys
  · simpa only [hins, hrem, hp] using h.removed
  · intro k id hk
    simpa only [halloc, hins] using h.pending k id (ha k _ trivial hk)
  · intro k id hk
    simpa only [hins] using h.announced k id (ha k _ trivial hk)
  · intro k id hk
    simpa only [hins] using h.returned k id (ha k _ trivial hk)
  · intro k hk
    exact h.fresh k (ha k _ rfl hk)
  · simpa only [hdup] using h.duplicated

/-- Drawing the next identifier: it exceeds every earlier one. -/
theorem generate (h : IdentityInv n tr s) (hn : n < 2 ^ 64) {k : Nat} {request : Request}
    (hk : s.calls[k]? = some ⟨request, .received⟩) :
    IdentityInv (n + 1) (tr ++ [.allocated k s.generator])
      ({ s with generator := s.generator + 1 }.setPhase k (.inserting s.generator)) := by
  have hid : s.generator.toNat = n := by
    rw [h.generator, UInt64.toNat_ofNat']
    exact Nat.mod_eq_of_lt hn
  have hnew : ∀ j id, Event.allocated j id ∈ tr → id ≠ s.generator := by
    intro j id hm he
    have := h.below j id hm
    rw [he, hid] at this
    exact lt_irrefl _ this
  have hat {j phase} (hj : ({ s with generator := s.generator + 1 }.setPhase k
      (.inserting s.generator)).At j phase) :
      (j = k ∧ phase = .inserting s.generator) ∨ (j ≠ k ∧ s.At j phase) :=
    (at_setPhase (s := { s with generator := s.generator + 1 }) hk).mp hj
  refine ⟨?_, ?_, ?_, ?_, ?_, ?_, ?_, ?_, ?_, ?_, ?_⟩
  · change s.generator + 1 = _
    rw [h.generator, UInt64.ofNat_add]
    rfl
  · intro j id hm
    rcases List.mem_append.mp hm with hm | hm
    · exact (h.below j id hm).trans (Nat.lt_succ_self n)
    · rw [List.mem_singleton, Event.allocated.injEq] at hm
      rw [hm.2, hid]
      exact Nat.lt_succ_self n
  · intro j j' id hm hm'
    rcases List.mem_append.mp hm with hm | hm <;> rcases List.mem_append.mp hm' with hm' | hm'
    · exact h.once j j' id hm hm'
    · rw [List.mem_singleton, Event.allocated.injEq] at hm'
      exact absurd hm'.2 (hnew j id hm)
    · rw [List.mem_singleton, Event.allocated.injEq] at hm
      exact absurd hm.2 (hnew j' id hm')
    · rw [List.mem_singleton, Event.allocated.injEq] at hm hm'
      rw [hm.1, hm'.1]
  · intro j id hm
    have hm' : Event.inserted j id ∈ tr := by simpa using hm
    exact List.mem_append_left _ (h.inserted j id hm')
  · intro id hm
    obtain ⟨j, hj⟩ := h.keys id hm
    exact ⟨j, List.mem_append_left _ hj⟩
  · intro id hm
    have hm' : Event.removed id ∈ tr := by simpa using hm
    obtain ⟨hp, j, hj⟩ := h.removed id hm'
    exact ⟨hp, j, List.mem_append_left _ hj⟩
  · intro j id hj
    rcases hat hj with ⟨rfl, hp⟩ | ⟨_, hj⟩
    · rw [Phase.inserting.injEq] at hp
      rw [hp]
      refine ⟨by simp, fun hm => ?_⟩
      have hm' : Event.inserted j s.generator ∈ tr := by simpa using hm
      exact hnew j _ (h.inserted j _ hm') rfl
    · obtain ⟨ha, hi⟩ := h.pending j id hj
      exact ⟨List.mem_append_left _ ha, by simpa using hi⟩
  · intro j id hj
    rcases hat hj with ⟨_, hp⟩ | ⟨_, hj⟩
    · simp only [reduceCtorEq] at hp
    · exact List.mem_append_left _ (h.announced j id hj)
  · intro j id hj
    rcases hat hj with ⟨_, hp⟩ | ⟨_, hj⟩
    · simp only [reduceCtorEq] at hp
    · obtain ⟨x, hx, hi⟩ := h.returned j id hj
      exact ⟨x, hx, List.mem_append_left _ hi⟩
  · intro j hj
    rcases hat hj with ⟨_, hp⟩ | ⟨_, hj⟩
    · simp only [reduceCtorEq] at hp
    · exact h.fresh j hj
  · intro j id hm
    exact h.duplicated j id (by simpa using hm)

/-- A pending identifier has never been a key. -/
theorem not_inserted (h : IdentityInv n tr s) {k : Nat} {id : Id} (hk : s.At k (.inserting id)) :
    ∀ j, Event.inserted j id ∉ tr := by
  intro j hj
  obtain ⟨ha, hi⟩ := h.pending k id hk
  have hjk := h.once j k id (h.inserted j id hj) ha
  rw [hjk] at hj
  exact hi hj

/-- A pending identifier is not a key. -/
theorem not_mem_peers (h : IdentityInv n tr s) {k : Nat} {id : Id}
    (hk : s.At k (.inserting id)) : id ∉ s.peers := fun hm =>
  (h.keys id hm).elim fun j hj => h.not_inserted hk j hj

/-- Inserting a pending identifier. -/
theorem insert (h : IdentityInv n tr s) {k : Nat} {request : Request} {id : Id}
    (hk : s.calls[k]? = some ⟨request, .inserting id⟩) :
    IdentityInv n (tr ++ [.inserted k id])
      ({ s with peers := s.peers.insert id {} }.setPhase k (.announcing id)) := by
  have hpend : s.At k (.inserting id) := ⟨request, hk⟩
  have hnever := h.not_inserted hpend
  have hat {j phase} (hj : ({ s with peers := s.peers.insert id {} }.setPhase k
      (.announcing id)).At j phase) :
      (j = k ∧ phase = .announcing id) ∨ (j ≠ k ∧ s.At j phase) :=
    (at_setPhase (s := { s with peers := s.peers.insert id {} }) hk).mp hj
  refine ⟨h.generator, ?_, ?_, ?_, ?_, ?_, ?_, ?_, ?_, ?_, ?_⟩
  · intro j x hm
    exact h.below j x (by simpa using hm)
  · intro j j' x hm hm'
    exact h.once j j' x (by simpa using hm) (by simpa using hm')
  · intro j x hm
    rcases List.mem_append.mp hm with hm | hm
    · exact List.mem_append_left _ (h.inserted j x hm)
    · rw [List.mem_singleton, Event.inserted.injEq] at hm
      rw [hm.1, hm.2]
      exact List.mem_append_left _ (h.pending k id hpend).1
  · intro x hm
    rcases Finmap.mem_insert.mp hm with rfl | hm
    · exact ⟨k, by simp⟩
    · obtain ⟨j, hj⟩ := h.keys x hm
      exact ⟨j, List.mem_append_left _ hj⟩
  · intro x hm
    have hm' : Event.removed x ∈ tr := by simpa using hm
    obtain ⟨hp, j, hj⟩ := h.removed x hm'
    refine ⟨fun hx => ?_, j, List.mem_append_left _ hj⟩
    rcases Finmap.mem_insert.mp hx with rfl | hx
    · exact hnever j hj
    · exact hp hx
  · intro j x hj
    rcases hat hj with ⟨_, hp⟩ | ⟨hjk, hj⟩
    · simp only [reduceCtorEq] at hp
    · obtain ⟨ha, hi⟩ := h.pending j x hj
      refine ⟨List.mem_append_left _ ha, fun hm => ?_⟩
      rcases List.mem_append.mp hm with hm | hm
      · exact hi hm
      · rw [List.mem_singleton, Event.inserted.injEq] at hm
        exact hjk hm.1
  · intro j x hj
    rcases hat hj with ⟨rfl, hp⟩ | ⟨_, hj⟩
    · rw [Phase.announcing.injEq] at hp
      rw [hp]
      simp
    · exact List.mem_append_left _ (h.announced j x hj)
  · intro j x hj
    rcases hat hj with ⟨_, hp⟩ | ⟨_, hj⟩
    · simp only [reduceCtorEq] at hp
    · obtain ⟨y, hy, hi⟩ := h.returned j x hj
      exact ⟨y, hy, List.mem_append_left _ hi⟩
  · intro j hj
    rcases hat hj with ⟨_, hp⟩ | ⟨_, hj⟩
    · simp only [reduceCtorEq] at hp
    · exact h.fresh j hj
  · intro j x hm
    exact h.duplicated j x (by simpa using hm)

/-- Returning an announced identifier. -/
theorem announce (h : IdentityInv n tr s) {k : Nat} {request : Request} {id : Id}
    (hk : s.calls[k]? = some ⟨request, .announcing id⟩) :
    IdentityInv n tr ((s.broadcastChange (.add id)).1.setPhase k
      (.done (.ok (.advertise (some id))))) := by
  have hat {j phase} (hj : ((s.broadcastChange (.add id)).1.setPhase k
      (.done (.ok (.advertise (some id))))).At j phase) :
      (j = k ∧ phase = .done (.ok (.advertise (some id)))) ∨ (j ≠ k ∧ s.At j phase) := by
    rcases (at_setPhase (by rw [calls_broadcastChange]; exact hk)).mp hj with hj | ⟨hne, hj⟩
    · exact Or.inl hj
    · exact Or.inr ⟨hne, by simpa only [At, calls_broadcastChange] using hj⟩
  refine ⟨by simpa using h.generator, h.below, h.once, h.inserted, by simpa using h.keys,
    by simpa using h.removed, ?_, ?_, ?_, ?_, h.duplicated⟩
  · intro j x hj
    rcases hat hj with ⟨_, hp⟩ | ⟨_, hj⟩
    · simp only [reduceCtorEq] at hp
    · exact h.pending j x hj
  · intro j x hj
    rcases hat hj with ⟨_, hp⟩ | ⟨_, hj⟩
    · simp only [reduceCtorEq] at hp
    · exact h.announced j x hj
  · intro j x hj
    rcases hat hj with ⟨rfl, hp⟩ | ⟨_, hj⟩
    · refine ⟨id, by simpa using hp, h.announced j id ⟨request, hk⟩⟩
    · exact h.returned j x hj
  · intro j hj
    rcases hat hj with ⟨_, hp⟩ | ⟨_, hj⟩
    · simp at hp
    · exact h.fresh j hj

/-- Removing a key for good. -/
theorem remove (h : IdentityInv n tr s) {k : Nat} {request : Request} {id : Id} {caller : Caller}
    (hk : s.calls[k]? = some ⟨request, .removing id caller⟩) (hmem : id ∈ s.peers) :
    IdentityInv n (tr ++ [.removed id])
      ({ s with peers := s.peers.erase id }.setPhase k (.done caller.result)) := by
  have hat {j phase} (hp : phase.Advertising) (hj : ({ s with peers := s.peers.erase id }.setPhase
      k (.done caller.result)).At j phase) : s.At j phase :=
    at_of_not_advertising (u := { s with peers := s.peers.erase id }) rfl hk
      (Caller.result_not_advertising caller) hp hj
  refine ⟨h.generator, ?_, ?_, ?_, ?_, ?_, ?_, ?_, ?_, ?_, ?_⟩
  · intro j x hm
    exact h.below j x (by simpa using hm)
  · intro j j' x hm hm'
    exact h.once j j' x (by simpa using hm) (by simpa using hm')
  · intro j x hm
    exact List.mem_append_left _ (h.inserted j x (by simpa using hm))
  · intro x hm
    obtain ⟨j, hj⟩ := h.keys x (Finmap.mem_erase.mp hm).2
    exact ⟨j, List.mem_append_left _ hj⟩
  · intro x hm
    rcases List.mem_append.mp hm with hm | hm
    · obtain ⟨hp, j, hj⟩ := h.removed x hm
      exact ⟨fun hx => hp (Finmap.mem_erase.mp hx).2, j, List.mem_append_left _ hj⟩
    · rw [List.mem_singleton, Event.removed.injEq] at hm
      obtain ⟨j, hj⟩ := h.keys id hmem
      rw [hm]
      exact ⟨Finmap.notMem_erase_self, j, List.mem_append_left _ hj⟩
  · intro j x hj
    obtain ⟨ha, hi⟩ := h.pending j x (hat trivial hj)
    exact ⟨List.mem_append_left _ ha, by simpa using hi⟩
  · intro j x hj
    exact List.mem_append_left _ (h.announced j x (hat trivial hj))
  · intro j x hj
    obtain ⟨y, hy, hi⟩ := h.returned j x (hat trivial hj)
    exact ⟨y, hy, List.mem_append_left _ hi⟩
  · intro j hj
    exact h.fresh j (hat rfl hj)
  · intro j x hm
    exact h.duplicated j x (by simpa using hm)

end IdentityInv

/-- An identifier is allocated as the counter stands, to an `advertise` call. -/
theorem Moves.allocated {s t : Server} {a : Action} {evs : List Event} (hm : s.Moves a t evs)
    {k : Nat} {id : Id} (h : Event.allocated k id ∈ evs) :
    id = s.generator ∧ s.calls[k]? = some ⟨.advertise, .received⟩ := by
  cases hm with
  | generate hk =>
    rw [List.mem_singleton, Event.allocated.injEq] at h
    rw [h.1]
    exact ⟨h.2, hk⟩
  | announce _ | depart _ _ => exact absurd h (not_mem_broadcastChange (by simp))
  | _ => simp at h

/-- Every step keeps the identity invariant as long as the counter does not wrap. -/
theorem Moves.identityInv {n : Nat} {tr evs : List Event} {s t : Server} {a : Action}
    (hm : s.Moves a t evs) (h : IdentityInv n tr s) (hn : n + allocations evs ≤ 2 ^ 64) :
    IdentityInv (n + allocations evs) (tr ++ evs) t := by
  cases hm with
  | receive request =>
    refine h.frame rfl (fun _ => Iff.rfl) (by simp) fun k phase hp hk => ?_
    exact (at_receive (by rintro rfl; exact hp)).mp hk
  | generate hk => exact h.generate hn hk
  | duplicate hk hmem => exact absurd hmem (h.not_mem_peers ⟨_, hk⟩)
  | insert hk _ => exact h.insert hk
  | @announce k order request id hk =>
    refine (h.announce hk).frame rfl (fun _ => Iff.rfl) ?_ fun _ _ _ hj => hj
    intro e he
    rw [List.mem_singleton.mp he]
    exact Or.inl (broadcastChange_event s (.add id))
  | @depart k order call id caller hk _ =>
    refine h.frame (by simp) (by simp) ?_ fun j phase hp hj =>
      at_of_not_advertising (by simp) hk (by simp [Phase.Advertising]) hp hj
    intro e he
    rw [List.mem_singleton.mp he]
    exact Or.inl (broadcastChange_event s (.remove id))
  | remove hk hmem => exact h.remove hk hmem
  | respond hk hr =>
    exact h.frame rfl (fun _ => Iff.rfl) (by simp) fun j phase hp hj =>
      at_of_not_advertising rfl hk hr.not_advertising hp hj
  | collect hk _ =>
    exact h.frame rfl (fun _ => Iff.rfl) (by simp) fun j phase hp hj =>
      at_of_not_advertising rfl hk (by simp [Phase.Advertising]) hp hj
  | @subscribe k order request id initial hk =>
    refine h.frame rfl (fun _ => Iff.rfl) (by simp) fun j phase hp hj => ?_
    exact at_of_not_advertising (s := s) (u := (s.openPeerListenerSubscribe k id initial).1) rfl hk
      (by simp [Phase.Advertising]) hp hj
  | @accept k order slot id sig peer c sc channel hk _ _ _ _ =>
    refine h.frame rfl (fun _ => Iff.rfl) (by simp) fun j phase hp hj => ?_
    exact at_of_not_advertising (s := s)
      (u := { s with channels := s.channels.set c { sc with channel := channel } }) rfl hk
      (by simp [Phase.Advertising]) hp hj
  | disconnect hk _ _ _ _ =>
    exact h.frame rfl (fun _ => Iff.rfl) (by simp) fun j phase hp hj =>
      at_of_not_advertising rfl hk (by simp [Phase.Advertising]) hp hj
  | @openListener k order slot id peer channel hk hp _ _ =>
    refine h.frame rfl (fun x => ?_) (by simp) fun j phase hp hj => ?_
    · refine Finmap.mem_insert.trans (or_iff_right_of_imp ?_)
      rintro rfl
      exact Finmap.mem_of_lookup_eq_some hp
    · exact at_of_not_advertising (s := s)
        (u := { s with
          peers := s.peers.insert id (peer.setTx slot s.channels.length)
          channels := s.channels ++ [{ slot := slot, peer := id, channel := channel }] }) rfl hk
        (by simp [Phase.Advertising]) hp hj
  | yieldInitial _ _ _ | yieldReceived _ _ _ _ _ | pollChannel _ _ | dropPeerStream _ _
  | dropChannel _ => exact h.frame rfl (fun _ => Iff.rfl) (by simp) fun _ _ _ hj => hj

/-- A single server shares its counter with nobody: the invariant holds of every run with
fewer than `2 ^ 64` allocations. -/
theorem identityInv {ok : Server → Action → Prop} {tr : List Event} {s : Server}
    (hr : server.Run ok tr s) (hn : allocations tr < 2 ^ 64) :
    IdentityInv (allocations tr) tr s := by
  refine hr.invariant_while (P := fun tr => allocations tr < 2 ^ 64)
    (I := fun tr s => IdentityInv (allocations tr) tr s) allocations_lt ?_ ?_ hn
  · refine ⟨rfl, by simp, by simp, by simp, ?_, by simp, ?_, ?_, ?_, ?_, by simp⟩
    · intro id hid
      exact absurd hid Finmap.notMem_empty
    all_goals
      intro k
      simp [Server.At, server, Server.new]
  · intro tr s a t evs _ _ hn h _ hs
    rw [allocations_append] at hn ⊢
    exact (step_moves hs).identityInv h hn.le

/-! ## The number of allocations -/

/-- A call that is past its allocation stays so. -/
theorem Moves.past_allocation {s t : Server} {a : Action} {evs : List Event} (hm : s.Moves a t evs)
    {k : Nat} {request : Request} {phase : Phase} (hk : s.calls[k]? = some ⟨request, phase⟩)
    (hp : phase.allocated = true) :
    ∃ phase', t.calls[k]? = some ⟨request, phase'⟩ ∧ phase'.allocated = true := by
  by_cases ha : a.call = some k
  · cases a with
    | advance k' order =>
      obtain rfl := Option.some.inj ha
      have hres := hm.resumes hk
      cases phase with
      | inserting id =>
        rcases hres with ⟨_, rfl, _⟩ | ⟨_, rfl, _⟩
        all_goals exact ⟨_, (getElem?_calls_setPhase hk).mpr (Or.inl ⟨rfl, rfl⟩), rfl⟩
      | announcing id =>
        obtain ⟨rfl, _⟩ := hres
        have hcalls : (s.broadcastChange (.add id)).1.calls[k']? =
            some ⟨request, .announcing id⟩ := by
          rw [calls_broadcastChange]
          exact hk
        exact ⟨_, (getElem?_calls_setPhase hcalls).mpr (Or.inl ⟨rfl, rfl⟩), rfl⟩
      | done result => exact hres.elim
      | _ => simp [Phase.allocated] at hp
    | _ => simp [Action.call] at ha
  · exact ⟨phase, hm.calls_of_ne hk ha, hp⟩

/-- A step allocates for no call, or for one `advertise` call that is not past its allocation. -/
theorem Moves.allocatedCall {s t : Server} {a : Action} {evs : List Event} (hm : s.Moves a t evs) :
    evs.filterMap Event.allocatedCall = [] ∨ ∃ k id, evs.filterMap Event.allocatedCall = [k] ∧
      s.calls[k]? = some ⟨.advertise, .received⟩ ∧
        t.calls[k]? = some ⟨.advertise, .inserting id⟩ := by
  cases hm with
  | generate hk =>
    exact Or.inr ⟨_, _, rfl, hk, (getElem?_calls_setPhase hk).mpr (Or.inl ⟨rfl, rfl⟩)⟩
  | announce _ | depart _ _ =>
    obtain ⟨m, sent, he⟩ := broadcastChange_event s _
    rw [he]
    exact Or.inl rfl
  | _ => exact Or.inl rfl

/-- Every call allocates at most once, and it is an `advertise` call. -/
theorem allocated_once {ok : Server → Action → Prop} {tr : List Event} {s : Server}
    (hr : server.Run ok tr s) : (tr.filterMap Event.allocatedCall).Nodup ∧
      ∀ k ∈ tr.filterMap Event.allocatedCall, ∃ phase, s.calls[k]? = some ⟨.advertise, phase⟩ ∧
        phase.allocated = true := by
  refine hr.invariant (I := fun tr s => (tr.filterMap Event.allocatedCall).Nodup ∧
    ∀ k ∈ tr.filterMap Event.allocatedCall, ∃ phase, s.calls[k]? = some ⟨.advertise, phase⟩ ∧
      phase.allocated = true) (by simp) ?_
  intro tr s a t evs _ h _ hs
  obtain ⟨hnodup, hpast⟩ := h
  have hm : Moves s a t evs := step_moves hs
  have hold : ∀ k ∈ tr.filterMap Event.allocatedCall, ∃ phase,
      t.calls[k]? = some ⟨.advertise, phase⟩ ∧ phase.allocated = true := by
    intro k hk
    obtain ⟨phase, hk, hp⟩ := hpast k hk
    exact hm.past_allocation hk hp
  rw [List.filterMap_append]
  rcases hm.allocatedCall with hnil | ⟨k, id, hone, hk, hk'⟩
  · rw [hnil, List.append_nil]
    exact ⟨hnodup, hold⟩
  · rw [hone]
    refine ⟨hnodup.append (List.nodup_singleton k) ?_, fun j hj => ?_⟩
    · rw [List.disjoint_singleton]
      intro hmem
      obtain ⟨phase, hphase, hp⟩ := hpast k hmem
      rw [hk, Option.some.injEq, Call.mk.injEq] at hphase
      rw [← hphase.2] at hp
      simp [Phase.allocated] at hp
    · rcases List.mem_append.mp hj with hj | hj
      · exact hold j hj
      · rw [List.mem_singleton.mp hj]
        exact ⟨_, hk', rfl⟩

end Server

end JustWebrtc.Signalling
