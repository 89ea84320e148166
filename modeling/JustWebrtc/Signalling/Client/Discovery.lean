import JustWebrtc.Signalling.Client.Futures

/-!
# The discovered peers

Only the peer listener branch of a step, at once or after a resync, touches the discovered
peers, consumes peer changes, creates offers or asks for the peers. Where every change is
expected it replays the changes; at the first one that is not, it stops and asks.
-/

namespace JustWebrtc.Signalling

variable {A O C : Type*}

/-- The peer changes of a state. -/
def SignallingState.changes : SignallingState A O C → Option (List PeerChange)
  | .peerListener _ peerChanges => some peerChanges
  | _ => none

/-- The peer that an offer is created for. -/
def Task.offered : Task A O C → Option Id
  | .createOffer id => some id
  | _ => none

namespace Peer

/-- Peer changes are replayed, either all of them or up to one that changes nothing. -/
theorem applyPeerChanges_cases (discovered : Finset Id) (changes : List PeerChange) :
    applyPeerChanges discovered changes = (Change.replay discovered changes, none) ∨
      ∃ before c rest, changes = before ++ c :: rest ∧
        applyPeerChanges discovered changes = (Change.replay discovered before, some rest) ∧
        c.apply (Change.replay discovered before) = Change.replay discovered before := by
  induction changes generalizing discovered with
  | nil => exact Or.inl rfl
  | cons change changes ih =>
    have hgo (he : applyPeerChanges discovered (change :: changes) =
        applyPeerChanges (change.apply discovered) changes) :
        applyPeerChanges discovered (change :: changes) =
            (Change.replay discovered (change :: changes), none) ∨
          ∃ before c rest, change :: changes = before ++ c :: rest ∧
            applyPeerChanges discovered (change :: changes) =
              (Change.replay discovered before, some rest) ∧
            c.apply (Change.replay discovered before) = Change.replay discovered before := by
      rcases ih (change.apply discovered) with h | ⟨before, c, rest, rfl, h, hc⟩
      · exact Or.inl (he.trans h)
      · exact Or.inr ⟨change :: before, c, rest, rfl, he.trans h, hc⟩
    cases change with
    | add id =>
      by_cases hid : id ∈ discovered
      · refine Or.inr ⟨[], .add id, changes, rfl, ?_, ?_⟩
        · rw [applyPeerChanges, if_pos hid, Change.replay_nil]
        · exact Finset.insert_eq_of_mem hid
      · exact hgo (by rw [applyPeerChanges, if_neg hid, Change.apply])
    | remove id =>
      by_cases hid : id ∈ discovered
      · exact hgo (by rw [applyPeerChanges, if_pos hid, Change.apply])
      · refine Or.inr ⟨[], .remove id, changes, rfl, ?_, ?_⟩
        · rw [applyPeerChanges, if_neg hid, Change.replay_nil]
        · exact Finset.erase_eq_of_notMem hid

/-- New peers without repetitions are all expected. -/
theorem applyPeerChanges_adds {discovered : Finset Id} {initial : List Id} (h : initial.Nodup)
    (hd : ∀ id ∈ initial, id ∉ discovered) :
    applyPeerChanges discovered (initial.map Change.add) =
      (discovered ∪ initial.toFinset, none) := by
  induction initial generalizing discovered with
  | nil => simp [applyPeerChanges]
  | cons id initial ih =>
    obtain ⟨hnot, hnodup⟩ := List.nodup_cons.mp h
    have hrest : ∀ x ∈ initial, x ∉ insert id discovered := by
      intro x hx hm
      rcases Finset.mem_insert.mp hm with rfl | hm
      · exact hnot hx
      · exact hd x (List.mem_cons_of_mem _ hx) hm
    rw [List.map_cons, applyPeerChanges, if_neg (hd id List.mem_cons_self), ih hnodup hrest,
      List.toFinset_cons, Finset.insert_union, Finset.union_insert]

/-- The offers to create for added peers. -/
theorem createOfferTasks_adds (initial : List Id) :
    createOfferTasks (initial.map Change.add) =
      (initial.map Task.createOffer : List (Task A O C)) := by
  induction initial with
  | nil => rfl
  | cons id initial ih =>
    rw [List.map_cons, List.map_cons, ← ih]
    rfl

/-- The first discovery of a snapshot asks nobody and creates the offers to all its peers. -/
theorem synchronise_first {p : Peer A O C} {initial : List Id} (hfirst : p.firstDiscovery = true)
    (hd : p.discoveredPeers = ∅) (h : initial.Nodup) :
    p.synchronise (initial.map Change.add) (initial.map Change.add) =
      { peer := { p with
          discoveredPeers := initial.toFinset
          progress := .idle
          firstDiscovery := false }.push (initial.map Task.createOffer)
        called := initial.map Task.createOffer
        returned := some (.ok ()) } := by
  have happly : applyPeerChanges p.discoveredPeers (initial.map Change.add) =
      (initial.toFinset, none) := by
    rw [applyPeerChanges_adds h (by simp [hd]), hd, Finset.empty_union]
  rw [synchronise, happly]
  simp only [discover, hfirst, if_true, createOfferTasks_adds]

/-- After the first discovery no offers are created. -/
theorem synchronise_later (p : Peer A O C) (changes rest : List PeerChange)
    (hfirst : p.firstDiscovery = false) :
    (p.synchronise changes rest).called = [] ∧
      (p.synchronise changes rest).peer.firstDiscovery = false := by
  rcases p.synchronise_cases changes rest with ⟨discovered, h, _⟩ | ⟨discovered, rest', h, _⟩
  · rw [h]
    obtain ⟨_, _, _, hnext, _, _, hcalled⟩ :=
      discover_spec { p with discoveredPeers := discovered, progress := .idle } changes
    exact ⟨by rw [hcalled]; simp [hfirst], hnext⟩
  · rw [h]
    exact ⟨rfl, hfirst⟩

/-- The branch itself consumes nothing. -/
theorem synchronise_consumed (p : Peer A O C) (changes rest : List PeerChange) :
    (p.synchronise changes rest).consumed = none := by
  rcases p.synchronise_cases changes rest with ⟨discovered, h, _⟩ | ⟨discovered, rest', h, _⟩
  · rw [h, discover]
    split <;> rfl
  · rw [h]

/-- The peer has not taken a message from its peer listener. -/
structure Undiscovered (p : Peer A O C) : Prop where
  first : p.firstDiscovery = true
  discovered : p.discoveredPeers = ∅
  progress : ∀ changes rest, p.progress ≠ .resyncing changes rest
  listener : ∀ listener, Task.peerListener listener ∈ p.unorderedFuts → listener.taken = 0

/-- Nothing of the discovery has changed, other than that a resync may have been given up. -/
structure SameDiscovery (p p' : Peer A O C) : Prop where
  localId : p'.localId = p.localId
  first : p'.firstDiscovery = p.firstDiscovery
  discovered : p'.discoveredPeers = p.discoveredPeers
  progress : ∀ changes rest, p'.progress = .resyncing changes rest →
    p.progress = .resyncing changes rest
  listener : ∀ listener, Task.peerListener listener ∈ p'.unorderedFuts →
    Task.peerListener listener ∈ p.unorderedFuts

theorem SameDiscovery.refl (p : Peer A O C) : p.SameDiscovery p :=
  ⟨rfl, rfl, rfl, fun _ _ h => h, fun _ h => h⟩

theorem SameDiscovery.undiscovered {p p' : Peer A O C} (h : p.SameDiscovery p')
    (hp : p.Undiscovered) : p'.Undiscovered :=
  ⟨h.first.trans hp.first, h.discovered.trans hp.discovered,
    fun changes rest hr => hp.progress changes rest (h.progress changes rest hr),
    fun listener hl => hp.listener listener (h.listener listener hl)⟩

/-- A new peer is undiscovered. -/
theorem new_undiscovered (id : Id) (i c c' : Nat) :
    (Peer.new id i c c' : Peer A O C).Undiscovered := by
  refine ⟨rfl, rfl, by simp [Peer.new], fun listener hl => ?_⟩
  obtain rfl : listener = ⟨i, 0⟩ := by simpa [Peer.new] using hl
  rfl

/-- An input that has nothing to do with discovery. -/
structure Undisturbed (p : Peer A O C) (out : Outcome A O C) : Prop where
  first : out.peer.firstDiscovery = p.firstDiscovery
  discovered : out.peer.discoveredPeers = p.discoveredPeers
  progress : ∀ changes rest, out.peer.progress ≠ .resyncing changes rest
  created : ∀ id, Task.createOffer id ∉ out.called
  consumed : ∀ listener changes, out.consumed ≠ some (.peerListener listener changes)
  request : ∀ id, out.request ≠ some (.peerDiscover id)
  listener : ∀ listener, Task.peerListener listener ∈ out.peer.unorderedFuts →
    Task.peerListener listener ∈ p.unorderedFuts

/-- What is queued of a peer without one future was queued. -/
private theorem mem_eraseIdx {p : Peer A O C} {i : Nat} {task : Task A O C}
    (h : task ∈ p.unorderedFuts.eraseIdx i) : task ∈ p.unorderedFuts :=
  (List.eraseIdx_sublist _ _).subset h

/-- A completed state other than peer changes leaves discovery alone. -/
private theorem step_undisturbed {codecs : Codecs A O C} {p : Peer A O C} {i : Nat}
    (hidle : p.progress = .idle) {state : SignallingState A O C}
    (hs : ∀ listener changes, state ≠ .peerListener listener changes) :
    p.Undisturbed (step codecs { p with unorderedFuts := p.unorderedFuts.eraseIdx i } state) := by
  cases state with
  | peerListener listener changes => exact absurd rfl (hs listener changes)
  | createOffer remoteId offerSet =>
    simp only [step]
    cases h : signalOffer codecs p.localId remoteId offerSet with
    | none =>
      exact ⟨rfl, rfl, by simp [hidle], by simp, by simp, by simp, fun _ ht => mem_eraseIdx ht⟩
    | some request =>
      obtain ⟨_, _, _, _, rfl⟩ := signalOffer_eq h
      exact ⟨rfl, rfl, by simp, by simp, by simp, by simp, fun _ ht => mem_eraseIdx ht⟩
  | receiveOffer remoteId answerSet =>
    simp only [step]
    cases h : signalAnswer codecs p.localId remoteId answerSet with
    | none =>
      exact ⟨rfl, rfl, by simp [hidle], by simp, by simp, by simp, fun _ ht => mem_eraseIdx ht⟩
    | some request =>
      obtain ⟨_, _, _, _, rfl⟩ := signalAnswer_eq h
      exact ⟨rfl, rfl, by simp, by simp, by simp, by simp, fun _ ht => mem_eraseIdx ht⟩
  | answerListener _ _ _ | receiveAnswer _ | offerListener _ _ _ =>
    refine ⟨rfl, rfl, by simp [step, hidle], by simp [step], by simp [step], by simp [step],
      fun listener ht => ?_⟩
    simp only [step, unorderedFuts_push, List.mem_append] at ht
    exact mem_eraseIdx (ht.resolve_right (by simp))
  | localSigCplt _ | remoteSigCplt _ =>
    exact ⟨rfl, rfl, by simp [step, hidle], by simp [step], by simp [step], by simp [step],
      fun _ ht => mem_eraseIdx ht⟩

/-- An input hands over peer changes, answers a resync, or leaves discovery alone. -/
theorem Acts.discovery {codecs : Codecs A O C} {p : Peer A O C} {input : Input A O C}
    {out : Outcome A O C} (h : p.Acts codecs input out) :
    (∃ i listener message, input = .peerMessage i (.ok (some message)) ∧
      p.unorderedFuts[i]? = some (.peerListener listener) ∧ p.progress = .idle ∧
      out = { ({ p with unorderedFuts := p.unorderedFuts.eraseIdx i }.push
          [.peerListener listener.message]).synchronise message.peerChanges message.peerChanges with
        consumed := some (.peerListener listener.message message.peerChanges) }) ∨
      (∃ changes rest remotePeers, input = .response (.ok (.peerDiscover remotePeers)) ∧
        p.progress = .resyncing changes rest ∧
        out = { p with discoveredPeers := remotePeers.toFinset }.synchronise changes rest) ∨
      p.Undisturbed out := by
  cases h with
  | skipOffer hidle hi | skipAnswer hidle hi =>
    refine Or.inr (Or.inr ⟨rfl, rfl, by simp [hidle], by simp, by simp, by simp, ?_⟩)
    intro listener ht
    rcases List.mem_or_eq_of_mem_set ht with ht | ht
    · exact ht
    · simp at ht
  | fail hidle hi _ =>
    exact Or.inr (Or.inr ⟨rfl, rfl, by simp [hidle], by simp, by simp, by simp,
      fun _ ht => mem_eraseIdx ht⟩)
  | @complete i task _ state hidle hi hc =>
    cases hc with
    | @peerListener _ listener message =>
      exact Or.inl ⟨i, listener, message, rfl, hi, hidle, rfl⟩
    | offerListener _ | answerListener _ =>
      exact Or.inr (Or.inr (step_undisturbed hidle (by simp)))
    | callback hcall hyield =>
      refine Or.inr (Or.inr (step_undisturbed hidle ?_))
      rintro listener changes rfl
      cases task <;> simp [Task.yields] at hyield
  | resume h =>
    cases resume_resumes h with
    | resync hprog => exact Or.inr (Or.inl ⟨_, _, _, rfl, hprog, rfl⟩)
    | offered _ | refused _ =>
      exact Or.inr (Or.inr ⟨rfl, rfl, by simp, by simp, by simp, by simp, fun _ ht => ht⟩)
    | answered _ =>
      refine Or.inr (Or.inr ⟨rfl, rfl, by simp, by simp, by simp, by simp, fun listener ht => ?_⟩)
      rcases List.mem_append.mp ht with ht | ht
      · exact ht
      · simp at ht

end Peer

end JustWebrtc.Signalling
