import JustWebrtc.Signalling.System.Discovery

/-!
# Double initiation

Two peers offer to each other exactly when each is in the other's snapshot. The snapshot that
is taken later is the one to look at: it lists a peer whose own snapshot lists the listener.
-/

namespace JustWebrtc.Signalling

namespace Server

/-- A snapshot that has been taken for a listener of `r` lists `id`. -/
def Listed (s : Server) (r id : Id) : Prop :=
  (∃ c ∈ s.calls, ∃ q ∈ c.phase.subscribes, q.1 = r ∧ id ∈ q.2) ∨
    ∃ st ∈ s.streams, st.localId = r ∧ Change.add id ∈ st.firstChanges

instance (s : Server) (r id : Id) : Decidable (s.Listed r id) :=
  inferInstanceAs (Decidable ((∃ c ∈ s.calls, _) ∨ ∃ st ∈ s.streams, _))

/-- The peer whose listener takes its snapshot by this action. -/
def collecting (s : Server) (a : Action) : Option Id :=
  (a.call.bind fun k => s.calls[k]?).bind fun
    | ⟨.openPeerListener localPeer, .received⟩ => localPeer
    | _ => none

/-- A listener takes its snapshot only while no other peer in the map has it in its own. -/
def CollectsUnlisted (s : Server) (a : Action) : Prop :=
  ∀ id ∈ s.collecting a, ∀ r ∈ s.peers.keys, r ≠ id → ¬ s.Listed r id

instance (s : Server) (a : Action) : Decidable (s.CollectsUnlisted a) :=
  letI _unlisted (id : Id) : Decidable (∀ r ∈ s.peers.keys, r ≠ id → ¬ s.Listed r id) :=
    Finset.decidableDforallFinset
  Option.decidableForallMem (s.collecting a)

/-- A snapshot of a call is listed for the peer of its request. -/
theorem Snapshot.listed {s : Server} {k : Nat} {initial : List Id} {r id : Id} {phase : Phase}
    (h : s.Snapshot k initial) (hk : s.calls[k]? = some ⟨.openPeerListener (some r), phase⟩)
    (hc : ∀ c ∈ s.calls, c.Consistent) (hout : s.HandsOut) (hid : id ∈ initial) :
    s.Listed r id := by
  rcases h.sources hk hc hout with ⟨c, hmem, hsub⟩ | ⟨st, hmem, hst, hfirst⟩
  · exact Or.inl ⟨c, hmem, (r, initial), hsub, rfl, hid⟩
  · refine Or.inr ⟨st, hmem, hst, ?_⟩
    rw [hfirst]
    exact List.mem_map.mpr ⟨id, hid, rfl⟩

end Server

variable {ι A O C : Type*} [DecidableEq ι]

namespace System

/-- The server takes its snapshots unlisted. -/
def CollectsUnlisted (s : System ι A O C) : Action ι A O C → Prop
  | .server a => s.server.CollectsUnlisted a
  | _ => True

instance (s : System ι A O C) (a : Action ι A O C) : Decidable (s.CollectsUnlisted a) :=
  match a with
  | .server a => inferInstanceAs (Decidable (s.server.CollectsUnlisted a))
  | .start _ | .reply _ | .fail _ _ | .listen _ _ | .lose _ _ _ | .finish _ _ _ | .close _ =>
    inferInstanceAs (Decidable True)

/-- No two clients offer to each other's peers. -/
def NoGlare (tr : List (Event ι A O C)) : Prop :=
  ∀ (a b : ι) (id id' : Id), a ≠ b → Event.advertised a id ∈ tr → Event.advertised b id' ∈ tr →
    ¬ (id' ∈ createdOffers a tr ∧ id ∈ createdOffers b tr)

/-- No two snapshots list each other's peers. -/
def GlareInv (tr : List (Event ι A O C)) (s : System ι A O C) : Prop :=
  ∀ a b k k' id id' initial initial', a ≠ b →
    Event.requested a k (.openPeerListener (some id)) ∈ tr →
    Event.requested b k' (.openPeerListener (some id')) ∈ tr →
    s.server.Snapshot k initial → s.server.Snapshot k' initial' →
    ¬ (id' ∈ initial ∧ id ∈ initial')

variable {codecs : Codecs A O C} {tr evs : List (Event ι A O C)} {s t : System ι A O C}
  {a : Action ι A O C}

/-- A step that takes an unlisted snapshot keeps that. -/
theorem Moves.glareInv (hm : Moves codecs s a (t, evs)) (hcalls : CallsInv tr s)
    (hc : ∀ c ∈ s.server.calls, c.Consistent) (hout : s.server.HandsOut)
    (ha : s.CollectsUnlisted a) (h : GlareInv tr s) : GlareInv (tr ++ evs) t := by
  intro i j k k' id id' initial initial' hij hr hr' hs hs'
  obtain ⟨hr, hs⟩ := hm.snapshot hcalls hout hr hs
  obtain ⟨hr', hs'⟩ := hm.snapshot hcalls hout hr' hs'
  -- the later of the two snapshots is the one that this step takes
  have hlate : ∀ {j : ι} {k k' : Nat} {id id' : Id} {initial initial' : List Id} {order : List Id},
      Event.requested j k' (.openPeerListener (some id')) ∈ tr →
      a = .server (.advance k order) →
      s.server.calls[k]? = some ⟨.openPeerListener (some id), .received⟩ →
      s.server.Iterates id initial → s.server.Snapshot k' initial' →
      ¬ (id' ∈ initial ∧ id ∈ initial') := by
    rintro j k k' id id' initial initial' order hr' rfl hk hit hs' ⟨hin, hin'⟩
    obtain ⟨phase, hk'⟩ := hcalls.sent j k' _ hr'
    have hmem : id' ∈ s.server.peers.keys.erase id := by
      rw [← hit.2]
      exact List.mem_toFinset.mpr hin
    obtain ⟨hne, hkey⟩ := Finset.mem_erase.mp hmem
    have hcollect : id ∈ s.server.collecting (.advance k order) := by
      simp [Server.collecting, Server.Action.call, hk]
    exact ha id hcollect id' hkey hne (hs'.listed hk' hc hout hin')
  rcases hs with hs | ⟨order, ha, hk, hit⟩
  · rcases hs' with hs' | ⟨order, ha, hk, hit⟩
    · exact h i j k k' id id' initial initial' hij hr hr' hs hs'
    · intro hboth
      exact hlate hr ha hk hit hs hboth.symm
  · rcases hs' with hs' | ⟨order', ha', hk', _⟩
    · exact hlate hr' ha hk hit hs'
    · rw [ha, Action.server.injEq, Server.Action.advance.injEq] at ha'
      obtain ⟨rfl, _⟩ := ha'
      exact absurd (hcalls.owner i j k _ _ hr hr') hij

/-- In every run whose listeners take their snapshots unlisted, no two peers offer to each
other. -/
theorem no_glare (hr : (system ι codecs).Run CollectsUnlisted tr s) : NoGlare tr := by
  have hinv : GlareInv tr s := by
    refine hr.invariant ?_ ?_
    · intro i j k k' id id' initial initial' _ hr
      simp at hr
    · intro tr s a t evs hr h ha hs
      have hm : Moves codecs s a (t, evs) := step_moves hs
      exact hm.glareInv (clientInv hr).1 (Server.consistent (freeRun hr))
        (Server.handsOut (freeRun hr)) ha h
  have hoffered : ∀ {i : ι} {id x : Id}, Event.advertised i id ∈ tr → x ∈ createdOffers i tr →
      ∃ k initial, Event.requested i k (.openPeerListener (some id)) ∈ tr ∧
        s.server.Snapshot k initial ∧ x ∈ initial := by
    intro i id x hadv hx
    rcases discoveryInv hr i with h | ⟨p, initial, rest, h⟩
    · rw [h.offers] at hx
      simp at hx
    · have hid : p.localId = id := by
        have hgiven := ((clientInv hr).2 i).given id
        rw [Client.localId_of_peer? h.peer, Option.some.injEq] at hgiven
        exact hgiven.mp hadv
      obtain ⟨n, st, ho, hi, hhead⟩ := h.handed
      obtain ⟨k, hk, hsnap⟩ := ho.snapshot hi hhead
      exact ⟨k, initial, hid ▸ hk, hsnap, h.offers ▸ hx⟩
  rintro i j id id' hij hadv hadv' ⟨hx, hx'⟩
  obtain ⟨k, initial, hk, hs, hin⟩ := hoffered hadv hx
  obtain ⟨k', initial', hk', hs', hin'⟩ := hoffered hadv' hx'
  exact hinv i j k k' id id' initial initial' hij hk hk' hs hs' ⟨hin, hin'⟩

/-- The second client advertises after the first has its snapshot: only the second offers. -/
theorem no_glare_unlisted : ∃ tr s, (system Bool Codecs.unit).Run CollectsUnlisted tr s ∧
    createdOffers false tr = [0] ∧ NoGlare tr := by
  obtain ⟨tr, s, hr, hc⟩ := (system Bool Codecs.unit).exec_reaches CollectsUnlisted
    (List.flatten [[.start true], Action.handling 0 3 [], [.reply true], Action.handling 1 2 [],
      [.start false], Action.handling 2 3 [], [.reply false], Action.handling 3 2 [0],
      [.reply false], Action.handling 4 1 [], [.reply false], Action.handling 5 1 [],
      [.reply false, .server (.pollPeerStream 1), .listen false 0]])
    (fun c => decide (createdOffers false c.2 = [0])) (by decide +kernel)
  exact ⟨tr, s, hr, of_decide_eq_true hc, no_glare hr⟩

/-- Both clients advertise before either takes its snapshot: both offer. -/
theorem glare : ∃ tr s, (system Bool Codecs.unit).Run Honest tr s ∧ ¬ NoGlare tr := by
  obtain ⟨tr, s, hr, hc⟩ := (system Bool Codecs.unit).exec_reaches Honest
    (List.flatten [[.start true], Action.handling 0 3 [], [.reply true, .start false],
      Action.handling 2 3 [], [.reply false], Action.handling 1 2 [1], Action.handling 3 2 [0],
      [.reply true], Action.handling 4 1 [], [.reply true], Action.handling 5 1 [],
      [.reply true, .reply false], Action.handling 6 1 [], [.reply false],
      Action.handling 7 1 [],
      [.reply false, .server (.pollPeerStream 0), .listen true 0, .server (.pollPeerStream 1),
        .listen false 0]])
    (fun c => decide (Event.advertised true 0 ∈ c.2 ∧ Event.advertised false 1 ∈ c.2 ∧
      1 ∈ createdOffers true c.2 ∧ 0 ∈ createdOffers false c.2)) (by decide +kernel)
  obtain ⟨hadv, hadv', hx, hx'⟩ := of_decide_eq_true hc
  exact ⟨tr, s, hr, fun h => h true false 0 1 (by decide) hadv hadv' ⟨hx, hx'⟩⟩

end System

end JustWebrtc.Signalling
