import JustWebrtc.Signalling.Server.Serving
import JustWebrtc.Signalling.System.Discovery

/-!
# Convergence of discovery

On a server whose handlers run to completion a client's discovered peers, with every change
replayed that it has not read yet, are the shown peers. A message of one change keeps that
even where the change is not expected, since then it changes nothing, and so does the answer
of a resync, whenever it was given. So a client that has read everything is up to date.
-/

namespace JustWebrtc.Signalling

variable {ι A O C : Type*}

namespace Peer

/-- One change is applied, whether it is expected or not, and none is left for later. -/
theorem synchronise_single (p : Peer A O C) (changes : List PeerChange) (c : PeerChange) :
    (p.synchronise changes [c]).peer.discoveredPeers = c.apply p.discoveredPeers ∧
      ∀ changes' rest, (p.synchronise changes [c]).peer.progress = .resyncing changes' rest →
        rest = [] := by
  have happly : applyPeerChanges p.discoveredPeers [c] = (c.apply p.discoveredPeers, none) ∨
      applyPeerChanges p.discoveredPeers [c] = (c.apply p.discoveredPeers, some []) := by
    rcases applyPeerChanges_cases p.discoveredPeers [c] with h | ⟨before, c', rest, hc, h, hsame⟩
    · exact Or.inl h
    · obtain ⟨rfl, rfl, rfl⟩ : before = [] ∧ c = c' ∧ rest = [] := by
        cases before with
        | nil => simpa using hc
        | cons _ before => simp at hc
      rw [Change.replay_nil] at h hsame
      rw [hsame]
      exact Or.inr h
  rcases p.synchronise_cases changes [c] with ⟨discovered, h, hd⟩ | ⟨discovered, rest, h, hd⟩
  · obtain ⟨_, hprog, hdisc, _⟩ :=
      discover_spec { p with discoveredPeers := discovered, progress := .idle } changes
    rw [hd, Prod.mk.injEq, Prod.mk.injEq] at happly
    simp only [reduceCtorEq, and_true, and_false, or_false] at happly
    rw [h, hdisc, hprog]
    exact ⟨happly, by simp⟩
  · rw [hd, Prod.mk.injEq, Prod.mk.injEq] at happly
    simp only [reduceCtorEq, and_false, false_or, Option.some.injEq] at happly
    rw [h]
    refine ⟨happly.1, fun changes' rest' hr => ?_⟩
    rw [← (Progress.resyncing.inj hr).2]
    exact happly.2

/-- Without a change left, the branch just ends. -/
theorem synchronise_nil (p : Peer A O C) (changes : List PeerChange) :
    (p.synchronise changes []).peer.discoveredPeers = p.discoveredPeers ∧
      (p.synchronise changes []).peer.progress = .idle := by
  obtain ⟨_, hprog, hdisc, _⟩ := discover_spec { p with progress := .idle } changes
  exact ⟨hdisc, hprog⟩

/-- The branch calls no listener. -/
theorem synchronise_listener (p : Peer A O C) (changes rest : List PeerChange)
    (listener : Streaming) : Task.peerListener listener ∉ (p.synchronise changes rest).called := by
  rcases p.synchronise_cases changes rest with ⟨discovered, h, _⟩ | ⟨discovered, rest', h, _⟩
  · obtain ⟨_, _, _, _, _, _, hcalled⟩ :=
      discover_spec { p with discoveredPeers := discovered, progress := .idle } changes
    rw [h, hcalled]
    split
    · intro hm
      obtain ⟨c, _, hc⟩ := List.mem_filterMap.mp hm
      cases c <;> simp at hc
    · exact List.not_mem_nil
  · rw [h]
    exact List.not_mem_nil

end Peer

variable [DecidableEq ι]

namespace System

/-- Every handler of the server runs to completion. -/
def Alone (s : System ι A O C) : Action ι A O C → Prop
  | .server a => s.server.Alone a
  | _ => True

instance (s : System ι A O C) (a : Action ι A O C) : Decidable (s.Alone a) :=
  match a with
  | .server a => inferInstanceAs (Decidable (s.server.Alone a))
  | .start _ | .reply _ | .fail _ _ | .listen _ _ | .lose _ _ _ | .finish _ _ _ | .close _ =>
    inferInstanceAs (Decidable True)

/-- What a peer has discovered, and the answer of a resync that it awaits, are right with all
that the peer has still to read; all changes of the message before a resync are applied. -/
structure PeerConverges (tr : List Signalling.Event) (server : Server) (p : Peer A O C)
    (call : Option Nat) : Prop where
  applied : ∀ changes rest, p.progress = .resyncing changes rest → rest = []
  reads : ∀ listener, Task.peerListener listener ∈ p.unorderedFuts →
    server.Reads tr listener.source listener.taken p.discoveredPeers
  resync : ∀ listener, Task.peerListener listener ∈ p.unorderedFuts →
    ∀ changes rest k remotePeers, p.progress = .resyncing changes rest → call = some k →
      server.At k (.done (.ok (.peerDiscover remotePeers))) →
      server.Reads tr listener.source listener.taken remotePeers.toFinset

/-- The peer of a client is right. -/
def Converges (tr : List Signalling.Event) (server : Server) (c : Client A O C) : Prop :=
  ∀ p ∈ c.peer?, PeerConverges tr server p c.call

variable {codecs : Codecs A O C} {tr evs : List (Event ι A O C)} {s t : System ι A O C}
  {a : Action ι A O C} {j : ι}

omit [DecidableEq ι] in
/-- The stream of a peer's listener was opened for that peer. -/
theorem PeerInv.stream_localId {p : Peer A O C} (h : PeerInv tr s j p) (hcalls : CallsInv tr s)
    (hout : s.server.HandsOut) {listener : Streaming}
    (hl : Task.peerListener listener ∈ p.unorderedFuts) {st : PeerStream}
    (hi : s.server.streams[listener.source]? = some st) : st.localId = p.localId := by
  obtain ⟨st', _, hi', hid, _⟩ := (h.listens _ hl .peer listener rfl).hands_out hcalls hout
  rw [hi, Option.some.injEq] at hi'
  exact hi' ▸ hid

omit [DecidableEq ι] in
/-- A client that is in a resync has asked for it. -/
theorem ClientInv.resyncing {c : Client A O C} (hc : ClientInv tr s j c) {p : Peer A O C}
    (hp : c.peer? = some p) {changes rest : List PeerChange}
    (hprog : p.progress = .resyncing changes rest) {k : Nat} (hk : c.call = some k) :
    PeerInv tr s j p ∧ Event.requested j k (.peerDiscover (some p.localId)) ∈ tr := by
  obtain ⟨r, hr, haw⟩ := hc.awaits k hk
  have hholds := hc.holds
  cases c with
  | running p' call =>
    obtain rfl : p' = p := Option.some.inj hp
    rw [Client.Awaits, hprog] at haw
    rw [show r = .peerDiscover (some p'.localId) from haw] at hr
    exact ⟨hholds.1, hr⟩
  | closing p' call =>
    obtain rfl : p' = p := Option.some.inj hp
    rw [hholds.2] at hprog
    simp at hprog
  | _ => simp [Client.peer?, Client.call] at hp hk

omit [DecidableEq ι] in
/-- A step of the server keeps its clients right; one that answers a discovery answers with
the whole map, in which everything is shown while the handler is alone. -/
theorem Converges.server {c : Client A O C} (h : Converges (serverTrace tr) s.server c)
    {b : Server.Action} {t : Server} {evs : List Signalling.Event} (hm : s.server.Moves b t evs)
    (hb : Server.BroadcastInv (serverTrace tr) s.server) (ha : s.server.Alone b)
    (hat : s.server.AtomicInv) (hcalls : CallsInv tr s) (hout : s.server.HandsOut)
    (hc : ClientInv tr s j c) : Converges (serverTrace tr ++ evs) t c := by
  intro p hp
  have h := h p hp
  refine ⟨h.applied, fun listener hl => hm.reads hb ha hat (h.reads listener hl), ?_⟩
  intro listener hl changes rest k remotePeers hprog hcall hk
  rcases hm.enters (by simp) hk with ⟨_, hold⟩ | ⟨order, call, rfl, hk, id, rfl, hit, _⟩
  · exact hm.reads hb ha hat (h.resync listener hl changes rest k remotePeers hprog hcall hold)
  · obtain ⟨hinv, hr⟩ := hc.resyncing hp hprog hcall
    obtain ⟨phase, hk'⟩ := hcalls.sent j k _ hr
    rw [hk, Option.some.injEq, Call.mk.injEq] at hk'
    obtain rfl : id = p.localId := by simpa using hk'.1
    refine hm.reads hb ha hat ((h.reads listener hl).discover
      (fun st hi => hinv.stream_localId hcalls hout hl hi) hit fun x => ?_)
    rw [Server.Shown, Server.Announcing, Server.Removing,
      ha.busy hk Server.midway_of_announces, ha.busy hk Server.midway_of_removes]
    simp [Phase.announces, Phase.removes]

omit [DecidableEq ι] in
/-- What answers a resync has been returned by its call. -/
theorem Hears.returned {p : Peer A O C} {call : Option Nat} {rsp : Response}
    (h : Hears s j p call a (.response (.ok rsp))) :
    ∃ k, call = some k ∧ s.Returned k (.ok rsp) := by
  cases h with
  | response hk hret => exact ⟨_, hk, hret⟩

/-- What a message of a peer listener brings: the snapshot, to a peer that has discovered
nothing yet, or one change. -/
def Brings (tr : List (Event ι A O C)) (p : Peer A O C) (listener : Streaming)
    (message : PeerListenerRsp) : Prop :=
  (∃ initial : List Id, p.discoveredPeers = ∅ ∧ p.localId ∉ initial ∧
      message = ⟨initial.map Change.add⟩) ∨
    ∃ c, message = ⟨[c]⟩ ∧ c ∈ changesSince (serverTrace tr) listener.source

/-- An input has the discovered peers replay the next message of the peer listener, has them
replaced by the answer of a resync, or leaves them alone. -/
theorem Hears.discovers {p : Peer A O C} {call : Option Nat} {input : Input A O C}
    {out : Outcome A O C} (hh : Hears s j p call a input) (ha : p.Acts codecs input out)
    (hb : Server.BroadcastInv (serverTrace tr) s.server)
    (hlog : ∀ m ∈ changeLog (serverTrace tr), ∃ c, m = ⟨[c]⟩) (hcalls : CallsInv tr s)
    (hout : s.server.HandsOut) (hj : s.clients j = .running p call) (hc : PeerInv tr s j p)
    (hd : DiscoveryInv tr s j)
    (happlied : ∀ changes rest, p.progress = .resyncing changes rest → rest = []) :
    (∃ listener message st, Task.peerListener listener ∈ p.unorderedFuts ∧
        s.server.streams[listener.source]? = some st ∧
        st.items[listener.taken]? = some (.ok message) ∧ Brings tr p listener message ∧
        out.peer.discoveredPeers = Change.replay p.discoveredPeers message.peerChanges ∧
        (∀ listener', Task.peerListener listener' ∈ out.peer.unorderedFuts →
          listener' = listener.message) ∧
        ∀ changes rest, out.peer.progress = .resyncing changes rest → rest = []) ∨
      (∃ changes k remotePeers, p.progress = .resyncing changes [] ∧ call = some k ∧
        s.Returned k (.ok (.peerDiscover remotePeers)) ∧
        out.peer.discoveredPeers = remotePeers.toFinset ∧ out.peer.progress = .idle ∧
        ∀ listener, Task.peerListener listener ∈ out.peer.unorderedFuts →
          Task.peerListener listener ∈ p.unorderedFuts) ∨
      p.Undisturbed out := by
  have hpeer : (s.clients j).peer? = some p := by
    rw [hj]
    rfl
  rcases ha.discovery with ⟨i, listener, message, rfl, hi, hidle, rfl⟩ |
    ⟨changes, rest, remotePeers, rfl, hprog, rfl⟩ | hu
  · have hmem := List.mem_of_getElem? hi
    obtain ⟨st, initial, hst, _, hhead, hnodup, hnot⟩ :=
      (hc.listens _ hmem .peer listener rfl).hands_out hcalls hout
    have hwire := hh.peer_message hi
    have hitem := hwire
    rw [Server.peerWire, hst] at hitem
    obtain ⟨_, _, hfuts⟩ := Peer.synchronise_spec ({ p with
      unorderedFuts := p.unorderedFuts.eraseIdx i }.push [.peerListener listener.message])
      message.peerChanges message.peerChanges
    have honly : ∀ listener', Task.peerListener listener' ∈ (({ p with
        unorderedFuts := p.unorderedFuts.eraseIdx i }.push
          [.peerListener listener.message]).synchronise message.peerChanges
            message.peerChanges).peer.unorderedFuts → listener' = listener.message := by
      intro listener' hl'
      rw [hfuts, Peer.unorderedFuts_push, List.mem_append, List.mem_append, List.mem_singleton,
        or_assoc, or_iff_right (hc.only hi listener')] at hl'
      rcases hl' with hl' | hl'
      · exact Task.peerListener.inj hl'
      · exact absurd hl' (Peer.synchronise_listener _ _ _ _)
    refine Or.inl ⟨listener, message, st, hmem, hst, hitem, ?_⟩
    rcases hd with hd | ⟨p', initial', rest, hd⟩
    · -- the first message is the snapshot
      have hp := hd.peer p hpeer
      rw [hp.listener listener hmem] at hwire
      have hsnap := head_of_peerWire hst hwire
      rw [hhead, Option.some.injEq, Except.ok.injEq] at hsnap
      subst hsnap
      refine ⟨Or.inl ⟨initial, hp.discovered, hnot, rfl⟩, ?_, honly, ?_⟩
      · rw [Peer.synchronise_first (by exact hp.first) (by exact hp.discovered) hnodup,
          hp.discovered, Change.replay_adds, Finset.empty_union]
        rfl
      · rw [Peer.synchronise_first (by exact hp.first) (by exact hp.discovered) hnodup]
        simp
    · -- every later one is a single change
      have hsame := hd.peer
      rw [hpeer, Option.some.injEq] at hsame
      subst hsame
      rw [hd.taken listener hmem] at hitem
      obtain ⟨c, rfl, hsince⟩ := hb.single hlog hst hitem
      obtain ⟨hdisc, hrest⟩ := Peer.synchronise_single ({ p with
        unorderedFuts := p.unorderedFuts.eraseIdx i }.push [.peerListener listener.message]) [c] c
      exact ⟨Or.inr ⟨c, rfl, hsince⟩, hdisc, honly, hrest⟩
  · obtain ⟨k, rfl, hk⟩ := hh.returned
    obtain rfl := happlied changes rest hprog
    obtain ⟨_, _, hfuts⟩ := Peer.synchronise_spec { p with
      discoveredPeers := remotePeers.toFinset } changes []
    obtain ⟨hdisc, hidle⟩ := Peer.synchronise_nil { p with
      discoveredPeers := remotePeers.toFinset } changes
    refine Or.inr (Or.inl ⟨changes, k, remotePeers, hprog, rfl, hk, hdisc, hidle,
      fun listener hl => ?_⟩)
    rw [hfuts, List.mem_append] at hl
    exact hl.resolve_right (Peer.synchronise_listener _ _ _ _)
  · exact Or.inr (Or.inr hu)

/-- An input keeps a running peer right. -/
theorem PeerConverges.act {p : Peer A O C} {call : Option Nat} {input : Input A O C}
    {out : Outcome A O C} (h : PeerConverges (serverTrace tr) s.server p call)
    (ha : p.Acts codecs input out) (hh : Hears s j p call a input)
    (hb : Server.BroadcastInv (serverTrace tr) s.server)
    (hlog : ∀ m ∈ changeLog (serverTrace tr), ∃ c, m = ⟨[c]⟩) (hcalls : CallsInv tr s)
    (hout : s.server.HandsOut) (hj : s.clients j = .running p call) (hc : PeerInv tr s j p)
    (hd : DiscoveryInv tr s j) :
    PeerConverges (serverTrace tr) s.server out.peer
      (out.request.map fun _ => s.server.calls.length) := by
  have hnew : ∀ {k : Nat} {phase : Phase},
      (out.request.map fun _ => s.server.calls.length) = some k → ¬ s.server.At k phase := by
    rintro k phase hk ⟨request, hcall⟩
    obtain ⟨_, _, hlen⟩ := Option.map_eq_some_iff.mp hk
    exact absurd (List.getElem?_eq_some_iff.mp hcall).1 (by omega)
  rcases hh.discovers ha hb hlog hcalls hout hj hc hd h.applied with
    ⟨listener, message, st, hmem, hst, hitem, _, hdisc, honly, happlied⟩ |
    ⟨changes, k, remotePeers, hprog, rfl, hk, hdisc, hidle, hsub⟩ | hu
  · refine ⟨happlied, fun listener' hl => ?_,
      fun listener' hl changes rest k remotePeers _ hk hat => absurd hat (hnew hk)⟩
    rw [honly listener' hl, hdisc]
    exact (h.reads listener hmem).message hb hst hitem
  · refine ⟨by simp [hidle], fun listener' hl => ?_, by simp [hidle]⟩
    rw [hdisc]
    exact h.resync listener' (hsub listener' hl) changes [] k remotePeers hprog rfl hk
  · refine ⟨fun changes rest hr => absurd hr (hu.progress changes rest), fun listener' hl => ?_,
      fun listener' hl changes rest k remotePeers hr => absurd hr (hu.progress changes rest)⟩
    rw [hu.discovered]
    exact h.reads listener' (hu.listener listener' hl)

/-- A step of a client does not change what is right at the server. -/
theorem Moves.converges_kept (hm : Moves codecs s a (t, evs)) (ha : ∀ b, a ≠ .server b)
    (hb : Server.BroadcastInv (serverTrace tr) s.server) (hat : s.server.AtomicInv)
    {c : Client A O C} (h : Converges (serverTrace tr) s.server c) :
    Converges (serverTrace (tr ++ evs)) t.server c := by
  rcases hm.effect with ⟨b, _, _, hab, _⟩ | ⟨_, _, evs', _, heq, htr, _⟩ |
    ⟨i, _, r, evs', _, heq, htr, _⟩
  · exact absurd hab (ha b)
  · rw [put, Prod.mk.injEq] at heq
    obtain ⟨rfl, rfl⟩ := heq
    rw [serverTrace_append, htr, List.append_nil]
    exact h
  · rw [send, Prod.mk.injEq] at heq
    obtain ⟨rfl, rfl⟩ := heq
    have hnil : serverTrace (evs' ++ [Event.requested i s.server.calls.length r]) = [] := by
      rw [serverTrace_append, htr]
      rfl
    rw [serverTrace_append, hnil]
    have hreads {i n : Nat} {D : Finset Id} (hr : s.server.Reads (serverTrace tr) i n D) :
        (s.server.receive r).Reads (serverTrace tr ++ []) i n D :=
      (Server.Moves.receive r).reads hb (by simp [Server.Alone, Server.Action.call]) hat hr
    intro p hp
    have h := h p hp
    refine ⟨h.applied, fun listener hl => hreads (h.reads listener hl),
      fun listener hl changes rest k remotePeers hprog hcall hk => hreads ?_⟩
    exact h.resync listener hl changes rest k remotePeers hprog hcall
      ((Server.at_receive (by simp)).mp hk)

/-- Every step of a system whose handlers run to completion keeps its clients right. -/
theorem Moves.converges {out : System ι A O C × List (Event ι A O C)} (hm : Moves codecs s a out)
    (ha : s.Alone a)
    (hb : Server.BroadcastInv (serverTrace tr) s.server)
    (hlog : ∀ m ∈ changeLog (serverTrace tr), ∃ c, m = ⟨[c]⟩) (hat : s.server.AtomicInv)
    (hv : Server.ViewsInv (serverTrace tr) s.server) (hcalls : CallsInv tr s)
    (hclients : ∀ j, ClientInv tr s j (s.clients j)) (hout : s.server.HandsOut)
    (hd : DiscoveryInv tr s j) (h : Converges (serverTrace tr) s.server (s.clients j)) :
    Converges (serverTrace (tr ++ out.2)) out.1.server (out.1.clients j) := by
  have hkept {c : Client A O C} (hne : ∀ b, a ≠ .server b)
      (h : Converges (serverTrace tr) s.server c) :
      Converges (serverTrace (tr ++ out.2)) out.1.server c :=
    Moves.converges_kept (show Moves codecs s a (out.1, out.2) from hm) hne hb hat h
  have hsame {p : Peer A O C} {c c' : Client A O C} (hp : c.peer? = some p)
      (hp' : c'.peer? = some p) (hidle : p.progress = .idle)
      (h : Converges (serverTrace tr) s.server c) : Converges (serverTrace tr) s.server c' := by
    intro q hq
    rw [hp', Option.mem_def, Option.some.injEq] at hq
    subst hq
    exact ⟨by simp [hidle], (h p hp).reads, by simp [hidle]⟩
  have hclient := hclients j
  by_cases hown : a.client = some j
  · have hne : ∀ b, a ≠ .server b := by
      rintro b rfl
      simp [Action.client] at hown
    cases hm with
    | server _ => simp [Action.client] at hown
    | @act j' p call _ input out hj hh hacts =>
      obtain rfl : j' = j := by
        rw [hh.client] at hown
        exact Option.some.inj hown
      rw [hj] at h hclient
      rw [clients_apply]
      refine hkept hne ?_
      rintro q ⟨⟩
      exact (h p rfl).act hacts hh hb hlog hcalls hout hj hclient.holds.1 hd
    | @start j' hj | @advertised j' _ _ hj _ | @peerListener j' _ _ _ hj _
    | @offerListener j' _ _ _ _ hj _ =>
      obtain rfl : j' = j := Option.some.inj hown
      intro p hp
      simp [send, Client.peer?] at hp
    | @answerListener j' id i c k c' hj _ =>
      obtain rfl : j' = j := Option.some.inj hown
      rw [hj] at hclient
      refine hkept hne ?_
      simp only [put, Function.update_self]
      rintro p ⟨⟩
      obtain ⟨st, _, hst, _⟩ := hclient.holds.1.hands_out hcalls hout
      refine ⟨by simp [Peer.new], fun listener hl => ?_, by simp [Peer.new]⟩
      obtain rfl : listener = ⟨i, 0⟩ := by simpa [Peer.new] using hl
      exact Server.reads_new hv hst
    | @giveUp j' k status _ hst _ hab =>
      obtain rfl : j' = j := by
        rcases hab with rfl | ⟨rfl, _⟩ <;> exact Option.some.inj hown
      intro p hp
      simp [put, Client.peer?] at hp
    | @close j' p hj =>
      obtain rfl : j' = j := Option.some.inj hown
      rw [hj] at h hclient
      refine hkept hne ?_
      simp only [send, Function.update_self]
      exact hsame rfl rfl (hclient.holds.2 rfl) h
    | @closed j' p k _ response hj hab =>
      obtain rfl : j' = j := by
        rcases hab with rfl | rfl <;> exact Option.some.inj hown
      rw [hj] at h hclient
      refine hkept hne ?_
      simp only [put, Function.update_self]
      exact hsame rfl rfl hclient.holds.2 h
  · obtain ⟨hc, _⟩ := hm.others hown
    rw [hc]
    rcases hm.effect with ⟨b, t, evs, rfl, hstep, rfl⟩ | ⟨_, _, _, hne, _⟩ | ⟨_, _, _, _, hne, _⟩
    · rw [serverTrace_append, serverTrace_server]
      exact h.server (Server.step_moves hstep) hb ha hat hcalls hout hclient
    · exact hkept hne h
    · exact hkept hne h

/-- The clients of a system whose handlers run to completion are right after every run. -/
theorem converges (hr : (system ι codecs).Run Alone tr s) (j : ι) :
    Converges (serverTrace tr) s.server (s.clients j) := by
  refine hr.invariant (I := fun tr s => Converges (serverTrace tr) s.server (s.clients j)) ?_ ?_
  · intro p hp
    simp [system, Client.peer?] at hp
  · intro tr s a t evs hr h ha hs
    have hm : Moves codecs s a (t, evs) := step_moves hs
    have hserver : Signalling.server.Run Server.Alone (serverTrace tr) s.server :=
      serverRun Server.Alone (fun _ _ ha => ha) (by simp [Server.Alone, Server.Action.call]) hr
    obtain ⟨hat, hv⟩ := Server.viewsInv hserver
    obtain ⟨hcalls, hclients⟩ := clientInv hr
    exact hm.converges ha (Server.broadcastInv hserver) (Server.single_changes hserver) hat hv
      hcalls hclients (Server.handsOut hserver) (discoveryInv hr j) h

/-! ## The client's own identifier -/

/-- A stream that a client has opened after a step was opened before, or the step is the
subscription that has opened it. -/
theorem Moves.opened (hm : Moves codecs s a (t, evs)) {id : Id} {i : Nat}
    (h : Opened (tr ++ evs) t j id .peer i) :
    Opened tr s j id .peer i ∨ ∃ k, serverTrace evs = [.subscribed k s.server.streams.length] ∧
      i = s.server.streams.length := by
  obtain ⟨k, hr, hk⟩ := h
  have hnot {r : Request} : ¬ (s.server.receive r).At s.server.calls.length
      (.done (.ok (.openPeerListener i))) := by
    rintro ⟨request, hk⟩
    rw [Server.receive, List.getElem?_concat_length, Option.some.injEq, Call.mk.injEq] at hk
    simp at hk
  rcases hm.effect with ⟨b, t', evs', rfl, hb, heq⟩ | ⟨_, _, _, _, heq, _, hreq⟩ |
    ⟨_, _, r, _, _, heq, _, hreq⟩
  · rw [Prod.mk.injEq] at heq
    obtain ⟨rfl, rfl⟩ := heq
    have hold : Event.requested j k (Listener.peer.request id) ∈ tr := by simpa using hr
    have hmoves := Server.step_moves hb
    rcases hmoves.enters (by simp [Listener.response]) hk with
      ⟨_, hret⟩ | ⟨order, call, rfl, hcall, _, _, hphase, hi, _⟩
    · exact Or.inl ⟨k, hold, hret⟩
    · have hres := hmoves.resumes hcall
      rw [hphase] at hres
      exact Or.inr ⟨k, by rw [serverTrace_server]; exact hres.2, hi⟩
  · rw [put, Prod.mk.injEq] at heq
    obtain ⟨rfl, rfl⟩ := heq
    exact Or.inl ⟨k, (List.mem_append.mp hr).resolve_right (hreq j k _), hk⟩
  · rw [send, Prod.mk.injEq] at heq
    obtain ⟨rfl, rfl⟩ := heq
    refine Or.inl ⟨k, ?_, (Server.at_receive (by simp)).mp hk⟩
    refine (List.mem_append.mp hr).resolve_right fun hr => ?_
    rcases List.mem_append.mp hr with hr | hr
    · exact hreq j k _ hr
    · rw [List.mem_singleton, Event.requested.injEq] at hr
      rw [hr.2.1] at hk
      exact hnot hk

/-- What a client hears of its own identifier: nothing that was broadcast after its listener
was opened adds it, and it is not among the discovered peers. -/
structure OwnInv (tr : List (Event ι A O C)) (s : System ι A O C) (j : ι) : Prop where
  since : ∀ id i, Opened tr s j id .peer i → Change.add id ∉ changesSince (serverTrace tr) i
  discovered : ∀ p ∈ (s.clients j).peer?, p.localId ∉ p.discoveredPeers

/-- Every step keeps a client's own identifier out of what it hears. -/
theorem Moves.ownSince (hm : Moves codecs s a (t, evs)) (hcalls : CallsInv tr s)
    (hb : Server.BroadcastInv (serverTrace tr) s.server) {n : Nat}
    (hid : Server.IdentityInv n (serverTrace tr) s.server) (hout : s.server.HandsOut)
    (hc : ClientInv tr s j (s.clients j)) (h : OwnInv tr s j) {id : Id} {i : Nat}
    (ho : Opened (tr ++ evs) t j id .peer i) :
    Change.add id ∉ changesSince (serverTrace (tr ++ evs)) i := by
  rw [serverTrace_append]
  rcases hm.opened ho with hold | ⟨k, hsub, rfl⟩
  · obtain ⟨st, _, hi, _⟩ := hold.hands_out hcalls hout
    obtain ⟨_, _, _, _, w⟩ := (hb.streams i st hi).walk
    rw [changesSince, messagesSince_append w.subscribed, changesOf_append, List.mem_append, not_or]
    refine ⟨h.since id i hold, ?_⟩
    rcases hm.server_moves with ⟨_, hnil⟩ | ⟨b, hmoves, _⟩
    · rw [hnil]
      exact List.not_mem_nil
    · obtain ⟨k, hk, _⟩ := hold
      obtain ⟨id', hid', hmade⟩ := (hc.authored k _ hk).resolve_left (by simp [Listener.request])
      obtain ⟨k', _, hdone⟩ := hc.source id' hid'
      obtain rfl : id = id' := Option.some.inj hmade
      exact hmoves.not_announced hb hid hdone
  · rw [hsub, hb.changesSince_new k]
    exact List.not_mem_nil

/-- An input keeps a client's own identifier out of its discovered peers. -/
theorem OwnInv.act {p : Peer A O C} {call : Option Nat} {input : Input A O C}
    {out : Outcome A O C} (h : OwnInv tr s j) (ha : p.Acts codecs input out)
    (hh : Hears s j p call a input) (hb : Server.BroadcastInv (serverTrace tr) s.server)
    (hlog : ∀ m ∈ changeLog (serverTrace tr), ∃ c, m = ⟨[c]⟩) (hcalls : CallsInv tr s)
    (hout : s.server.HandsOut)
    (hexcl : ∀ (k : Nat) (id : Id) (remotePeers : List Id), s.server.calls[k]? =
      some ⟨.peerDiscover (some id), .done (.ok (.peerDiscover remotePeers))⟩ → id ∉ remotePeers)
    (hj : s.clients j = .running p call) (hc : ClientInv tr s j (.running p call))
    (hd : DiscoveryInv tr s j)
    (happlied : ∀ changes rest, p.progress = .resyncing changes rest → rest = []) :
    out.peer.localId ∉ out.peer.discoveredPeers := by
  have hown := h.discovered p (by rw [hj]; rfl)
  rw [ha.spec.1]
  rcases hh.discovers ha hb hlog hcalls hout hj hc.holds.1 hd happlied with
    ⟨listener, message, st, hmem, hst, hitem, hbrings, hdisc, _⟩ |
    ⟨changes, k, remotePeers, hprog, rfl, ⟨request, hk⟩, hdisc, _⟩ | hu
  · rw [hdisc]
    rcases hbrings with ⟨initial, hempty, hnot, rfl⟩ | ⟨c, rfl, hsince⟩
    · rw [hempty, Change.replay_adds, Finset.empty_union, List.mem_toFinset]
      exact hnot
    · have hne : Change.add p.localId ≠ c := by
        rintro rfl
        exact h.since _ _ (hc.holds.1.listens _ hmem .peer listener rfl) hsince
      cases c with
      | add x =>
        rw [Change.replay_cons, Change.replay_nil, Change.mem_apply_add, not_or]
        exact ⟨fun hx => hne (by rw [hx]), hown⟩
      | remove x =>
        rw [Change.replay_cons, Change.replay_nil, Change.mem_apply_remove, not_and]
        exact fun _ => hown
  · rw [hdisc, List.mem_toFinset]
    obtain ⟨_, hr⟩ := hc.resyncing rfl hprog rfl
    obtain ⟨phase, hk'⟩ := hcalls.sent j k _ hr
    rw [hk, Option.some.injEq, Call.mk.injEq] at hk'
    rw [hk'.1] at hk
    exact hexcl k p.localId remotePeers hk
  · rw [hu.discovered]
    exact hown

/-- Every step keeps what a client hears of its own identifier. -/
theorem Moves.ownInv {out : System ι A O C × List (Event ι A O C)} (hm : Moves codecs s a out)
    (hb : Server.BroadcastInv (serverTrace tr) s.server)
    (hlog : ∀ m ∈ changeLog (serverTrace tr), ∃ c, m = ⟨[c]⟩) {n : Nat}
    (hid : Server.IdentityInv n (serverTrace tr) s.server) (hcalls : CallsInv tr s)
    (hout : s.server.HandsOut)
    (hexcl : ∀ (k : Nat) (id : Id) (remotePeers : List Id), s.server.calls[k]? =
      some ⟨.peerDiscover (some id), .done (.ok (.peerDiscover remotePeers))⟩ → id ∉ remotePeers)
    (hclients : ∀ j, ClientInv tr s j (s.clients j)) (hd : DiscoveryInv tr s j)
    (hconv : Converges (serverTrace tr) s.server (s.clients j)) (h : OwnInv tr s j) :
    OwnInv (tr ++ out.2) out.1 j := by
  refine ⟨fun id i ho => Moves.ownSince (show Moves codecs s a (out.1, out.2) from hm) hcalls hb hid
    hout (hclients j) h ho, ?_⟩
  by_cases hown : a.client = some j
  · have hclient := hclients j
    cases hm with
    | server _ => simp [Action.client] at hown
    | @act j' p call _ input out hj hh hacts =>
      obtain rfl : j' = j := by
        rw [hh.client] at hown
        exact Option.some.inj hown
      rw [hj] at hclient hconv
      rw [clients_apply]
      rintro q ⟨⟩
      exact h.act hacts hh hb hlog hcalls hout hexcl hj hclient hd (hconv p rfl).applied
    | @start j' hj | @advertised j' _ _ hj _ | @peerListener j' _ _ _ hj _
    | @offerListener j' _ _ _ _ hj _ =>
      obtain rfl : j' = j := Option.some.inj hown
      simp [send, Client.peer?]
    | @answerListener j' id i c k c' hj _ =>
      obtain rfl : j' = j := Option.some.inj hown
      simp [put, Client.peer?, Peer.new]
    | @giveUp j' k status _ hst _ hab =>
      obtain rfl : j' = j := by
        rcases hab with rfl | ⟨rfl, _⟩ <;> exact Option.some.inj hown
      simp [put, Client.peer?]
    | @close j' p hj =>
      obtain rfl : j' = j := Option.some.inj hown
      simpa [send, Client.peer?, hj] using h.discovered
    | @closed j' p k _ response hj hab =>
      obtain rfl : j' = j := by
        rcases hab with rfl | rfl <;> exact Option.some.inj hown
      simpa [put, Client.peer?, hj] using h.discovered
  · rw [(hm.others hown).1]
    exact h.discovered

/-- While the counter does not wrap, no client discovers itself. -/
theorem ownInv (hr : (system ι codecs).Run Alone tr s)
    (hn : allocations (serverTrace tr) < 2 ^ 64) (j : ι) : OwnInv tr s j := by
  refine hr.invariant_while (P := fun tr => allocations (serverTrace tr) < 2 ^ 64)
    (I := fun tr s => OwnInv tr s j) serverTrace_allocations_lt ?_ ?_ hn
  · exact ⟨by simp [Opened], by simp [system, Client.peer?]⟩
  · intro tr s a t evs hr hlt _ h ha hs
    have hm : Moves codecs s a (t, evs) := step_moves hs
    have hserver := freeRun hr
    obtain ⟨hcalls, hclients⟩ := clientInv hr
    exact hm.ownInv (Server.broadcastInv hserver) (Server.single_changes hserver)
      (Server.identityInv hserver hlt) hcalls (Server.handsOut hserver)
      (Server.discover_excludes hserver) hclients (discoveryInv hr j) (converges hr j)
      h

/-- Convergence of discovery. Where handlers run to completion and no handler is mid-way, a
client whose peer listener has lost nothing, and that has taken everything there is to take
from it, has discovered the other peers of the map; its own identifier is not among them
while fewer than `2 ^ 64` identifiers have been drawn. -/
theorem discovery_convergence (hr : (system ι codecs).Run Alone tr s)
    (hsettled : s.server.Settled) {p : Peer A O C} {call : Option Nat}
    (hj : s.clients j = .running p call) {listener : Streaming}
    (hl : Task.peerListener listener ∈ p.unorderedFuts) {st : PeerStream}
    (hi : s.server.streams[listener.source]? = some st) (hint : st.Intact)
    (hdrained : s.server.Drained listener.source) (htaken : listener.taken = st.items.length) :
    p.discoveredPeers.erase p.localId = s.server.peers.keys.erase p.localId ∧
      (allocations (serverTrace tr) < 2 ^ 64 →
        p.discoveredPeers = s.server.peers.keys.erase p.localId) := by
  have hserver := freeRun hr
  obtain ⟨hcalls, hclients⟩ := clientInv hr
  have hpeer : (s.clients j).peer? = some p := by
    rw [hj]
    rfl
  have hinv : PeerInv tr s j p := by
    have hclient := hclients j
    rw [hj] at hclient
    exact hclient.holds.1
  have hid := hinv.stream_localId hcalls (Server.handsOut hserver) hl hi
  have hothers : p.discoveredPeers.erase p.localId = s.server.peers.keys.erase p.localId := by
    ext x
    rw [Finset.mem_erase, Finset.mem_erase, Finmap.mem_keys, ← hsettled.shown x]
    refine and_congr_right fun hx => ?_
    exact ((converges hr j p hpeer).reads listener hl).drained (Server.broadcastInv hserver) hi hint
      hdrained htaken (hid ▸ hx)
  refine ⟨hothers, fun hn => ?_⟩
  rw [← hothers, Finset.erase_eq_of_notMem ((ownInv hr hn j).discovered p hpeer)]

/-- A client that has started alone reads the arrival of a second one. -/
theorem discovery_convergence_two : ∃ tr s p, (system Bool Codecs.unit).Run Alone tr s ∧
    s.server.peers.keys = {0, 1} ∧ s.clients true = .running p none ∧
    p.discoveredPeers = s.server.peers.keys.erase p.localId := by
  obtain ⟨tr, s, hr, hc⟩ := (system Bool Codecs.unit).exec_reaches Alone
    (List.flatten [[.start true], Action.handling 0 3 [], [.reply true], Action.handling 1 2 [],
      [.reply true], Action.handling 2 1 [], [.reply true], Action.handling 3 1 [],
      [.reply true, .start false], Action.handling 4 3 [],
      [.server (.pollPeerStream 0), .listen true 0, .server (.pollPeerStream 0),
        .listen true 2]])
    (fun c => decide (∃ p, p ∈ (c.1.clients true).idlePeer? ∧
      ∃ st : PeerStream, st ∈ c.1.server.streams[0]? ∧ c.1.server.Settled ∧
        Task.peerListener ⟨0, 2⟩ ∈ p.unorderedFuts ∧ st.Intact ∧ c.1.server.Drained 0 ∧
        2 = st.items.length ∧ c.1.server.peers.keys = {0, 1} ∧
        allocations (serverTrace c.2) < 2 ^ 64)) (by decide +kernel)
  obtain ⟨p, hp, st, hi, hsettled, hl, hint, hdrained, htaken, hkeys, hn⟩ := of_decide_eq_true hc
  have hj := Client.eq_of_idlePeer? hp
  exact ⟨tr, s, p, hr, hkeys, hj,
    (discovery_convergence hr hsettled hj hl hi hint hdrained htaken).2 hn⟩

/-! ## A client whose identifier comes back -/

/-- What a server serves, the server of a system can serve. -/
theorem run_serves (hr : (system ι codecs).Run Alone tr s) {server : Server}
    (h : Relation.ReflTransGen Server.Serves s.server server) :
    ∃ tr', (system ι codecs).Run Alone tr' { s with server := server } := by
  induction h with
  | refl => exact ⟨tr, hr⟩
  | tail _ hstep ih =>
    obtain ⟨tr', hr'⟩ := ih
    obtain ⟨b, evs, hb, hstep⟩ := hstep
    refine ⟨tr' ++ evs.map Event.server, hr'.step (a := .server b) (by exact hb) ?_⟩
    change (Server.step _ b).map _ = some (_, evs.map Event.server)
    rw [hstep]
    rfl

/-- A client receives what its call has returned. -/
theorem run_reply (hr : (system ι codecs).Run Alone tr s) (j : ι) {k : Nat}
    (hk : (s.clients j).call = some k) (result : Except Status Response)
    (hret : s.Returned k result) {out : System ι A O C × List (Event ι A O C)}
    (h : s.answer codecs j result = some out) :
    (system ι codecs).Run Alone (tr ++ out.2) out.1 := by
  obtain ⟨request, hcall⟩ := hret
  refine hr.step (a := .reply j) (by exact trivial) ?_
  change System.step codecs s (.reply j) = _
  simp only [System.step, hk, hcall, h]

/-- A peer that is idle reads the message that its stream is about to yield. -/
theorem run_reads (hr : (system ι codecs).Run Alone tr s) {p : Peer A O C}
    (hj : s.clients j = .running p none) (hidle : p.progress = .idle) {n : Nat}
    {listener : Streaming} (hn : p.unorderedFuts[n]? = some (.peerListener listener))
    {server : Server} (hpoll : s.server.pollPeerStream listener.source = some server)
    {message : PeerListenerRsp} {p' : Peer A O C}
    (hwire : (server.peerWire listener.source)[listener.taken]? = some (.ok message))
    (hsync : (({ p with unorderedFuts := p.unorderedFuts.eraseIdx n }.push
      [.peerListener listener.message]).synchronise message.peerChanges message.peerChanges) =
        { peer := p', returned := some (.ok ()) }) :
    ∃ tr', (system ι codecs).Run Alone tr'
      { server := server, clients := Function.update s.clients j (.running p' none) } := by
  have hpolled : (system ι codecs).step s (.server (.pollPeerStream listener.source)) =
      some ({ s with server := server }, []) := by
    simp [system, System.step, Server.step, hpoll]
  have hread : (system ι codecs).step { s with server := server } (.listen j n) =
      some ({ server := server, clients := Function.update s.clients j (.running p' none) },
        [.consumed j (.peerListener listener.message message.peerChanges)]) := by
    simp only [hidle] at hsync
    simp [system, System.step, hj, Client.peer?, nextMessage, hn, hwire, input, Peer.act, hidle,
      peerListenerTask, Peer.poll, Peer.complete, Peer.step, hsync, System.apply, put, eventsOf,
      Except.map]
  have hr := hr.step (by simp [Alone, Server.Alone, Server.Action.call]) hpolled
  exact ⟨_, hr.step (by exact trivial) hread⟩

/-- A client that goes on with a request for a listener is served it. -/
theorem run_openListener (hr : (system ι codecs).Run Alone tr s) (hsettled : s.server.Settled)
    {j : ι} {k : Nat} (hk : (s.clients j).call = some k) {result : Except Status Response}
    (hret : s.Returned k result) {client : Nat → Client A O C} {slot : Slot} {id : Id}
    (hanswer : s.answer codecs j result =
      some (s.send j client (.openListener slot (some id)) [])) {listeners : Listeners}
    (hlookup : s.server.peers.lookup id = some listeners) (htx : listeners.tx slot = none) :
    ∃ tr' t c, (system ι codecs).Run Alone tr' t ∧ t.server.Settled ∧
      t.server.broadcast = s.server.broadcast ∧ t.server.streams = s.server.streams ∧
      t.server.peers.lookup id = some (listeners.setTx slot c) ∧
      ∃ k', t.clients j = client k' ∧ t.Returned k' (.ok (.openListener slot c)) := by
  obtain ⟨channel, hserves⟩ := hsettled.serves_openListener slot hlookup htx
  obtain ⟨tr', hr'⟩ := run_serves (run_reply hr j hk _ hret hanswer) hserves
  exact ⟨tr', _, _, hr', Server.Settled.withCall hsettled, rfl, rfl, Finmap.lookup_insert _, _,
    Function.update_self .., _, List.getElem?_concat_length⟩

/-- A client whose peer listener has been opened completes its start, while nothing is broadcast
or yielded. -/
theorem run_opens (hr : (system ι codecs).Run Alone tr s) (hsettled : s.server.Settled) {j : ι}
    {id : Id} {i k : Nat} (hj : s.clients j = .openingPeerListener id k)
    (hret : s.Returned k (.ok (.openPeerListener i)))
    (hlookup : s.server.peers.lookup id = some {}) :
    ∃ tr' t c c', (system ι codecs).Run Alone tr' t ∧ t.server.Settled ∧
      t.server.broadcast = s.server.broadcast ∧ t.server.streams = s.server.streams ∧
      t.clients j = .running (Peer.new id i c c') none := by
  have hoffer : s.answer codecs j (.ok (.openPeerListener i)) =
      some (s.send j (.openingOfferListener id i) (.openListener .offer (some id)) []) := by
    simp only [System.answer, hj]
  obtain ⟨tr₁, t, c, hr₁, hsettled₁, hbroadcast₁, hstreams₁, hlookup₁, k₁, hj₁, hret₁⟩ :=
    run_openListener hr hsettled (by rw [hj]; rfl) hret hoffer hlookup rfl
  have hanswer : t.answer codecs j (.ok (.openListener .offer c)) =
      some (t.send j (.openingAnswerListener id i c) (.openListener .answer (some id)) []) := by
    simp only [System.answer, hj₁]
  obtain ⟨tr₂, u, c', hr₂, hsettled₂, hbroadcast₂, hstreams₂, _, k₂, hj₂, hret₂⟩ :=
    run_openListener hr₁ hsettled₁ (by rw [hj₁]; rfl) hret₁ hanswer hlookup₁ rfl
  have hlast : u.answer codecs j (.ok (.openListener .answer c')) =
      some (u.put j (.running (Peer.new id i c c') none) []) := by
    simp only [System.answer, hj₂]
  exact ⟨_, _, c, c', run_reply hr₂ j (by rw [hj₂]; rfl) _ hret₂ hlast, hsettled₂,
    hbroadcast₂.trans hbroadcast₁, hstreams₂.trans hstreams₁, Function.update_self ..⟩

/-- After two to the power of 64 rounds the identifier of a client that has drawn it is drawn
again, once the client has subscribed. -/
theorem run_rejoins : ∃ tr s k log, (system Bool Codecs.unit).Run Alone tr s ∧ s.server.Settled ∧
    s.clients true = .openingPeerListener 0 k ∧ s.Returned k (.ok (.openPeerListener 0)) ∧
    s.server.peers.lookup 0 = some {} ∧ s.server.streams = [⟨0, some ⟨[]⟩, 1, [], true⟩] ∧
    s.server.broadcast.Records 0 (log ++ [⟨[.add 0]⟩]) ∧
    s.server.broadcast.receivers[1]? = some (some log.length) := by
  -- the client draws its identifier, which is torn down before the client goes on
  have hstart : (system Bool Codecs.unit).Run Alone _ _ :=
    Machine.Run.init.step (a := .start true) (by exact trivial) rfl
  obtain ⟨⟨_, _, b, channels, _, calls⟩, log, hserves, hsettled, rfl, rfl, rfl, hcall, hlog,
    hreceivers⟩ := Server.wraps
  obtain ⟨tr₁, hr₁⟩ := run_serves hstart hserves
  -- it goes on with a snapshot without peers, and its identifier is drawn again
  have hr₂ := run_reply hr₁ true rfl (.ok (.advertise (some 0))) ⟨.advertise, hcall⟩ rfl
  obtain ⟨tr₃, hr₃⟩ := run_serves hr₂
    (hsettled.serves_openPeerListener 0 [] ⟨List.nodup_nil, rfl⟩)
  obtain ⟨hrec, hnew⟩ := hlog.newReceiver
  obtain ⟨r, hadd, hrec, hadded, _⟩ := hrec.tryBroadcast ⟨[.add 0]⟩
  have hsettled₃ : (Server.withCall
      (Server.openPeerListenerSubscribe ⟨0, ∅, b, channels, [], calls⟩ calls.length 0 []).1
        (.openPeerListener (some 0)) (.done (.ok (.openPeerListener 0)))).Settled :=
    Server.Settled.withCall hsettled
  obtain ⟨tr₄, hr₄⟩ := run_serves hr₃ ((Relation.ReflTransGen.single (Server.serves_receive _
    .advertise)).trans (hsettled₃.serves_advertise Finmap.notMem_empty hadd))
  refine ⟨tr₄, _, calls.length, log, hr₄, Server.Settled.withCall hsettled₃, rfl,
    ⟨.openPeerListener (some 0), ?_⟩, Finmap.lookup_insert _, ?_, hrec, ?_⟩
  · simp [Server.withCall, Server.openPeerListenerSubscribe]
  · have hone : b.receivers.length = 1 := by rw [hreceivers]; rfl
    change [(⟨0, some ⟨[]⟩, b.receivers.length, [], true⟩ : PeerStream)] = _
    rw [hone]
  · change r.receivers[1]? = _
    rw [hadded, hnew, hreceivers]
    rfl

/-- The peer `0` after it has read `n` messages, with the peers that it has discovered. -/
def returnedPeer (c c' n : Nat) (discovered : Finset Id) : Peer Unit Unit Unit where
  localId := 0
  discoveredPeers := discovered
  firstDiscovery := false
  unorderedFuts := [.offerListener ⟨c, 0⟩, .answerListener ⟨c', 0⟩, .peerListener ⟨0, n⟩]
  progress := .idle

/-- The peer reads the empty snapshot and then the addition of its own identifier. -/
theorem run_reads_back {tr : List (Event Bool Unit Unit Unit)} {s : System Bool Unit Unit Unit}
    (hr : (system Bool Codecs.unit).Run Alone tr s) {c c' : Nat}
    (hj : s.clients true = .running (Peer.new 0 0 c c') none)
    (hstreams : s.server.streams = [⟨0, some ⟨[]⟩, 1, [], true⟩]) {r : Ring PeerListenerRsp}
    (hrecv : s.server.broadcast.tryRecv 1 = some (.message ⟨[.add 0]⟩, r)) :
    ∃ tr' t, (system Bool Codecs.unit).Run Alone tr' t ∧
      t.server = { s.server with
        broadcast := r
        streams := [⟨0, none, 1, [.ok ⟨[]⟩, .ok ⟨[.add 0]⟩], true⟩] } ∧
      t.clients true = .running (returnedPeer c c' 2 {0}) none := by
  have hyield : s.server.pollPeerStream 0 =
      some { s.server with streams := [⟨0, none, 1, [.ok ⟨[]⟩], true⟩] } := by
    simp [Server.pollPeerStream, hstreams]
  have hpoll : Server.pollPeerStream
      { s.server with streams := [⟨0, none, 1, [.ok ⟨[]⟩], true⟩] } 0 =
        some { s.server with
          broadcast := r
          streams := [⟨0, none, 1, [.ok ⟨[]⟩, .ok ⟨[.add 0]⟩], true⟩] } := by
    simp [Server.pollPeerStream, hrecv, Server.streamItem]
  have hnew : (Peer.new 0 0 c c' : Peer Unit Unit Unit).unorderedFuts[0]? =
      some (.peerListener ⟨0, 0⟩) := rfl
  have hfirst : ({ returnedPeer c c' 1 ∅ with firstDiscovery := true } :
      Peer Unit Unit Unit).synchronise [] [] =
        { peer := returnedPeer c c' 1 ∅, returned := some (.ok ()) } := rfl
  have hlast : (returnedPeer c c' 1 ∅).unorderedFuts[2]? = some (.peerListener ⟨0, 1⟩) := rfl
  have hsecond : (returnedPeer c c' 2 ∅).synchronise [.add 0] [.add 0] =
      { peer := returnedPeer c c' 2 {0}, returned := some (.ok ()) } := rfl
  have hempty : (Server.peerWire
      { s.server with streams := [⟨0, none, 1, [.ok ⟨[]⟩], true⟩] } 0)[0]? = some (.ok ⟨[]⟩) := rfl
  have hadded : (Server.peerWire
      { s.server with
        broadcast := r
        streams := [⟨0, none, 1, [.ok ⟨[]⟩, .ok ⟨[.add 0]⟩], true⟩] } 0)[1]? =
          some (.ok ⟨[.add 0]⟩) := rfl
  obtain ⟨tr₁, hr₁⟩ := run_reads hr hj rfl hnew hyield hempty hfirst
  obtain ⟨tr₂, hr₂⟩ := run_reads hr₁ (j := true) rfl rfl hlast hpoll hadded hsecond
  exact ⟨tr₂, _, hr₂, rfl, rfl⟩

/-- After two to the power of 64 rounds the identifier of a client is drawn again, and the client
discovers itself. -/
theorem discovers_itself : ∃ tr s p listener st, (system Bool Codecs.unit).Run Alone tr s ∧
    s.server.Settled ∧ s.clients true = .running p none ∧
    Task.peerListener listener ∈ p.unorderedFuts ∧
    s.server.streams[listener.source]? = some st ∧ st.Intact ∧ s.server.Drained listener.source ∧
    listener.taken = st.items.length ∧
    p.discoveredPeers ≠ s.server.peers.keys.erase p.localId := by
  obtain ⟨tr, s, k, log, hr, hsettled, hj, hret, hlookup, hstreams, hrec, hpos⟩ := run_rejoins
  obtain ⟨tr₁, t, c, c', hr₁, hsettled₁, hbroadcast, hstreams₁, hj₁⟩ :=
    run_opens hr hsettled hj hret hlookup
  rw [← hbroadcast] at hrec hpos
  rw [hstreams] at hstreams₁
  obtain ⟨r, hrecv, hempty⟩ := hrec.tryRecv_last (by decide) hpos
  obtain ⟨tr₂, u, hr₂, hu, hj₂⟩ := run_reads_back hr₁ hj₁ hstreams₁ hrecv
  refine ⟨tr₂, u, _, ⟨0, 2⟩, ⟨0, none, 1, [.ok ⟨[]⟩, .ok ⟨[.add 0]⟩], true⟩, hr₂, ?_, hj₂, ?_, ?_,
    ⟨rfl, rfl⟩, ?_, rfl, fun h => ?_⟩
  · rw [hu]
    exact hsettled₁
  · simp [returnedPeer]
  · rw [hu]
    rfl
  · simp [hu, Server.Drained, Server.pollPeerStream, hempty, Server.streamItem]
  · have hin : (0 : Id) ∈ (returnedPeer c c' 2 {0}).discoveredPeers := Finset.mem_singleton_self 0
    rw [h] at hin
    exact Finset.notMem_erase 0 _ hin

end System

end JustWebrtc.Signalling
