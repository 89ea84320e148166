import JustWebrtc.Signalling.Client.Queue
import JustWebrtc.Signalling.Client.Slots

/-!
# What a peer reads from a signal stream

The listener of a slot is handed the messages of its stream one by one. It goes on behind an
empty message and behind a signal that deserializes, whose callback is called. A signal that
does not deserialize ends the listener, so no message behind it is ever read.
-/

namespace JustWebrtc.Signalling

variable {A O C : Type*}

/-- Codecs for descriptions and candidates that carry nothing and are no bytes. -/
def Codecs.empty : Codecs Unit Unit Unit where
  answer := ⟨fun _ => some [], fun bytes => if bytes = [] then some () else none⟩
  offer := ⟨fun _ => some [], fun bytes => if bytes = [] then some () else none⟩
  candidates := ⟨fun _ => some [], fun bytes => if bytes = [] then some () else none⟩

namespace Peer

variable {codecs : Codecs A O C} {localId : Id} {i c c' : Nat} {slot : Slot}
  {ms : List SignalListenerRsp} {tr : List (Peer.Event A O C)} {p q : Peer A O C}

/-- The callbacks that were called for signals of a slot, in order. -/
def received (slot : Slot) (tr : List (Peer.Event A O C)) : List (Task A O C) :=
  (started tr).filter fun task => task.slot = some slot

/-- The listener of a slot is handed the messages `ms` of its stream, in order. -/
def Hands (slot : Slot) (ms : List SignalListenerRsp) (p : Peer A O C) : Input A O C → Prop
  | .signalMessage i message => ∀ task ∈ p.unorderedFuts[i]?, ∀ l ∈ task.slotListener slot,
    (ms[l.taken]?).map (fun m => Except.ok (some m)) = some message
  | _ => True

instance (slot : Slot) (ms : List SignalListenerRsp) (p : Peer A O C) (input : Input A O C) :
    Decidable (Hands slot ms p input) :=
  match input with
  | .signalMessage i message => inferInstanceAs (Decidable (∀ task ∈ p.unorderedFuts[i]?,
      ∀ l ∈ task.slotListener slot,
        (ms[l.taken]?).map (fun m => Except.ok (some m)) = some message))
  | .peerMessage _ _ | .callback _ _ | .response _ => inferInstanceAs (Decidable True)

/-- No queued listener of the slot has a message left to read. -/
def Exhausted (slot : Slot) (ms : List SignalListenerRsp) (p : Peer A O C) : Prop :=
  ∀ l ∈ p.listening slot, ms.length ≤ l.taken

instance (slot : Slot) (ms : List SignalListenerRsp) (p : Peer A O C) :
    Decidable (p.Exhausted slot ms) :=
  inferInstanceAs (Decidable (∀ l ∈ p.listening slot, ms.length ≤ l.taken))

/-- What the listener of a slot has done with the first `n` messages of its stream: it has read
them all and goes on, or the last of them was malformed and it is gone. -/
def ReadSoFar (codecs : Codecs A O C) (slot : Slot) (ms : List SignalListenerRsp)
    (tr : List (Peer.Event A O C)) (p : Peer A O C) : Prop :=
  ∃ n ≤ ms.length, received slot tr = (ms.take n).filterMap (codecs.decoded slot) ∧
    ((∃ l, p.listening slot = [l] ∧ l.taken = n ∧
        ∀ m ∈ ms.take n, codecs.malformed slot m = false) ∨
      (p.listening slot = [] ∧ ∃ before m, ms.take n = before ++ [m] ∧
        codecs.malformed slot m = true ∧ ∀ m ∈ before, codecs.malformed slot m = false))

/-- A step calls the callbacks of its outcome. -/
theorem step_called (slot : Slot) {input : Input A O C} {evs : List (Peer.Event A O C)}
    (h : (peer codecs localId i c c').step p input = some (q, evs)) :
    ∃ out, p.Acts codecs input out ∧ out.peer = q ∧
      received slot evs = out.called.filter fun task => task.slot = some slot := by
  simp only [peer, Option.map_eq_some_iff, Prod.mk.injEq] at h
  obtain ⟨out, hact, hq, rfl⟩ := h
  refine ⟨out, act_acts hact, hq, ?_⟩
  rw [received, started_append, started_inputEvents, started_events, List.nil_append]

/-- A listener that is handed a message is handed the next one of its stream. -/
theorem Hands.next {j : Nat} {l : Streaming}
    {message : Except Status (Option SignalListenerRsp)}
    (hh : Hands slot ms p (.signalMessage j message : Input A O C))
    (hj : p.unorderedFuts[j]? = some (.signalListener slot l)) :
    ∃ m, ms[l.taken]? = some m ∧ message = .ok (some m) := by
  have hnext := hh _ hj l (by simp)
  rw [Option.map_eq_some_iff] at hnext
  obtain ⟨m, hget, rfl⟩ := hnext
  exact ⟨m, hget, rfl⟩

section

variable {evs : List (Peer.Event A O C)} {l : Streaming} {rest : List Streaming}
  {m : SignalListenerRsp}

theorem received_append (slot : Slot) (tr evs : List (Peer.Event A O C)) :
    received slot (tr ++ evs) = received slot tr ++ received slot evs := by
  rw [received, started_append, List.filter_append]
  rfl

/-- A listener that is queued is the only one, and all messages before its next one are read. -/
theorem ReadSoFar.only (h : ReadSoFar codecs slot ms tr p)
    (hperm : (p.listening slot).Perm (l :: rest)) (hget : ms[l.taken]? = some m) :
    rest = [] ∧ ms.take (l.taken + 1) = ms.take l.taken ++ [m] ∧ l.taken + 1 ≤ ms.length ∧
      received slot tr = (ms.take l.taken).filterMap (codecs.decoded slot) ∧
      ∀ m ∈ ms.take l.taken, codecs.malformed slot m = false := by
  obtain ⟨n, hn, hrec, ⟨l', hl, rfl, hgood⟩ | ⟨hnil, _⟩⟩ := h
  · rw [hl, List.singleton_perm, List.cons.injEq] at hperm
    obtain ⟨rfl, rfl⟩ := hperm
    refine ⟨rfl, ?_, (List.getElem?_eq_some_iff.mp hget).1, hrec, hgood⟩
    rw [List.take_add_one, hget]
    rfl
  · rw [hnil, List.nil_perm] at hperm
    simp at hperm

/-- Steps that leave the listeners of the slot alone keep the account. -/
theorem ReadSoFar.apart (h : ReadSoFar codecs slot ms tr p)
    (hperm : (q.listening slot).Perm (p.listening slot)) (hevs : received slot evs = []) :
    ReadSoFar codecs slot ms (tr ++ evs) q := by
  obtain ⟨n, hn, hrec, hcases⟩ := h
  refine ⟨n, hn, by rw [received_append, hevs, List.append_nil, hrec], ?_⟩
  rcases hcases with ⟨l, hl, hcase⟩ | ⟨hnil, hcase⟩
  · rw [hl, List.perm_singleton] at hperm
    exact Or.inl ⟨l, hperm, hcase⟩
  · rw [hnil, List.perm_nil] at hperm
    exact Or.inr ⟨hperm, hcase⟩

/-- The listener reads the next message and goes on. -/
theorem ReadSoFar.read (h : ReadSoFar codecs slot ms tr p)
    (hperm : (p.listening slot).Perm (l :: rest)) (hget : ms[l.taken]? = some m)
    (hgood : codecs.malformed slot m = false)
    (hafter : (q.listening slot).Perm (l.message :: rest))
    (hevs : received slot evs = (codecs.decoded slot m).toList) :
    ReadSoFar codecs slot ms (tr ++ evs) q := by
  obtain ⟨rfl, htake, hle, hrec, hbefore⟩ := h.only hperm hget
  refine ⟨l.taken + 1, hle, ?_, Or.inl ⟨l.message, List.perm_singleton.mp hafter, rfl, ?_⟩⟩
  · rw [received_append, hrec, hevs, htake, List.filterMap_append, List.filterMap_cons]
    cases codecs.decoded slot m <;> rfl
  · intro m' hm'
    rw [htake, List.mem_append, List.mem_singleton] at hm'
    rcases hm' with hm' | rfl
    · exact hbefore m' hm'
    · exact hgood

/-- The listener reads a malformed message and is gone. -/
theorem ReadSoFar.lost (h : ReadSoFar codecs slot ms tr p)
    (hperm : (p.listening slot).Perm (l :: rest)) (hget : ms[l.taken]? = some m)
    (hmal : codecs.malformed slot m = true) (hafter : (q.listening slot).Perm rest)
    (hevs : received slot evs = []) : ReadSoFar codecs slot ms (tr ++ evs) q := by
  obtain ⟨rfl, htake, hle, hrec, hbefore⟩ := h.only hperm hget
  refine ⟨l.taken + 1, hle, ?_, Or.inr ⟨List.perm_nil.mp hafter, _, m, htake, hmal, hbefore⟩⟩
  rw [received_append, hrec, hevs, htake, List.filterMap_append, List.filterMap_cons,
    Codecs.decoded_of_malformed hmal]
  rfl

/-- Every step keeps the account of the messages read so far. -/
theorem ReadSoFar.step {input : Input A O C} (h : ReadSoFar codecs slot ms tr p)
    (hs : (peer codecs localId i c c').step p input = some (q, evs))
    (hh : Hands slot ms p input) : ReadSoFar codecs slot ms (tr ++ evs) q := by
  obtain ⟨out, hacts, rfl, hcalled⟩ := step_called slot hs
  cases hacts.reads slot with
  | apart hperm hnil => exact h.apart hperm (hcalled.trans hnil)
  | read hj hgood hafter hread =>
    obtain ⟨m, hget, hm⟩ := hh.next hj
    obtain rfl := Option.some.inj (Except.ok.inj hm)
    exact h.read (by simpa using listening_perm slot hj) hget hgood hafter (hcalled.trans hread)
  | lost hj hmal hafter hnil =>
    obtain ⟨m, hget, hm⟩ := hh.next hj
    exact h.lost (by simpa using listening_perm slot hj) hget (hmal m hm) hafter
      (hcalled.trans hnil)

end

/-- After every run the listener of a slot has read its stream up to some message. -/
theorem readSoFar (hr : (peer codecs localId i c c').Run (Hands slot ms) tr p) :
    ReadSoFar codecs slot ms tr p := by
  refine hr.invariant (I := ReadSoFar codecs slot ms) ⟨0, Nat.zero_le _, rfl, Or.inl ?_⟩
    fun _ h hh hs => h.step hs hh
  cases slot with
  | offer => exact ⟨⟨c, 0⟩, rfl, rfl, by simp⟩
  | answer => exact ⟨⟨c', 0⟩, rfl, rfl, by simp⟩

/-- Once the stream of a slot is exhausted, the callback has been called for exactly the signals
that deserialize, in their order, if and only if no malformed signal stands before one of
them. -/
theorem malformed_isolated (hr : (peer codecs localId i c c').Run (Hands slot ms) tr p)
    (hex : p.Exhausted slot ms) :
    received slot tr = ms.filterMap (codecs.decoded slot) ↔
      ∀ before m after, ms = before ++ m :: after → codecs.malformed slot m = true →
        after.filterMap (codecs.decoded slot) = [] := by
  obtain ⟨n, hn, hrec, ⟨l, hl, rfl, hgood⟩ | ⟨_, before, m, htake, hmal, hgood⟩⟩ := readSoFar hr
  · have hle : ms.length ≤ l.taken := hex l (by rw [hl]; exact List.mem_singleton_self l)
    rw [List.take_of_length_le hle] at hrec hgood
    refine iff_of_true hrec fun before m after hms hmal => ?_
    rw [hgood m (by rw [hms]; simp)] at hmal
    simp at hmal
  · have hms : ms = before ++ m :: ms.drop n := by
      rw [← List.singleton_append, ← List.append_assoc, ← htake, List.take_append_drop]
    have hall : ms.filterMap (codecs.decoded slot) =
        received slot tr ++ (ms.drop n).filterMap (codecs.decoded slot) := by
      rw [hrec, ← List.filterMap_append, List.take_append_drop]
    rw [hall, List.self_eq_append_right]
    refine ⟨fun hnil before' m' after hsplit hmal' => ?_, fun h => h before m _ hms hmal⟩
    -- a malformed message is the first one or stands behind it
    rw [hms, List.append_eq_append_iff] at hsplit
    rcases hsplit with ⟨mid, rfl, htail⟩ | ⟨mid, rfl, htail⟩
    · cases mid with
      | nil =>
        rw [List.nil_append, List.cons.injEq] at htail
        rw [← htail.2]
        exact hnil
      | cons x mid =>
        rw [List.cons_append, List.cons.injEq] at htail
        rw [htail.2, List.filterMap_append, List.append_eq_nil_iff] at hnil
        have hcons := hnil.2
        rw [List.filterMap_cons, Codecs.decoded_of_malformed hmal'] at hcons
        exact hcons
    · cases mid with
      | nil =>
        rw [List.nil_append, List.cons.injEq] at htail
        rw [htail.2]
        exact hnil
      | cons x mid =>
        rw [List.cons_append, List.cons.injEq] at htail
        have hfalse := hgood m' (by rw [htail.1]; simp)
        rw [hmal'] at hfalse
        simp at hfalse

/-- An offer that has been read before a malformed one is handed over, and the malformed one
stands before no other. -/
theorem malformed_isolated_last : ∃ tr, ∃ p : Peer Unit Unit Unit,
    (peer Codecs.empty 1 0 0 1).Run
      (Hands .offer [⟨none⟩, ⟨some ⟨7, [], []⟩⟩, ⟨some ⟨8, [0], []⟩⟩]) tr p ∧
      received .offer tr = [.receiveOffer 7 ((), ())] ∧
      ∀ before m after, [⟨none⟩, ⟨some ⟨7, [], []⟩⟩, ⟨some ⟨8, [0], []⟩⟩] = before ++ m :: after →
        Codecs.empty.malformed .offer m = true →
        after.filterMap (Codecs.empty.decoded .offer) = [] := by
  obtain ⟨tr, p, hr, hc⟩ := (peer Codecs.empty 1 0 0 1).exec_reaches
    (Hands .offer [⟨none⟩, ⟨some ⟨7, [], []⟩⟩, ⟨some ⟨8, [0], []⟩⟩])
    [.signalMessage 1 (.ok (some ⟨none⟩)), .signalMessage 1 (.ok (some ⟨some ⟨7, [], []⟩⟩)),
      .signalMessage 2 (.ok (some ⟨some ⟨8, [0], []⟩⟩))]
    (fun c => decide (received .offer c.2 = [.receiveOffer 7 ((), ())] ∧
      c.1.Exhausted .offer [⟨none⟩, ⟨some ⟨7, [], []⟩⟩, ⟨some ⟨8, [0], []⟩⟩]))
    (by decide +kernel)
  obtain ⟨hrec, hex⟩ := of_decide_eq_true hc
  exact ⟨tr, p, hr, hrec, (malformed_isolated hr hex).mp hrec⟩

/-- After a malformed offer of one peer the well-formed offer of another is never handed over. -/
theorem malformed_blocks_later : ∃ tr, ∃ p : Peer Unit Unit Unit,
    (peer Codecs.empty 1 0 0 1).Run
      (Hands .offer [⟨some ⟨8, [0], []⟩⟩, ⟨some ⟨7, [], []⟩⟩]) tr p ∧
      p.Exhausted .offer [⟨some ⟨8, [0], []⟩⟩, ⟨some ⟨7, [], []⟩⟩] ∧
      received .offer tr = [] ∧
      [⟨some ⟨8, [0], []⟩⟩, ⟨some ⟨7, [], []⟩⟩].filterMap (Codecs.empty.decoded .offer) =
        [.receiveOffer 7 ((), ())] := by
  obtain ⟨tr, p, hr, hc⟩ := (peer Codecs.empty 1 0 0 1).exec_reaches
    (Hands .offer [⟨some ⟨8, [0], []⟩⟩, ⟨some ⟨7, [], []⟩⟩])
    [.signalMessage 1 (.ok (some ⟨some ⟨8, [0], []⟩⟩))]
    (fun c => decide (c.1.Exhausted .offer [⟨some ⟨8, [0], []⟩⟩, ⟨some ⟨7, [], []⟩⟩] ∧
      received .offer c.2 = []))
    (by decide +kernel)
  obtain ⟨hex, hrec⟩ := of_decide_eq_true hc
  exact ⟨tr, p, hr, hex, hrec, rfl⟩

end Peer

end JustWebrtc.Signalling
