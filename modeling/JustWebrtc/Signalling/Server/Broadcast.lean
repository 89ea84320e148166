import JustWebrtc.Signalling.Server.Steps

/-!
# The peer change broadcast

All successful broadcasts form one change log. The receiver kept in `Signalling` never
reads, so the ring always retains the last sixteen log entries and every broadcast
succeeds. Each peer stream hands out its snapshot and then walks along the log from the
position of its subscription.
-/

namespace JustWebrtc.Signalling

/-- The message of a successful broadcast. -/
def sentChange : Event → Option PeerListenerRsp
  | .broadcast m true => some m
  | _ => none

/-- The messages of all successful broadcasts of a run, in order. -/
def changeLog (tr : List Event) : List PeerListenerRsp := tr.filterMap sentChange

@[simp] theorem changeLog_append (tr evs : List Event) :
    changeLog (tr ++ evs) = changeLog tr ++ changeLog evs := List.filterMap_append

/-- The message of a stream item; an error item has none. -/
def itemMessage : Except Status PeerListenerRsp → Option PeerListenerRsp
  | .ok m => some m
  | .error _ => none

/-- What a peer stream has yielded or has loaded to yield next. -/
def PeerStream.loaded (st : PeerStream) : List (Except Status PeerListenerRsp) :=
  st.items ++ (st.result.map Except.ok).toList

/-- Stream `i` was subscribed, once and for all, when the change log had `start` entries. -/
def SubscribedAt (tr : List Event) (i start : Nat) : Prop :=
  ∃ before k after, tr = before ++ .subscribed k i :: after ∧
    (∀ k', Event.subscribed k' i ∉ before) ∧ (changeLog before).length = start

theorem SubscribedAt.append {tr : List Event} {i start : Nat} (h : SubscribedAt tr i start)
    (evs : List Event) : SubscribedAt (tr ++ evs) i start := by
  obtain ⟨before, k, after, rfl, hfirst, hl⟩ := h
  exact ⟨before, k, after ++ evs, by simp, hfirst, hl⟩

namespace Server

/-- A broadcast touches the ring and nothing else. -/
theorem broadcastChange_frame (s : Server) (c : PeerChange) :
    ∃ r, (s.broadcastChange c).1 = { s with broadcast := r } := by
  unfold broadcastChange
  split
  · exact ⟨_, rfl⟩
  · exact ⟨s.broadcast, rfl⟩

@[simp] theorem peers_broadcastChange (s : Server) (c : PeerChange) :
    (s.broadcastChange c).1.peers = s.peers := by
  obtain ⟨r, h⟩ := s.broadcastChange_frame c
  rw [h]

@[simp] theorem calls_broadcastChange (s : Server) (c : PeerChange) :
    (s.broadcastChange c).1.calls = s.calls := by
  obtain ⟨r, h⟩ := s.broadcastChange_frame c
  rw [h]

@[simp] theorem channels_broadcastChange (s : Server) (c : PeerChange) :
    (s.broadcastChange c).1.channels = s.channels := by
  obtain ⟨r, h⟩ := s.broadcastChange_frame c
  rw [h]

@[simp] theorem streams_broadcastChange (s : Server) (c : PeerChange) :
    (s.broadcastChange c).1.streams = s.streams := by
  obtain ⟨r, h⟩ := s.broadcastChange_frame c
  rw [h]

@[simp] theorem generator_broadcastChange (s : Server) (c : PeerChange) :
    (s.broadcastChange c).1.generator = s.generator := by
  obtain ⟨r, h⟩ := s.broadcastChange_frame c
  rw [h]

/-- What is recorded of a broadcast is a broadcast event. -/
theorem broadcastChange_event (s : Server) (c : PeerChange) :
    ∃ m sent, (s.broadcastChange c).2 = .broadcast m sent := by
  unfold broadcastChange
  split
  · exact ⟨_, _, rfl⟩
  · exact ⟨_, _, rfl⟩

/-- A broadcast records nothing but itself. -/
theorem not_mem_broadcastChange {s : Server} {c : PeerChange} {e : Event}
    (he : ∀ m sent, e ≠ .broadcast m sent) : e ∉ [(s.broadcastChange c).2] := by
  obtain ⟨m, sent, heq⟩ := broadcastChange_event s c
  rw [heq, List.mem_singleton]
  exact he m sent

/-- With an idle receiver every broadcast is sent and recorded. -/
theorem broadcastChange_sent {s : Server} {log : List PeerListenerRsp}
    (h : s.broadcast.Records 0 log) (c : PeerChange) :
    (s.broadcastChange c).2 = .broadcast ⟨[c]⟩ true ∧
      (s.broadcastChange c).1.broadcast.Records 0 (log ++ [⟨[c]⟩]) ∧
      (s.broadcastChange c).1.broadcast.receivers = s.broadcast.receivers ∧
      (s.broadcastChange c).1.broadcast.capacity = s.broadcast.capacity := by
  obtain ⟨r, hr, hrec, hreceivers, hcapacity⟩ := h.tryBroadcast ⟨[c]⟩
  simp only [broadcastChange, hr]
  exact ⟨trivial, hrec, hreceivers, hcapacity⟩

/-- A stream that was subscribed at `start` has handed out the snapshot `initial` and then
`rest`, and stands at `pos` of the change log. -/
structure Walk (tr : List Event) (s : Server) (i : Nat) (st : PeerStream) (start : Nat)
    (initial : List Id) (rest : List (Except Status PeerListenerRsp)) (pos : Nat) : Prop where
  subscribed : SubscribedAt tr i start
  loaded : st.loaded = .ok ⟨initial.map Change.add⟩ :: rest
  nodup : initial.Nodup
  others : st.localId ∉ initial
  errors : ∀ e, Except.error e ∈ rest → e = Status.lagged
  follows : Ring.Follows 16 start (changeLog tr) (rest.map itemMessage) pos
  position : st.alive = true → s.broadcast.receivers[i + 1]? = some (some pos)

/-- What stream `i` has handed out, against the change log. -/
structure StreamFollows (tr : List Event) (s : Server) (i : Nat) (st : PeerStream) : Prop where
  rx : st.rx = i + 1
  fresh : st.result ≠ none → st.items = []
  walk : ∃ start initial rest pos, Walk tr s i st start initial rest pos

/-- The invariant of the change broadcast. -/
structure BroadcastInv (tr : List Event) (s : Server) : Prop where
  records : s.broadcast.Records 0 (changeLog tr)
  capacity : s.broadcast.capacity = 16
  receivers : s.broadcast.receivers.length = s.streams.length + 1
  sent : ∀ m sent, Event.broadcast m sent ∈ tr → sent = true
  streams : ∀ i st, s.streams[i]? = some st → StreamFollows tr s i st
  subscribed : ∀ k i, Event.subscribed k i ∈ tr → i < s.streams.length
  collected : ∀ k id initial, s.At k (.subscribing id initial) → initial.Nodup ∧ id ∉ initial

/-- Streams keep their walk while the log grows by what is sent and their receiver stays. -/
theorem StreamFollows.mono {tr evs : List Event} {s t : Server} {i : Nat} {st : PeerStream}
    (h : StreamFollows tr s i st)
    (hlog : changeLog evs = [] ∨ ∃ m, changeLog evs = [m])
    (hr : t.broadcast.receivers[i + 1]? = s.broadcast.receivers[i + 1]?) :
    StreamFollows (tr ++ evs) t i st := by
  obtain ⟨start, initial, rest, pos, w⟩ := h.walk
  refine ⟨h.rx, h.fresh, start, initial, rest, pos, w.subscribed.append evs, w.loaded, w.nodup,
    w.others, w.errors, ?_, fun ha => hr.trans (w.position ha)⟩
  rw [changeLog_append]
  rcases hlog with hlog | ⟨m, hlog⟩
  · rw [hlog, List.append_nil]
    exact w.follows
  · rw [hlog]
    exact w.follows.grow m

namespace BroadcastInv

variable {tr : List Event} {s t : Server} {evs : List Event}

/-- A step that leaves the ring and the streams alone and broadcasts nothing. -/
theorem frame (h : BroadcastInv tr s) (hb : t.broadcast = s.broadcast)
    (hs : t.streams = s.streams) (he : ∀ e ∈ evs, (∀ m sent, e ≠ .broadcast m sent) ∧
      ∀ k i, e ≠ .subscribed k i)
    (hc : ∀ k id initial, t.At k (.subscribing id initial) →
      s.At k (.subscribing id initial) ∨ initial.Nodup ∧ id ∉ initial) :
    BroadcastInv (tr ++ evs) t := by
  have hnil : changeLog evs = [] := by
    rw [changeLog, List.filterMap_eq_nil_iff]
    intro e hm
    cases e with
    | broadcast m sent => exact absurd rfl ((he _ hm).1 m sent)
    | _ => rfl
  have hlog : changeLog (tr ++ evs) = changeLog tr := by
    rw [changeLog_append, hnil, List.append_nil]
  refine ⟨by rw [hb, hlog]; exact h.records, by rw [hb]; exact h.capacity,
    by rw [hb, hs]; exact h.receivers, ?_, ?_, ?_, ?_⟩
  · intro m sent hm
    rcases List.mem_append.mp hm with hm | hm
    · exact h.sent m sent hm
    · exact absurd rfl ((he _ hm).1 m sent)
  · intro i st hi
    rw [hs] at hi
    exact (h.streams i st hi).mono (Or.inl hnil) (by rw [hb])
  · intro k i hm
    rw [hs]
    rcases List.mem_append.mp hm with hm | hm
    · exact h.subscribed k i hm
    · exact absurd rfl ((he _ hm).2 k i)
  · intro k id initial hk
    rcases hc k id initial hk with hk | hk
    · exact h.collected k id initial hk
    · exact hk

/-- Broadcasting a change lengthens the log under every stream. -/
theorem broadcastChange (h : BroadcastInv tr s) (c : PeerChange)
    (hb : t.broadcast = (s.broadcastChange c).1.broadcast) (hs : t.streams = s.streams)
    (hc : ∀ k id initial, t.At k (.subscribing id initial) → s.At k (.subscribing id initial)) :
    BroadcastInv (tr ++ [(s.broadcastChange c).2]) t := by
  obtain ⟨hev, hrec, hreceivers, hcapacity⟩ := broadcastChange_sent h.records c
  have hone : changeLog [(s.broadcastChange c).2] = [⟨[c]⟩] := by rw [hev]; rfl
  refine ⟨by rw [hb, changeLog_append, hone]; exact hrec,
    by rw [hb, hcapacity]; exact h.capacity, by rw [hb, hs, hreceivers]; exact h.receivers,
    ?_, ?_, ?_, ?_⟩
  · intro m sent hm
    rcases List.mem_append.mp hm with hm | hm
    · exact h.sent m sent hm
    · rw [hev, List.mem_singleton, Event.broadcast.injEq] at hm
      exact hm.2
  · intro i st hi
    rw [hs] at hi
    exact (h.streams i st hi).mono (Or.inr ⟨_, hone⟩) (by rw [hb, hreceivers])
  · intro k i hm
    rw [hs]
    rcases List.mem_append.mp hm with hm | hm
    · exact h.subscribed k i hm
    · rw [hev, List.mem_singleton] at hm
      simp only [reduceCtorEq] at hm
  · intro k id initial hk
    exact h.collected k id initial (hc k id initial hk)

/-- A new stream starts at the end of the log with its snapshot loaded. -/
theorem subscribe (h : BroadcastInv tr s) {k : Nat} {request : Request} {id : Id}
    {initial : List Id} (hk : s.calls[k]? = some ⟨request, .subscribing id initial⟩)
    (result : Except Status Response) :
    BroadcastInv (tr ++ [.subscribed k s.streams.length])
      ((s.openPeerListenerSubscribe k id initial).1.setPhase k (.done result)) := by
  have hnil : changeLog [.subscribed k s.streams.length] = [] := rfl
  have hlog : changeLog (tr ++ [.subscribed k s.streams.length]) = changeLog tr := by
    rw [changeLog_append, hnil, List.append_nil]
  obtain ⟨hrec, hreceivers⟩ := h.records.newReceiver
  obtain ⟨hn, hl⟩ := h.collected k id initial ⟨request, hk⟩
  have hlen := h.receivers
  refine ⟨by rw [hlog]; exact hrec, h.capacity, ?_, ?_, ?_, ?_, ?_⟩
  · change s.broadcast.newReceiver.receivers.length = (s.streams ++ [_]).length + 1
    rw [hreceivers, List.length_append, List.length_append, hlen]
    rfl
  · intro m sent hm
    rcases List.mem_append.mp hm with hm | hm
    · exact h.sent m sent hm
    · simp at hm
  · intro i st hi
    change (s.streams ++ [_])[i]? = some st at hi
    by_cases hlt : i < s.streams.length
    · rw [List.getElem?_append_left hlt] at hi
      refine (h.streams i st hi).mono (Or.inl hnil) ?_
      change s.broadcast.newReceiver.receivers[i + 1]? = _
      rw [hreceivers, List.getElem?_append_left (by omega)]
    · have hi' : i = s.streams.length := by
        have := (List.getElem?_eq_some_iff.mp hi).1
        rw [List.length_append, List.length_singleton] at this
        omega
      subst hi'
      rw [List.getElem?_concat_length, Option.some.injEq] at hi
      subst hi
      refine ⟨hlen, fun _ => rfl, (changeLog tr).length, initial, [], (changeLog tr).length,
        ⟨tr, k, [], rfl, fun k' hm => lt_irrefl _ (h.subscribed k' _ hm), rfl⟩, rfl, hn, hl,
          by simp, ?_, ?_⟩
      · rw [hlog]
        exact .nil rfl
      · intro _
        change s.broadcast.newReceiver.receivers[s.streams.length + 1]? = _
        rw [hreceivers, ← hlen, List.getElem?_concat_length]
  · intro j i hm
    change i < (s.streams ++ [_]).length
    rw [List.length_append, List.length_singleton]
    rcases List.mem_append.mp hm with hm | hm
    · exact (h.subscribed j i hm).trans (Nat.lt_succ_self _)
    · rw [List.mem_singleton, Event.subscribed.injEq] at hm
      rw [hm.2]
      exact Nat.lt_succ_self _
  · intro j id' initial' hj
    have hcall : (s.openPeerListenerSubscribe k id initial).1.calls[k]? =
        some ⟨request, .subscribing id initial⟩ := hk
    rcases (at_setPhase hcall).mp hj with ⟨_, hp⟩ | ⟨_, hj⟩
    · simp only [reduceCtorEq] at hp
    · exact h.collected j id' initial' hj

/-- Replacing one stream by one with a walk of its own keeps the others. -/
theorem updateStream (h : BroadcastInv tr s) {i : Nat} {st st' : PeerStream} {r : Ring _}
    (hrec : r.Records 0 (changeLog tr)) (hcap : r.capacity = 16)
    (hlen : r.receivers.length = s.broadcast.receivers.length)
    (hothers : ∀ j, j ≠ i → r.receivers[j + 1]? = s.broadcast.receivers[j + 1]?)
    (hi : s.streams[i]? = some st)
    (hst : StreamFollows tr { s with broadcast := r, streams := s.streams.set i st' } i st') :
    BroadcastInv (tr ++ []) { s with broadcast := r, streams := s.streams.set i st' } := by
  rw [List.append_nil]
  refine ⟨hrec, hcap, by simp only [hlen, List.length_set]; exact h.receivers, h.sent, ?_,
    fun k j hm => by rw [List.length_set]; exact h.subscribed k j hm, h.collected⟩
  intro j st'' hj
  by_cases hji : j = i
  · subst hji
    have hlt := (List.getElem?_eq_some_iff.mp hi).1
    rw [List.getElem?_set_self hlt, Option.some.injEq] at hj
    subst hj
    exact hst
  · rw [List.getElem?_set_ne (Ne.symm hji)] at hj
    have hj' : StreamFollows (tr ++ [])
        { s with broadcast := r, streams := s.streams.set i st' } j st'' :=
      (h.streams j st'' hj).mono (Or.inl rfl) (hothers j hji)
    rwa [List.append_nil] at hj'

/-- Handing out the loaded snapshot changes nothing that is loaded. -/
theorem yieldInitial (h : BroadcastInv tr s) {i : Nat} {st : PeerStream} {rsp : PeerListenerRsp}
    (hi : s.streams[i]? = some st) (hr : st.result = some rsp) :
    BroadcastInv (tr ++ []) { s with
      streams := s.streams.set i { st with result := none, items := st.items ++ [.ok rsp] } } := by
  have hst := h.streams i st hi
  obtain ⟨start, initial, rest, pos, w⟩ := hst.walk
  refine h.updateStream h.records h.capacity rfl (fun _ _ => rfl) hi
    ⟨hst.rx, fun hn => absurd rfl hn, start, initial, rest, pos, w.subscribed, ?_, w.nodup,
      w.others, w.errors, w.follows, w.position⟩
  rw [← w.loaded]
  simp [PeerStream.loaded, hr]

/-- Handing out one more item that continues the walk of its stream. -/
theorem yieldItem (h : BroadcastInv tr s) {i : Nat} {st : PeerStream} {start pos pos' : Nat}
    {initial : List Id} {rest : List (Except Status PeerListenerRsp)}
    {r : Ring PeerListenerRsp} {item : Except Status PeerListenerRsp}
    (hi : s.streams[i]? = some st) (hr : st.result = none)
    (w : Walk tr s i st start initial rest pos) (hrec : r.Records 0 (changeLog tr))
    (hcap : r.capacity = s.broadcast.capacity)
    (hset : r.receivers = s.broadcast.receivers.set (i + 1) (some pos'))
    (hlt : i + 1 < s.broadcast.receivers.length)
    (hitem : ∀ e, item = .error e → e = Status.lagged)
    (hf : Ring.Follows 16 start (changeLog tr) (rest.map itemMessage ++ [itemMessage item]) pos') :
    BroadcastInv (tr ++ []) { s with
      broadcast := r
      streams := s.streams.set i { st with items := st.items ++ [item] } } := by
  refine h.updateStream hrec (hcap.trans h.capacity) (by rw [hset, List.length_set]) ?_ hi
    ⟨(h.streams i st hi).rx, fun hn => absurd hr hn, start, initial, rest ++ [item], pos',
      w.subscribed, ?_, w.nodup, w.others, ?_, by simpa using hf, fun _ => ?_⟩
  · intro j hj
    rw [hset]
    exact List.getElem?_set_ne (by omega)
  · have hl := w.loaded
    simp only [PeerStream.loaded, hr, Option.map_none, Option.toList_none,
      List.append_nil] at hl ⊢
    rw [hl, List.cons_append]
  · intro e he
    rcases List.mem_append.mp he with he | he
    · exact w.errors e he
    · exact hitem e (List.mem_singleton.mp he).symm
  · change r.receivers[i + 1]? = _
    rw [hset, List.getElem?_set_self hlt]

/-- Handing out what the broadcast delivers is one step along the log. -/
theorem yieldReceived (h : BroadcastInv tr s) {i : Nat} {st : PeerStream}
    {received : Received PeerListenerRsp} {r : Ring PeerListenerRsp}
    {item : Except Status PeerListenerRsp} (hi : s.streams[i]? = some st)
    (ha : st.alive = true) (hr : st.result = none)
    (hrecv : s.broadcast.tryRecv st.rx = some (received, r))
    (hitem : streamItem received = some item) :
    BroadcastInv (tr ++ []) { s with
      broadcast := r
      streams := s.streams.set i { st with items := st.items ++ [item] } } := by
  obtain ⟨start, initial, rest, pos, w⟩ := (h.streams i st hi).walk
  have hpos := w.position ha
  have hlt := (List.getElem?_eq_some_iff.mp hpos).1
  rw [(h.streams i st hi).rx] at hrecv
  rcases h.records.tryRecv (Nat.succ_ne_zero i) hpos w.follows.bounds.2 with
    ⟨hlag, n, r', hr', hrec, hcap, hset⟩ | ⟨m, r', hm, hr', hrec, hcap, hset⟩ | ⟨_, hr'⟩
  · obtain ⟨rfl, rfl⟩ : received = .overflowed n ∧ r = r' := by
      simpa only [Option.some.injEq, Prod.mk.injEq] using hrecv.symm.trans hr'
    simp only [streamItem, Option.some.injEq] at hitem
    subst hitem
    rw [h.capacity] at hlag hset
    exact h.yieldItem hi hr w hrec hcap hset hlt (by simp) (.loss w.follows hlag)
  · obtain ⟨rfl, rfl⟩ : received = .message m ∧ r = r' := by
      simpa only [Option.some.injEq, Prod.mk.injEq] using hrecv.symm.trans hr'
    simp only [streamItem, Option.some.injEq] at hitem
    subst hitem
    exact h.yieldItem hi hr w hrec hcap hset hlt (by simp) (.item w.follows hm)
  · obtain ⟨rfl, _⟩ : received = .empty ∧ r = s.broadcast := by
      simpa only [Option.some.injEq, Prod.mk.injEq] using hrecv.symm.trans hr'
    simp only [streamItem, reduceCtorEq] at hitem

/-- Dropping a stream releases its receiver only. -/
theorem dropPeerStream (h : BroadcastInv tr s) {i : Nat} {st : PeerStream}
    (hi : s.streams[i]? = some st) :
    BroadcastInv (tr ++ []) { s with
      broadcast := s.broadcast.dropReceiver st.rx
      streams := s.streams.set i { st with alive := false } } := by
  have hst := h.streams i st hi
  obtain ⟨start, initial, rest, pos, w⟩ := hst.walk
  have hrx : st.rx ≠ 0 := by rw [hst.rx]; exact Nat.succ_ne_zero i
  have hset : (s.broadcast.dropReceiver st.rx).receivers = s.broadcast.receivers.set st.rx none :=
    rfl
  refine h.updateStream (h.records.dropReceiver hrx) h.capacity
    (by rw [hset, List.length_set]) ?_ hi
    ⟨hst.rx, hst.fresh, start, initial, rest, pos, w.subscribed, w.loaded, w.nodup, w.others,
      w.errors, w.follows, fun ha => by simp at ha⟩
  intro j hj
  rw [hset, hst.rx]
  exact List.getElem?_set_ne (by omega)

end BroadcastInv

/-- Every step keeps the broadcast invariant. -/
theorem Moves.broadcastInv {tr evs : List Event} {s t : Server} {a : Action}
    (hm : s.Moves a t evs) (h : BroadcastInv tr s) : BroadcastInv (tr ++ evs) t := by
  cases hm with
  | receive request =>
    refine h.frame rfl rfl (by simp) fun k id initial hk => Or.inl ?_
    exact (at_receive (by simp)).mp hk
  | generate hk | duplicate hk _ | insert hk _ | remove hk _ | accept hk _ _ _ _
  | disconnect hk _ _ _ _ | openListener hk _ _ _ =>
    refine h.frame rfl rfl (by simp) fun j id initial hj => Or.inl ?_
    rcases (at_setPhase hk).mp hj with ⟨_, hp⟩ | ⟨_, hj⟩
    · simp only [reduceCtorEq] at hp
    · exact hj
  | respond hk _ =>
    refine h.frame rfl rfl (by simp) fun j id initial hj => Or.inl ?_
    rcases (at_setPhase hk).mp hj with ⟨_, hp⟩ | ⟨_, hj⟩
    · simp only [reduceCtorEq] at hp
    · exact hj
  | @announce k order request id hk =>
    refine h.broadcastChange (.add id) rfl (by simp) fun j id initial hj => ?_
    rcases (at_setPhase (by rw [calls_broadcastChange]; exact hk)).mp hj with ⟨_, hp⟩ | ⟨_, hj⟩
    · simp only [reduceCtorEq] at hp
    · simpa only [At, calls_broadcastChange] using hj
  | @depart k order call id caller hk _ =>
    refine h.broadcastChange (.remove id) rfl (by simp) fun j id initial hj => ?_
    rcases (at_setPhase (by rw [calls_broadcastChange]; exact hk)).mp hj with ⟨_, hp⟩ | ⟨_, hj⟩
    · simp only [reduceCtorEq] at hp
    · simpa only [At, calls_broadcastChange] using hj
  | collect hk hi =>
    refine h.frame rfl rfl (by simp) fun j id' initial hj => ?_
    rcases (at_setPhase hk).mp hj with ⟨_, hp⟩ | ⟨_, hj⟩
    · rw [Phase.subscribing.injEq] at hp
      obtain ⟨rfl, rfl⟩ := hp
      refine Or.inr ⟨hi.1, fun hmem => ?_⟩
      have hm := List.mem_toFinset.mpr hmem
      rw [hi.2] at hm
      exact Finset.notMem_erase _ _ hm
    · exact Or.inl hj
  | subscribe hk => exact h.subscribe hk _
  | yieldInitial hi _ hr => exact h.yieldInitial hi hr
  | yieldReceived hi ha hr hrecv hitem => exact h.yieldReceived hi ha hr hrecv hitem
  | pollChannel _ _ => exact h.frame rfl rfl (by simp) fun _ _ _ hj => Or.inl hj
  | dropPeerStream hi _ => exact h.dropPeerStream hi
  | dropChannel _ => exact h.frame rfl rfl (by simp) fun _ _ _ hj => Or.inl hj

/-- The invariant holds after every run. -/
theorem broadcastInv {ok : Server → Action → Prop} {tr : List Event} {s : Server}
    (hr : server.Run ok tr s) : BroadcastInv tr s := by
  refine hr.invariant ?_ fun _ h _ hs => (step_moves hs).broadcastInv h
  refine ⟨Ring.Records.broadcast (by decide), rfl, rfl, by simp, ?_, by simp, ?_⟩
  · intro i st hi
    simp [server, Server.new] at hi
  · rintro k id initial ⟨request, hk⟩
    simp [server, Server.new] at hk

/-- Every message of the change log carries one change. -/
theorem single_changes {ok : Server → Action → Prop} {tr : List Event} {s : Server}
    (hr : server.Run ok tr s) : ∀ m ∈ changeLog tr, ∃ c, m = ⟨[c]⟩ := by
  refine hr.invariant (I := fun tr _ => ∀ m ∈ changeLog tr, ∃ c, m = ⟨[c]⟩) (by simp [changeLog]) ?_
  intro tr s a t evs hr h _ hs m hm
  rw [changeLog_append, List.mem_append] at hm
  refine hm.elim (h m) fun hm => ?_
  cases step_moves hs with
  | announce _ | depart _ _ =>
    rw [(broadcastChange_sent (broadcastInv hr).records _).1] at hm
    exact ⟨_, List.mem_singleton.mp hm⟩
  | _ => simp [changeLog, sentChange] at hm

/-- No change is lost silently. Every broadcast made so far was sent, and the next one would
be. A stream that has handed anything out has handed out its snapshot and then a walk along
the change log from the position of its subscription: the next log entry, or, only while
more than sixteen entries are unread, one `data_loss` error in place of the skipped ones. -/
theorem no_silent_loss {tr : List Event} {s : Server} (hr : server.Run Machine.Free tr s) :
    (∀ m sent, Event.broadcast m sent ∈ tr → sent = true) ∧
      (∀ c, (s.broadcastChange c).2 = .broadcast ⟨[c]⟩ true ∧
        changeLog (tr ++ [(s.broadcastChange c).2]) = changeLog tr ++ [⟨[c]⟩]) ∧
      ∀ i st, s.streams[i]? = some st → ∃ start, SubscribedAt tr i start ∧
        (st.items = [] ∨ ∃ (initial : List Id) (rest : List (Except Status PeerListenerRsp))
            (pos : Nat),
          st.items = .ok ⟨initial.map Change.add⟩ :: rest ∧
          (∀ e, Except.error e ∈ rest → e = Status.lagged) ∧
          Ring.Follows 16 start (changeLog tr) (rest.map itemMessage) pos) := by
  have h := broadcastInv hr
  refine ⟨h.sent, fun c => ?_, fun i st hi => ?_⟩
  · have hsent := (broadcastChange_sent h.records c).1
    refine ⟨hsent, ?_⟩
    rw [hsent, changeLog_append]
    rfl
  · have hst := h.streams i st hi
    obtain ⟨start, initial, rest, pos, w⟩ := hst.walk
    refine ⟨start, w.subscribed, ?_⟩
    cases hres : st.result with
    | some rsp => exact Or.inl (hst.fresh (by rw [hres]; simp))
    | none =>
      refine Or.inr ⟨initial, rest, pos, ?_, w.errors, w.follows⟩
      have hl := w.loaded
      simpa only [PeerStream.loaded, hres, Option.map_none, Option.toList_none,
        List.append_nil] using hl

/-- A listener that leaves seventeen additions unread is told so once and goes on with the
second of them. -/
theorem no_silent_loss_lagged : ∃ tr s st, server.Run Machine.Free tr s ∧
    s.streams[0]? = some st ∧
    st.items = [.ok ⟨[]⟩, .error Status.lagged, .ok ⟨[.add 2]⟩] ∧
    ∃ start, SubscribedAt tr 0 start := by
  obtain ⟨tr, s, hr, hc⟩ := server.exec_reaches Machine.Free
    (Action.handling .advertise 0 3 [] ++ Action.handling (.openPeerListener (some 0)) 1 2 [] ++
      (List.range 17).flatMap (fun n => Action.handling .advertise (n + 2) 3 []) ++
      List.replicate 3 (.pollPeerStream 0))
    (fun c => decide ((c.1.streams[0]?).map PeerStream.items =
      some [.ok ⟨[]⟩, .error Status.lagged, .ok ⟨[.add 2]⟩])) (by decide +kernel)
  obtain ⟨st, hi, hitems⟩ := Option.map_eq_some_iff.mp (of_decide_eq_true hc)
  obtain ⟨start, hsub, _⟩ := (no_silent_loss hr).2.2 0 st hi
  exact ⟨tr, s, st, hr, hi, hitems, start, hsub⟩

end Server

end JustWebrtc.Signalling
