import Mathlib.Data.Finset.Basic
import Mathlib.Data.Finset.Card
import JustWebrtc.Core.Machine
import JustWebrtc.Core.Channel

/-!
# An exchange between peers

A registry of peers, each with mailboxes of several kinds. Every operation is one atomic step
that has one reply. An identifier is given out once. A peer that is present lists the others,
opens its mailboxes and leaves; messages are sent to the mailboxes of the peers that are present,
and a peer whose reader is found gone is taken out. What a mailbox has received can be read after
its peer has left.
-/

namespace JustWebrtc

/-- The peers that are present, the identifiers that were ever given out, and the mailboxes. -/
structure Exchange (ι κ μ : Type*) where
  used : Finset ι
  present : Finset ι
  mailbox : κ → ι → Option (Channel μ)
  present_used : present ⊆ used

namespace Exchange

variable {ι κ μ : Type*}

/-- What can be asked of an exchange. -/
inductive Operation (ι κ μ : Type*)
  | join
  | leave (id : ι)
  /-- List the peers that are present other than `id`. -/
  | list (id : ι)
  | listen (box : κ) (id : ι)
  | send (box : κ) (id : ι) (message : μ)
  deriving DecidableEq

/-- What an operation may be answered. -/
inductive Reply (ι : Type*)
  | joined (id : ι)
  | left
  | others (ids : List ι)
  | listening
  | sent
  /-- The peer is not present. -/
  | absent
  /-- The mailbox has been opened before. -/
  | taken
  /-- The mailbox has not been opened. -/
  | closed
  | full
  /-- The reader is gone, so the peer has been taken out. -/
  | gone
  deriving DecidableEq

/-- An operation with its caller, a message that is read, or a reader that goes away. -/
inductive Action (ι κ μ : Type*)
  | operate (caller : Nat) (operation : Operation ι κ μ) (reply : Reply ι)
  | read (box : κ) (id : ι)
  | close (box : κ) (id : ι)

/-- The visible history of an exchange. -/
inductive Event (ι κ μ : Type*)
  | operated (caller : Nat) (operation : Operation ι κ μ) (reply : Reply ι)
  | read (box : κ) (id : ι) (message : μ)
  | closed (box : κ) (id : ι)
  deriving DecidableEq

/-- Nothing has happened yet. -/
def empty : Exchange ι κ μ where
  used := ∅
  present := ∅
  mailbox := fun _ _ => none
  present_used := Finset.Subset.refl _

variable [DecidableEq ι] [DecidableEq κ]

/-- A peer appears under an identifier. -/
def add (e : Exchange ι κ μ) (id : ι) : Exchange ι κ μ where
  used := insert id e.used
  present := insert id e.present
  mailbox := e.mailbox
  present_used := Finset.insert_subset_insert id e.present_used

/-- A peer goes away, and its mailboxes stay for their readers. -/
def remove (e : Exchange ι κ μ) (id : ι) : Exchange ι κ μ where
  used := e.used
  present := e.present.erase id
  mailbox := e.mailbox
  present_used := (Finset.erase_subset id e.present).trans e.present_used

/-- A mailbox is given new contents. -/
def put (e : Exchange ι κ μ) (box : κ) (id : ι) (channel : Channel μ) : Exchange ι κ μ where
  used := e.used
  present := e.present
  mailbox box' id' := if box' = box ∧ id' = id then some channel else e.mailbox box' id'
  present_used := e.present_used

@[simp] theorem mailbox_put (e : Exchange ι κ μ) (box box' : κ) (id id' : ι)
    (channel : Channel μ) : (e.put box id channel).mailbox box' id' =
      if box' = box ∧ id' = id then some channel else e.mailbox box' id' := rfl

/-- A peer goes away, if it is present. -/
def leave (e : Exchange ι κ μ) (id : ι) : Reply ι × Exchange ι κ μ :=
  if id ∈ e.present then (.left, e.remove id) else (.absent, e)

/-- A peer opens a mailbox, as `fresh`, unless that has been done before. -/
def listen (fresh : Channel μ) (e : Exchange ι κ μ) (box : κ) (id : ι) :
    Reply ι × Exchange ι κ μ :=
  if id ∈ e.present then
    if (e.mailbox box id).isSome then (.taken, e) else (.listening, e.put box id fresh)
  else (.absent, e)

/-- A message goes to the mailbox of a peer that is present, and takes that peer out where the
reader of the mailbox is gone. -/
def send (e : Exchange ι κ μ) (box : κ) (id : ι) (message : μ) : Reply ι × Exchange ι κ μ :=
  if id ∈ e.present then
    match e.mailbox box id with
    | none => (.closed, e)
    | some channel =>
      match channel.trySend message with
      | .ok channel => (.sent, e.put box id channel)
      | .error .full => (.full, e)
      | .error .disconnected => (.gone, e.remove id)
  else (.absent, e)

/-- The state after an operation with a reply, where the exchange can reply so: any new
identifier to a peer that joins, the other peers in any order to one that lists them. -/
def perform (fresh : Channel μ) (e : Exchange ι κ μ) :
    Operation ι κ μ → Reply ι → Option (Exchange ι κ μ)
  | .join, .joined id => if id ∈ e.used then none else some (e.add id)
  | .join, _ => none
  | .list id, .others ids =>
    if ids.Nodup ∧ ids.toFinset = e.present.erase id then some e else none
  | .list _, _ => none
  | .leave id, reply => agreed reply (e.leave id)
  | .listen box id, reply => agreed reply (e.listen fresh box id)
  | .send box id message, reply => agreed reply (e.send box id message)
where
  /-- The outcome with the reply that was given. -/
  agreed (reply : Reply ι) (out : Reply ι × Exchange ι κ μ) : Option (Exchange ι κ μ) :=
    if out.1 = reply then some out.2 else none

/-- One step of an exchange. -/
def step (fresh : Channel μ) (e : Exchange ι κ μ) :
    Action ι κ μ → Option (Exchange ι κ μ × List (Event ι κ μ))
  | .operate caller operation reply =>
    (e.perform fresh operation reply).map fun e' => (e', [.operated caller operation reply])
  | .read box id =>
    match e.mailbox box id with
    | none => none
    | some channel =>
      match channel.queue.head?, channel.next with
      | some message, some rest => some (e.put box id rest, [.read box id message])
      | _, _ => none
  | .close box id =>
    (e.mailbox box id).map fun channel => (e.put box id channel.dropReceiver, [.closed box id])

/-- The exchange whose mailboxes are opened as `fresh`. -/
def machine (ι κ : Type*) {μ : Type*} [DecidableEq ι] [DecidableEq κ] (fresh : Channel μ) :
    Machine (Exchange ι κ μ) (Action ι κ μ) (Event ι κ μ) where
  init := empty
  step := step fresh

/-! ## Replies -/

section

variable {fresh channel rest : Channel μ} {e e' : Exchange ι κ μ} {box : κ} {id : ι} {message : μ}

theorem perform_join (h : id ∉ e.used) : e.perform fresh .join (.joined id) = some (e.add id) := by
  simp [perform, h]

theorem perform_list {ids : List ι} (h : ids.Nodup) (hids : ids.toFinset = e.present.erase id) :
    e.perform fresh (.list id) (.others ids) = some e := by
  simp [perform, h, hids]

theorem perform_leave (h : id ∈ e.present) :
    e.perform fresh (.leave id) .left = some (e.remove id) := by
  simp [perform, perform.agreed, leave, h]

theorem perform_leave_absent (h : id ∉ e.present) :
    e.perform fresh (.leave id) .absent = some e := by
  simp [perform, perform.agreed, leave, h]

theorem perform_listen (h : id ∈ e.present) (hbox : e.mailbox box id = none) :
    e.perform fresh (.listen box id) .listening = some (e.put box id fresh) := by
  simp [perform, perform.agreed, listen, h, hbox]

theorem perform_listen_taken (h : id ∈ e.present) (hbox : e.mailbox box id = some channel) :
    e.perform fresh (.listen box id) .taken = some e := by
  simp [perform, perform.agreed, listen, h, hbox]

theorem perform_listen_absent (h : id ∉ e.present) :
    e.perform fresh (.listen box id) .absent = some e := by
  simp [perform, perform.agreed, listen, h]

theorem perform_send (h : id ∈ e.present) (hbox : e.mailbox box id = some channel)
    (hsend : channel.trySend message = .ok rest) :
    e.perform fresh (.send box id message) .sent = some (e.put box id rest) := by
  simp [perform, perform.agreed, send, h, hbox, hsend]

theorem perform_send_full (h : id ∈ e.present) (hbox : e.mailbox box id = some channel)
    (hsend : channel.trySend message = .error .full) :
    e.perform fresh (.send box id message) .full = some e := by
  simp [perform, perform.agreed, send, h, hbox, hsend]

theorem perform_send_gone (h : id ∈ e.present) (hbox : e.mailbox box id = some channel)
    (hgone : channel.receiverAlive = false) :
    e.perform fresh (.send box id message) .gone = some (e.remove id) := by
  have hsend : channel.trySend message = .error .disconnected := by
    rw [Channel.trySend, hgone]
    rfl
  simp [perform, perform.agreed, send, h, hbox, hsend]

theorem perform_send_closed (h : id ∈ e.present) (hbox : e.mailbox box id = none) :
    e.perform fresh (.send box id message) .closed = some e := by
  simp [perform, perform.agreed, send, h, hbox]

theorem perform_send_absent (h : id ∉ e.present) :
    e.perform fresh (.send box id message) .absent = some e := by
  simp [perform, perform.agreed, send, h]

/-! ## Runs -/

variable {history : List (Event ι κ μ)} {caller k : Nat} {operation : Operation ι κ μ}
  {reply : Reply ι}

/-- A run goes on with an operation. -/
theorem run_operate (hr : (machine ι κ fresh).Run Machine.Free history e)
    (h : e.perform fresh operation reply = some e') :
    (machine ι κ fresh).Run Machine.Free (history ++ [.operated caller operation reply]) e' :=
  hr.step (a := .operate caller operation reply) trivial (by simp [machine, step, h])

/-- A run goes on with the reading of the oldest message. -/
theorem run_read (hr : (machine ι κ fresh).Run Machine.Free history e)
    (hbox : e.mailbox box id = some channel) (hnext : channel.next = some rest)
    (hhead : channel.queue.head? = some message) :
    (machine ι κ fresh).Run Machine.Free (history ++ [.read box id message])
      (e.put box id rest) :=
  hr.step (a := .read box id) trivial (by simp [machine, step, hbox, hnext, hhead])

/-- A run goes on with a reader that goes away. -/
theorem run_close (hr : (machine ι κ fresh).Run Machine.Free history e)
    (hbox : e.mailbox box id = some channel) :
    (machine ι κ fresh).Run Machine.Free (history ++ [.closed box id])
      (e.put box id channel.dropReceiver) :=
  hr.step (a := .close box id) trivial (by simp [machine, step, hbox])

/-- The operations of a caller in a history, with their replies. -/
def operations (caller : Nat) (history : List (Event ι κ μ)) :
    List (Operation ι κ μ × Reply ι) :=
  history.filterMap fun
    | .operated k operation reply => if k = caller then some (operation, reply) else none
    | _ => none

omit [DecidableEq ι] [DecidableEq κ] in
@[simp] theorem operations_nil : operations k ([] : List (Event ι κ μ)) = [] := rfl

omit [DecidableEq ι] [DecidableEq κ] in
@[simp] theorem operations_append (later : List (Event ι κ μ)) :
    operations k (history ++ later) = operations k history ++ operations k later :=
  List.filterMap_append

omit [DecidableEq ι] [DecidableEq κ] in
@[simp] theorem operations_operated :
    operations k [.operated caller operation reply] =
      if caller = k then [(operation, reply)] else [] := by
  by_cases h : caller = k <;> simp [operations, h]

omit [DecidableEq ι] [DecidableEq κ] in
theorem mem_of_operations (h : operations k history = [(operation, reply)]) :
    .operated k operation reply ∈ history := by
  have hmem : (operation, reply) ∈ operations k history := by
    rw [h]
    exact List.mem_singleton_self _
  obtain ⟨event, hevent, heq⟩ := List.mem_filterMap.mp hmem
  cases event with
  | operated j operation' reply' =>
    simp only [Option.ite_none_right_eq_some, Option.some.injEq, Prod.mk.injEq] at heq
    obtain ⟨rfl, rfl, rfl⟩ := heq
    exact hevent
  | read _ _ _ => simp at heq
  | closed _ _ => simp at heq

/-! ## Peers that have gone -/

/-- The operation has taken the peer out. -/
def Departs (id : ι) : Operation ι κ μ → Reply ι → Prop
  | .leave x, .left => x = id
  | .send _ x _, .gone => x = id
  | _, _ => False

/-- The reply of an operation after the peer has gone. -/
def Misses (id : ι) : Operation ι κ μ → Reply ι → Prop
  | .list _, .others ids => id ∉ ids
  | .leave x, reply => x = id → reply = .absent
  | .listen _ x, reply => x = id → reply = .absent
  | .send _ x _, reply => x = id → reply = .absent
  | _, _ => True

/-- The peer was there and is not any more. -/
def Gone (e : Exchange ι κ μ) (id : ι) : Prop := id ∈ e.used ∧ id ∉ e.present

/-- An operation that takes a peer out leaves it gone. -/
theorem gone_of_departs (h : e.perform fresh operation reply = some e')
    (hd : Departs id operation reply) : e'.Gone id := by
  cases operation with
  | leave x =>
    cases reply with
    | left =>
      obtain rfl : x = id := hd
      simp only [perform, perform.agreed, leave] at h
      split at h
      · rename_i hx
        obtain rfl := Option.some.inj ((if_pos rfl).symm.trans h)
        exact ⟨e.present_used hx, Finset.notMem_erase x _⟩
      · simp at h
    | _ => exact hd.elim
  | send box x message =>
    cases reply with
    | gone =>
      obtain rfl : x = id := hd
      simp only [perform, perform.agreed, send] at h
      split at h
      · rename_i hx
        split at h
        · simp at h
        · split at h
          · simp at h
          · simp at h
          · obtain rfl := Option.some.inj ((if_pos rfl).symm.trans h)
            exact ⟨e.present_used hx, Finset.notMem_erase x _⟩
      · simp at h
    | _ => exact hd.elim
  | _ => exact hd.elim

/-- A peer that is gone stays gone, and every reply says so. -/
theorem gone_kept (h : e.perform fresh operation reply = some e') (hg : e.Gone id) :
    Misses id operation reply ∧ e'.Gone id := by
  obtain ⟨hused, hno⟩ := hg
  have hagreed {out : Reply ι × Exchange ι κ μ} {x : ι} (h : perform.agreed reply out = some e')
      (habsent : x ∉ e.present → out = (.absent, e))
      (hout : out.2.used = e.used ∧ out.2.present ⊆ e.present) :
      (x = id → reply = .absent) ∧ e'.Gone id := by
    obtain ⟨hreply, h⟩ := Option.ite_none_right_eq_some.mp h
    obtain rfl := Option.some.inj h
    refine ⟨fun hx => ?_, by rw [hout.1]; exact hused, fun hin => hno (hout.2 hin)⟩
    rw [← hreply, habsent (hx ▸ hno)]
  cases operation with
  | join =>
    cases reply with
    | joined x =>
      obtain ⟨hx, h⟩ := Option.ite_none_left_eq_some.mp h
      obtain rfl := Option.some.inj h
      refine ⟨trivial, Finset.mem_insert_of_mem hused, fun hin => ?_⟩
      rcases Finset.mem_insert.mp hin with rfl | hin
      · exact hx hused
      · exact hno hin
    | _ => simp [perform] at h
  | list x =>
    cases reply with
    | others ids =>
      obtain ⟨⟨_, hids⟩, h⟩ := Option.ite_none_right_eq_some.mp h
      obtain rfl := Option.some.inj h
      refine ⟨fun hin => ?_, hused, hno⟩
      rw [← List.mem_toFinset, hids] at hin
      exact hno (Finset.mem_of_mem_erase hin)
    | _ => simp [perform] at h
  | leave x =>
    refine hagreed h (fun hx => by rw [leave, if_neg hx]) ?_
    rw [leave]
    split
    · exact ⟨rfl, Finset.erase_subset _ _⟩
    · exact ⟨rfl, Finset.Subset.refl _⟩
  | listen box x =>
    refine hagreed h (fun hx => by rw [listen, if_neg hx]) ?_
    rw [listen]
    split
    · split <;> exact ⟨rfl, Finset.Subset.refl _⟩
    · exact ⟨rfl, Finset.Subset.refl _⟩
  | send box x message =>
    refine hagreed h (fun hx => by rw [send, if_neg hx]) ?_
    rw [send]
    split
    · split
      · exact ⟨rfl, Finset.Subset.refl _⟩
      · split
        · exact ⟨rfl, Finset.Subset.refl _⟩
        · exact ⟨rfl, Finset.Subset.refl _⟩
        · exact ⟨rfl, Finset.erase_subset _ _⟩
    · exact ⟨rfl, Finset.Subset.refl _⟩

/-- A step is an operation with its reply, or it leaves the peers alone. -/
theorem step_cases {a : Action ι κ μ} {evs : List (Event ι κ μ)}
    (h : (machine ι κ fresh).step e a = some (e', evs)) :
    (∃ caller operation reply, e.perform fresh operation reply = some e' ∧
        evs = [.operated caller operation reply]) ∨
      (e'.used = e.used ∧ e'.present = e.present ∧
        ∀ caller operation reply, .operated caller operation reply ∉ evs) := by
  cases a with
  | operate caller operation reply =>
    obtain ⟨out, hperf, heq⟩ := Option.map_eq_some_iff.mp h
    obtain ⟨rfl, rfl⟩ := Prod.mk.inj heq
    exact Or.inl ⟨caller, operation, reply, hperf, rfl⟩
  | read box id =>
    simp only [machine, step] at h
    split at h
    · simp at h
    · split at h
      · obtain ⟨rfl, rfl⟩ := Prod.mk.inj (Option.some.inj h)
        exact Or.inr ⟨rfl, rfl, by simp⟩
      · simp at h
  | close box id =>
    obtain ⟨channel, _, heq⟩ := Option.map_eq_some_iff.mp h
    obtain ⟨rfl, rfl⟩ := Prod.mk.inj heq
    exact Or.inr ⟨rfl, rfl, by simp⟩

/-- What an operation of the history has taken out is gone. -/
theorem gone_of_mem (hr : (machine ι κ fresh).Run Machine.Free history e)
    (hmem : .operated caller operation reply ∈ history) (hd : Departs id operation reply) :
    e.Gone id := by
  refine hr.invariant (I := fun history e =>
    .operated caller operation reply ∈ history → e.Gone id) (by simp) ?_ hmem
  intro history e a e' evs _ ih _ hs hmem
  rcases step_cases hs with ⟨caller', operation', reply', hperf, rfl⟩ | ⟨hused, hpresent, hno⟩
  · rcases List.mem_append.mp hmem with hold | hnew
    · exact (gone_kept hperf (ih hold)).2
    · obtain ⟨_, rfl, rfl⟩ := Event.operated.inj (List.mem_singleton.mp hnew)
      exact gone_of_departs hperf hd
  · rcases List.mem_append.mp hmem with hold | hnew
    · rw [Gone, hused, hpresent]
      exact ih hold
    · exact absurd hnew (hno _ _ _)

/-- The replies after an operation that has taken a peer out all miss it. -/
theorem misses_of_departs (hr : (machine ι κ fresh).Run Machine.Free history e)
    {before after : List (Event ι κ μ)} {caller' : Nat} {operation' : Operation ι κ μ}
    {reply' : Reply ι} (he : history = before ++ .operated caller' operation' reply' :: after)
    (hmem : .operated caller operation reply ∈ before) (hd : Departs id operation reply) :
    Misses id operation' reply' := by
  refine hr.emitted (Q := fun before => .operated caller operation reply ∈ before →
    Misses id operation' reply') ?_ before after he hmem
  intro history e a e' before after hr _ hs hmem
  rcases step_cases hs with ⟨_, _, _, hperf, hevs⟩ | ⟨_, _, hno⟩
  · rcases before with _ | ⟨_, before⟩
    · obtain ⟨_, rfl, rfl⟩ := Event.operated.inj (List.cons.inj hevs).1
      rw [List.append_nil] at hmem
      exact (gone_kept hperf (gone_of_mem hr hmem hd)).1
    · simp at hevs
  · exact absurd (by simp) (hno caller' operation' reply')

end

end Exchange

end JustWebrtc
