import JustWebrtc.Connection.State
import JustWebrtc.Core.Decimal

/-!
# Building the data channels of an offerer

The builder takes either a remote offer or channel options. As an offerer it creates a channel
for each option, in order, under its label prefix followed by its position. Positions are not
padded, so two labels are equal where one prefix ends in the leading digits of the other's
position. In a browser each channel is also given an identifier, the negotiated one or else its
position cast to 16 bits, whether or not another channel has that identifier.
-/

namespace JustWebrtc.Connection

/-- `SDPType`. -/
inductive SDPType
  | offer
  | pranswer
  | answer
  | rollback
  deriving DecidableEq, Repr

/-- `SessionDescription`. -/
structure SessionDescription where
  sdpType : SDPType
  sdp : String
  deriving DecidableEq, Repr

/-- `DataChannelOptions`. -/
structure DataChannelOptions where
  ordered : Option Bool := none
  maxPacketLifeTime : Option UInt16 := none
  maxRetransmits : Option UInt16 := none
  protocol : Option String := none
  negotiated : Option UInt16 := none
  deriving DecidableEq, Repr

/-- `PeerConnectionBuilderError`. -/
inductive PeerConnectionBuilderError
  | conflictingBuildOptions
  deriving DecidableEq, Repr

/-- The text of an error. -/
def PeerConnectionBuilderError.message : PeerConnectionBuilderError → String
  | .conflictingBuildOptions => "remote offer is mutually exclusive with channel settings!"

/-- `PeerConnectionBuilder`, with what decides on its channels. -/
structure PeerConnectionBuilder where
  remoteOffer : Option SessionDescription
  channelOptions : List (String × DataChannelOptions)
  deriving DecidableEq, Repr

namespace PeerConnectionBuilder

/-- `PeerConnectionBuilder::new`. -/
def new : PeerConnectionBuilder where
  remoteOffer := none
  channelOptions := []

/-- `with_remote_offer`. -/
def withRemoteOffer (b : PeerConnectionBuilder) (set : Option SessionDescription) :
    Except PeerConnectionBuilderError PeerConnectionBuilder :=
  if b.channelOptions.isEmpty then .ok { b with remoteOffer := set }
  else .error .conflictingBuildOptions

/-- `with_channel_options`. -/
def withChannelOptions (b : PeerConnectionBuilder) (set : List (String × DataChannelOptions)) :
    Except PeerConnectionBuilderError PeerConnectionBuilder :=
  if b.remoteOffer.isNone then .ok { b with channelOptions := set }
  else .error .conflictingBuildOptions

end PeerConnectionBuilder

/-- The options of a native data channel. -/
structure RTCDataChannelInit where
  ordered : Option Bool
  maxPacketLifeTime : Option UInt16
  maxRetransmits : Option UInt16
  protocol : Option String
  negotiated : Option UInt16
  deriving DecidableEq, Repr

/-- The options dictionary of a browser's data channel; an entry may be missing. -/
structure RtcDataChannelInit where
  ordered : Option Bool := none
  maxPacketLifeTime : Option UInt16 := none
  maxRetransmits : Option UInt16 := none
  protocol : Option String := none
  negotiated : Option Bool := none
  id : Option UInt16 := none
  deriving DecidableEq, Repr

/-- `From<DataChannelOptions>`. -/
def RTCDataChannelInit.ofOptions (value : DataChannelOptions) : RTCDataChannelInit where
  ordered := value.ordered
  maxPacketLifeTime := value.maxPacketLifeTime
  maxRetransmits := value.maxRetransmits
  protocol := value.protocol
  negotiated := value.negotiated

/-- The dictionary of the channel at a position: options that are given are set, and the
identifier is the negotiated one or else the position. -/
def RtcDataChannelInit.ofOptions (index : Nat) (value : DataChannelOptions) :
    RtcDataChannelInit where
  ordered := value.ordered
  maxPacketLifeTime := value.maxPacketLifeTime
  maxRetransmits := value.maxRetransmits
  protocol := value.protocol
  negotiated := value.negotiated.map fun _ => true
  id := some (match value.negotiated with
    | some id => id
    | none => UInt16.ofNat index)

/-- The options that a platform creates a channel with. -/
def Platform.DataChannelInit : Platform → Type
  | .native => RTCDataChannelInit
  | .wasm => RtcDataChannelInit

/-- The loop over the channel options: the label and the options of each created channel. -/
def createDataChannels : (platform : Platform) → List (String × DataChannelOptions) →
    List (String × platform.DataChannelInit)
  | .native, channelOptions => channelOptions.zipIdx.map fun ((labelPrefix, options), index) =>
      (labelPrefix ++ toString index, RTCDataChannelInit.ofOptions options)
  | .wasm, channelOptions => channelOptions.zipIdx.map fun ((labelPrefix, options), index) =>
      (labelPrefix ++ toString index, RtcDataChannelInit.ofOptions index options)

/-- The channels that `build` creates: none as an answerer, which receives them. -/
def PeerConnectionBuilder.build (platform : Platform) (b : PeerConnectionBuilder) :
    List (String × platform.DataChannelInit) :=
  match b.remoteOffer with
  | some _ => []
  | none => createDataChannels platform b.channelOptions

/-! ## Labels -/

/-- The label of the channel at a position. -/
theorem label_getElem? (platform : Platform) (set : List (String × DataChannelOptions)) (i : Nat) :
    ((createDataChannels platform set).map Prod.fst)[i]? =
      set[i]?.map fun entry => entry.1 ++ i.repr := by
  cases platform <;>
    simp [createDataChannels, List.getElem?_map, List.getElem?_zipIdx, Function.comp_def,
      Option.map_map]

/-- Two positions collide: the lower digits of the later one are the earlier position, and the
earlier prefix is the later one followed by the leading digits. -/
def Collides (set : List (String × DataChannelOptions)) (i j : Nat) : Prop :=
  j % 10 ^ Decimal.places i = i ∧ ∃ entry entry', set[i]? = some entry ∧ set[j]? = some entry' ∧
    entry.1 = entry'.1 ++ (j / 10 ^ Decimal.places i).repr

/-- Two labels are equal where their positions collide. -/
theorem label_eq_iff (platform : Platform) {set : List (String × DataChannelOptions)} {i j : Nat}
    (hij : i < j) (hj : j < set.length) :
    ((createDataChannels platform set).map Prod.fst)[i]? =
      ((createDataChannels platform set).map Prod.fst)[j]? ↔ Collides set i j := by
  have hi : i < set.length := hij.trans hj
  rw [label_getElem?, label_getElem?, List.getElem?_eq_getElem hi, List.getElem?_eq_getElem hj,
    Option.map_some, Option.map_some, Option.some.injEq, Decimal.name_eq_iff hij]
  simp [Collides, hi, hj]

/-- The labels of a list of channel options are distinct if and only if no positions collide. -/
theorem labels_nodup (platform : Platform) (set : List (String × DataChannelOptions)) :
    ((createDataChannels platform set).map Prod.fst).Nodup ↔
      ∀ i j, i < j → j < set.length → ¬ Collides set i j := by
  rw [List.nodup_iff_getElem?_ne_getElem?]
  have hlength : ((createDataChannels platform set).map Prod.fst).length = set.length := by
    cases platform <;> simp [createDataChannels]
  rw [hlength]
  exact forall₄_congr fun i j hij hj => not_congr (label_eq_iff platform hij hj)

/-- Positions with one digit do not collide. -/
theorem not_collides_of_lt_ten {set : List (String × DataChannelOptions)} {i j : Nat}
    (hij : i < j) (hj : j < 10) : ¬ Collides set i j := by
  rintro ⟨hmod, -⟩
  have hlt : j < 10 ^ Decimal.places i :=
    (Nat.length_repr_le_iff Nat.length_repr_pos).mp (by
      rw [Nat.repr_of_lt hj, String.length_singleton]
      exact Nat.length_repr_pos)
  rw [Nat.mod_eq_of_lt hlt] at hmod
  omega

/-- Positions under the same prefix do not collide. -/
theorem not_collides_of_same {set : List (String × DataChannelOptions)} {labelPrefix : String}
    (h : ∀ entry ∈ set, entry.1 = labelPrefix) (i j : Nat) : ¬ Collides set i j := by
  rintro ⟨-, entry, entry', hi, hj, heq⟩
  rw [h entry (List.mem_of_getElem? hi), h entry' (List.mem_of_getElem? hj)] at heq
  have hlength := congrArg String.length heq
  rw [String.length_append] at hlength
  have hpos : 0 < (j / 10 ^ Decimal.places i).repr.length := Nat.length_repr_pos
  omega

/-- The labels of at most ten channels, and all labels under one prefix, are distinct. -/
theorem labels_nodup_of_plain (platform : Platform) {set : List (String × DataChannelOptions)}
    (h : set.length ≤ 10 ∨ ∃ labelPrefix, ∀ entry ∈ set, entry.1 = labelPrefix) :
    ((createDataChannels platform set).map Prod.fst).Nodup := by
  refine (labels_nodup platform set).mpr fun i j hij hj => ?_
  rcases h with hten | ⟨labelPrefix, hsame⟩
  · exact not_collides_of_lt_ten hij (hj.trans_le hten)
  · exact not_collides_of_same hsame i j

/-- The channel options that were accepted are those of an offerer. -/
theorem PeerConnectionBuilder.build_of_withChannelOptions {b b' : PeerConnectionBuilder}
    {set : List (String × DataChannelOptions)} (h : b.withChannelOptions set = .ok b')
    (platform : Platform) : b'.build platform = createDataChannels platform set := by
  rw [withChannelOptions] at h
  split at h
  · rename_i hnone
    rw [Except.ok.injEq] at h
    rw [← h, build, Option.isNone_iff_eq_none.mp hnone]
  · simp at h

namespace PeerConnectionBuilder

/-- The labels of the channels that an offerer creates are distinct if and only if no two
positions collide. -/
theorem labels_distinct {b b' : PeerConnectionBuilder} {set : List (String × DataChannelOptions)}
    (h : b.withChannelOptions set = .ok b') (platform : Platform) :
    ((b'.build platform).map Prod.fst).Nodup ↔
      ∀ i j, i < j → j < set.length → ¬ Collides set i j := by
  rw [build_of_withChannelOptions h]
  exact labels_nodup platform set

/-- Two channels, one under a prefix that ends in a digit. -/
theorem labels_distinct_two : ∃ b', new.withChannelOptions [("ch", {}), ("ch1", {})] = .ok b' ∧
    ((b'.build .wasm).map Prod.fst).Nodup := by
  have hset : new.withChannelOptions [("ch", {}), ("ch1", {})] =
      .ok ⟨none, [("ch", {}), ("ch1", {})]⟩ := rfl
  refine ⟨_, hset, (labels_distinct hset .wasm).mpr fun i j hij hj => ?_⟩
  exact not_collides_of_lt_ten hij (hj.trans (by decide))

/-- Eleven channels, the first under the prefix of the others and a digit: the first and the last
have the same label. -/
theorem labels_equal : ∃ b', new.withChannelOptions
      (("ch1", {}) :: List.replicate 10 ("ch", {})) = .ok b' ∧
    ((b'.build .native).map Prod.fst)[0]? = ((b'.build .native).map Prod.fst)[10]? ∧
    ((b'.build .wasm).map Prod.fst)[0]? = ((b'.build .wasm).map Prod.fst)[10]? ∧
    ¬ ((b'.build .native).map Prod.fst).Nodup ∧ ¬ ((b'.build .wasm).map Prod.fst).Nodup := by
  have hcollides : Collides (("ch1", {}) :: List.replicate 10 ("ch", {})) 0 10 :=
    ⟨by decide, _, _, rfl, rfl, by decide⟩
  have hequal (platform : Platform) := (label_eq_iff platform (by decide) (by decide)).mpr hcollides
  refine ⟨_, rfl, hequal .native, hequal .wasm, fun hnodup => ?_, fun hnodup => ?_⟩
  · exact (labels_nodup .native _).mp hnodup 0 10 (by decide) (by decide) hcollides
  · exact (labels_nodup .wasm _).mp hnodup 0 10 (by decide) (by decide) hcollides

end PeerConnectionBuilder

/-! ## Identifiers -/

/-- The identifiers in the dictionaries of the channels. -/
def channelIds (channels : List (String × RtcDataChannelInit)) : List UInt16 :=
  channels.filterMap fun channel => channel.2.id

/-- The identifiers that are negotiated explicitly. -/
def negotiatedIds (set : List (String × DataChannelOptions)) : List UInt16 :=
  set.filterMap fun entry => entry.2.negotiated

/-- Every dictionary has an identifier. -/
theorem channelIds_eq (set : List (String × DataChannelOptions)) :
    channelIds (createDataChannels .wasm set) =
      set.zipIdx.map fun x => x.1.2.negotiated.getD (UInt16.ofNat x.2) := by
  change channelIds (set.zipIdx.map fun x =>
    (x.1.1 ++ toString x.2, RtcDataChannelInit.ofOptions x.2 x.1.2)) = _
  rw [channelIds, List.filterMap_map, ← List.filterMap_eq_map]
  congr 1
  funext x
  cases h : x.1.2.negotiated <;> simp [RtcDataChannelInit.ofOptions, h]

/-- There are as many identifiers as channel options. -/
theorem length_channelIds (set : List (String × DataChannelOptions)) :
    (channelIds (createDataChannels .wasm set)).length = set.length := by
  rw [channelIds_eq, List.length_map, List.length_zipIdx]

/-- The identifier of the channel at a position. -/
theorem channelIds_getElem? (set : List (String × DataChannelOptions)) (i : Nat) :
    (channelIds (createDataChannels .wasm set))[i]? =
      set[i]?.map fun entry => entry.2.negotiated.getD (UInt16.ofNat i) := by
  rw [channelIds_eq, List.getElem?_map, List.getElem?_zipIdx, Option.map_map]
  simp [Function.comp_def]

/-- No position of a channel without a negotiated identifier is one that is negotiated. -/
def PositionsFree (set : List (String × DataChannelOptions)) : Prop :=
  ∀ i entry, set[i]? = some entry → entry.2.negotiated = none →
    ∀ id ∈ negotiatedIds set, id.toNat ≠ i

/-- Different positions have different negotiated identifiers. -/
theorem position_eq_of_negotiated {set : List (String × DataChannelOptions)}
    (h : (negotiatedIds set).Nodup) {i j : Nat} {entry entry' : String × DataChannelOptions}
    {id : UInt16} (hi : set[i]? = some entry) (hj : set[j]? = some entry')
    (hid : entry.2.negotiated = some id) (hid' : entry'.2.negotiated = some id) : i = j := by
  have hpairs := List.pairwise_iff_getElem.mp (List.pairwise_filterMap.mp h)
  obtain ⟨hilt, rfl⟩ := List.getElem?_eq_some_iff.mp hi
  obtain ⟨hjlt, rfl⟩ := List.getElem?_eq_some_iff.mp hj
  rcases Nat.lt_trichotomy i j with hlt | heq | hlt
  · exact absurd rfl (hpairs i j hilt hjlt hlt id hid id hid')
  · exact heq
  · exact absurd rfl (hpairs j i hjlt hilt hlt id hid' id hid)

/-- Distinct identifiers of 16 bits are not more than there are. -/
theorem length_le_of_channelIds_nodup {set : List (String × DataChannelOptions)}
    (h : (channelIds (createDataChannels .wasm set)).Nodup) : set.length ≤ 2 ^ 16 := by
  have hfin : ((channelIds (createDataChannels .wasm set)).map UInt16.toFin).Nodup :=
    h.map fun id id' => UInt16.toFin_inj.mp
  have hle := hfin.length_le_card
  rwa [List.length_map, length_channelIds, Fintype.card_fin] at hle

/-- Distinct identifiers leave the positions free. -/
theorem positionsFree_of_channelIds_nodup {set : List (String × DataChannelOptions)}
    (h : (channelIds (createDataChannels .wasm set)).Nodup) : PositionsFree set := by
  intro i entry hi hnone id hid heq
  obtain ⟨entry', hmem, hid'⟩ := List.mem_filterMap.mp hid
  obtain ⟨j, hj⟩ := List.mem_iff_getElem?.mp hmem
  have hlt : i < (channelIds (createDataChannels .wasm set)).length := by
    rw [length_channelIds]
    exact (List.getElem?_eq_some_iff.mp hi).1
  -- both positions have the negotiated identifier
  have hsame : (channelIds (createDataChannels .wasm set))[i]? =
      (channelIds (createDataChannels .wasm set))[j]? := by
    rw [channelIds_getElem?, channelIds_getElem?, hi, hj, Option.map_some, Option.map_some, hnone,
      hid', Option.getD_none, Option.getD_some, ← heq, UInt16.ofNat_toNat]
  obtain rfl := (List.getElem?_inj hlt h).mp hsame
  obtain rfl := Option.some.inj (hi.symm.trans hj)
  simp [hnone] at hid'

/-- The identifiers are distinct where the negotiated ones are distinct, the positions fit in 16
bits, and the positions that are used are free. -/
theorem channelIds_nodup {set : List (String × DataChannelOptions)} (h : (negotiatedIds set).Nodup)
    (hlength : set.length ≤ 2 ^ 16) (hfree : PositionsFree set) :
    (channelIds (createDataChannels .wasm set)).Nodup := by
  have hfits {i : Nat} (hi : i < set.length) : (UInt16.ofNat i).toNat = i :=
    UInt16.toNat_ofNat_of_lt' (hi.trans_le hlength)
  have hnegotiated {i : Nat} {entry : String × DataChannelOptions} {id : UInt16}
      (hi : set[i]? = some entry) (hid : entry.2.negotiated = some id) : id ∈ negotiatedIds set :=
    List.mem_filterMap.mpr ⟨entry, List.mem_of_getElem? hi, hid⟩
  rw [List.nodup_iff_getElem?_ne_getElem?, length_channelIds]
  intro i j hij hj heq
  have hi : i < set.length := hij.trans hj
  have hgeti := List.getElem?_eq_getElem hi
  have hgetj := List.getElem?_eq_getElem hj
  rw [channelIds_getElem?, channelIds_getElem?, hgeti, hgetj, Option.map_some, Option.map_some,
    Option.some.injEq] at heq
  cases hid : set[i].2.negotiated with
  | none =>
    cases hid' : set[j].2.negotiated with
    | none =>
      rw [hid, hid', Option.getD_none, Option.getD_none, ← UInt16.toNat_inj, hfits hi,
        hfits hj] at heq
      exact hij.ne heq
    | some id =>
      rw [hid, hid', Option.getD_none, Option.getD_some] at heq
      exact hfree i _ hgeti hid id (hnegotiated hgetj hid') (by rw [← heq, hfits hi])
  | some id =>
    cases hid' : set[j].2.negotiated with
    | none =>
      rw [hid, hid', Option.getD_none, Option.getD_some] at heq
      exact hfree j _ hgetj hid' id (hnegotiated hgeti hid) (by rw [heq, hfits hj])
    | some id' =>
      rw [hid, hid', Option.getD_some, Option.getD_some] at heq
      subst heq
      exact hij.ne (position_eq_of_negotiated h hgeti hgetj hid hid')

namespace PeerConnectionBuilder

/-- Where the negotiated identifiers are distinct, the identifiers of the channels that a browser
creates as an offerer are distinct if and only if there are at most `2 ^ 16` channels and no
position of one without a negotiated identifier is negotiated. -/
theorem channel_ids_distinct {b b' : PeerConnectionBuilder}
    {set : List (String × DataChannelOptions)} (h : b.withChannelOptions set = .ok b')
    (hnegotiated : (negotiatedIds set).Nodup) :
    (channelIds (b'.build .wasm)).Nodup ↔ set.length ≤ 2 ^ 16 ∧ PositionsFree set := by
  rw [build_of_withChannelOptions h]
  constructor
  · intro hnodup
    exact ⟨length_le_of_channelIds_nodup hnodup, positionsFree_of_channelIds_nodup hnodup⟩
  · rintro ⟨hlength, hfree⟩
    exact channelIds_nodup hnegotiated hlength hfree

/-- A channel with a negotiated identifier between two without, beyond their positions. -/
theorem channel_ids_distinct_reserved : ∃ b',
    new.withChannelOptions [("ch", {}), ("ch", { negotiated := some 7 }), ("ch", {})] = .ok b' ∧
      (channelIds (b'.build .wasm)).Nodup := by
  have hset : new.withChannelOptions [("ch", {}), ("ch", { negotiated := some 7 }), ("ch", {})] =
      .ok ⟨none, [("ch", {}), ("ch", { negotiated := some 7 }), ("ch", {})]⟩ := rfl
  refine ⟨_, hset, (channel_ids_distinct hset (by decide)).mpr ⟨by decide, ?_⟩⟩
  intro i entry hi _ id hid
  have hlt : i < 3 := (List.getElem?_eq_some_iff.mp hi).1
  obtain rfl : id = 7 := by simpa [negotiatedIds] using hid
  exact (hlt.trans (by decide)).ne'

/-- The position of the first channel is the identifier that is negotiated for the second, and
of `2 ^ 16 + 1` channels without negotiated identifiers two have the same. -/
theorem channel_ids_equal :
    (∃ b', new.withChannelOptions [("ch", {}), ("ch", { negotiated := some 0 })] = .ok b' ∧
      (negotiatedIds [("ch", {}), ("ch", { negotiated := some 0 })]).Nodup ∧
      channelIds (b'.build .wasm) = [0, 0] ∧ ¬ (channelIds (b'.build .wasm)).Nodup) ∧
    ∃ b', new.withChannelOptions (List.replicate (2 ^ 16 + 1) ("ch", {})) = .ok b' ∧
      (negotiatedIds (List.replicate (2 ^ 16 + 1) ("ch", {}))).Nodup ∧
      ¬ (channelIds (b'.build .wasm)).Nodup := by
  refine ⟨⟨_, rfl, by decide, by decide, by decide⟩, ?_⟩
  have hset : new.withChannelOptions (List.replicate (2 ^ 16 + 1) ("ch", {})) =
      .ok ⟨none, List.replicate (2 ^ 16 + 1) ("ch", {})⟩ := rfl
  refine ⟨_, hset, ?_, fun hnodup => ?_⟩
  · rw [negotiatedIds, List.filterMap_replicate]
    exact List.nodup_nil
  · rw [build_of_withChannelOptions hset] at hnodup
    have hle := length_le_of_channelIds_nodup hnodup
    rw [List.length_replicate] at hle
    exact absurd hle (by decide)

end PeerConnectionBuilder

end JustWebrtc.Connection
