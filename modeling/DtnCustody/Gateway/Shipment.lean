/-
# DtnCustody.Gateway.Shipment — a payload under way as fragments, and the receipt it is accepted with.

The receipt of `makeBundles` travels as the canonical text of a record in a CBOR array of one. It is a flat
record, so what `JSON.parse` makes of the text verifies like the record itself, and a bundle that carries it
with the whole payload is accepted (`verifyIngress_made`).

A shipment is a payload with the bundles that `makeBundles` made of it. Its fragments share one key in
the gateway's map, no other bundle has it, and the entry there holds the slices of the payload that
have arrived (`Holds`). One more fragment adds its slice; the last one makes the payload whole
(`storeFragment_made`, `finish_made`).
-/
import DtnCustody.Gateway.Assembly
import DtnCustody.Gateway.Fragments

namespace DtnCustody

open Base Js

namespace Gateway

variable {H : GatewayHost} {a : BundleArgs}

/-! ## The content -/

theorem mem_ingressContent {receivedAt : JsString} {p : JsString × Json}
    (h : p ∈ ingressContent H a receivedAt) : (∃ name s, name ∈ ["kind", "gateway", "from", "source",
      "dest", "payloadHash", "receivedAt"] ∧ p = (js name, .str s)) ∨
    p = (js "payloadBytes", .int a.payload.length) := by
  have hoptional : ∀ {name : String} {v : Option JsString}, p ∈ optional name v →
      ∃ s, p = (js name, .str s) := by
    intro name v hp
    cases v with
    | none => cases hp
    | some s => exact ⟨s, List.mem_singleton.mp hp⟩
  rw [ingressContent, List.mem_append, List.mem_append, List.mem_cons] at h
  rcases h with ((rfl | h) | h) | h
  · exact Or.inl ⟨"kind", _, by simp, rfl⟩
  · obtain ⟨s, rfl⟩ := hoptional h
    exact Or.inl ⟨"gateway", s, by simp, rfl⟩
  · obtain ⟨s, rfl⟩ := hoptional h
    exact Or.inl ⟨"from", s, by simp, rfl⟩
  · simp only [List.mem_cons, List.not_mem_nil, or_false] at h
    rcases h with rfl | rfl | rfl | rfl | rfl
    · exact Or.inl ⟨"source", _, by simp, rfl⟩
    · exact Or.inl ⟨"dest", _, by simp, rfl⟩
    · exact Or.inl ⟨"payloadHash", _, by simp, rfl⟩
    · exact Or.inr rfl
    · exact Or.inl ⟨"receivedAt", _, by simp, rfl⟩

theorem plain_ingressContent (receivedAt : JsString) :
    Receipt.Plain (ingressContent H a receivedAt) := by
  intro p hp name hname heq
  have hname : name ∈ ["claimId", "sig", "signerPub"] := hname
  rcases mem_ingressContent hp with ⟨other, s, hother, rfl⟩ | rfl
  · rw [js_inj] at heq
    subst heq
    revert hname
    simp only [List.mem_cons, List.not_mem_nil, or_false] at hother
    rcases hother with rfl | rfl | rfl | rfl | rfl | rfl | rfl <;> decide
  · rw [js_inj] at heq
    subst heq
    revert hname
    decide

theorem flat_ingressContent (receivedAt : JsString) : Json.Flat (ingressContent H a receivedAt) := by
  refine ⟨?_, ?_, ?_⟩
  · rw [Json.DistinctKeys, ingressContent]
    cases a.gateway <;> cases a.sender <;> simp [optional, js_inj]
  · intro p hp
    rcases mem_ingressContent hp with ⟨name, s, hname, rfl⟩ | rfl
    · rw [ne_eq, js_inj]
      rintro rfl
      revert hname
      decide
    · rw [ne_eq, js_inj]
      decide
  · intro p hp
    rcases mem_ingressContent hp with ⟨_, _, _, rfl⟩ | rfl <;> rfl

theorem get_ingressContent (receivedAt : JsString) :
    (Json.obj (ingressContent H a receivedAt)).get "payloadHash" = some (.str (sha256 H a.payload)) ∧
      (Json.obj (ingressContent H a receivedAt)).get "gateway" = a.gateway.map Json.str := by
  constructor
  · show Json.property (ingressContent H a receivedAt) (js "payloadHash") = _
    unfold ingressContent
    cases a.gateway <;> cases a.sender <;> simp [optional, js_inj, Json.property]
  · show Json.property (ingressContent H a receivedAt) (js "gateway") = _
    unfold ingressContent
    cases a.gateway <;> cases a.sender <;> simp [optional, js_inj, Json.property]

/-! ## What is read of it -/

theorem payloadOf_made {extra : List BlockObject} (hextra : IsExtra extra) {b : Bundle} {part : Bytes}
    (h : b.blocks = (extra ++ [payloadBlock part]).map BlockObject.filled) : b.payloadOf = .ok part := by
  have hfind : ([payloadBlock part].map BlockObject.filled).find?
      (fun x => x.type = Bundle.payloadType) = some (payloadBlock part).filled :=
    List.find?_cons_of_pos (decide_eq_true rfl)
  unfold Bundle.payloadOf
  rw [h]
  rcases hextra with rfl | ⟨data, rfl⟩
  · rw [List.nil_append, hfind]
    rfl
  · have hne : (ingressBlock data).filled.type ≠ Bundle.payloadType := by
      show Cbor.int 226 ≠ .int 1
      simp
    rw [List.singleton_append, List.map_cons, List.find?_cons_of_neg (by simpa using hne), hfind]
    rfl

/-- The text in an ingress block is read back as the text. -/
theorem readIngress_encoded {text : JsString} {data : Bytes} (hwf : WellFormed text)
    (hdata : (Cbor.Item.array [.text text]).encodeItem = .ok data) {v : Json}
    (hparse : Json.parse H.toNode text = some v) : readIngress H data = .ok v := by
  have hlen : (toUtf8 text).length ≤ Cbor.maxBuffer := by
    obtain ⟨c, hc⟩ := Bundle.encodeArray_each hdata (.text text) List.mem_cons_self
    rw [Cbor.Item.encodeItem] at hc
    obtain ⟨_, hhd, _⟩ := Outcome.bind_eq_ok.mp hc
    exact (Cbor.lengthHead_ok hhd).1
  have hplain : Cbor.Item.Plain (.array [.text text]) := by
    refine .array (fun x hx => ?_) (show (1 : Nat) ≤ Cbor.maxBuffer by decide)
    rw [List.mem_singleton.mp hx]
    exact .text hwf hlen
  have hdecode : Cbor.decode data = .ok (.array [.text (String.ofList (scalars text))]) := by
    have h := Cbor.Item.decode_encodeItem hplain (show (1 : Nat) ≤ 32 by decide)
    rw [hdata] at h
    exact h
  have htext : js (String.ofList (scalars text)) = text := by
    rw [js, String.toList_ofList]
    exact hwf
  unfold readIngress
  have hfirst : (Cbor.array [.text (String.ofList (scalars text))]).index 0 =
      .ok (.val (.text (String.ofList (scalars text)))) := rfl
  rw [hdecode, Outcome.ok_bind, hfirst, Outcome.ok_bind]
  dsimp only
  rw [Outcome.ok_bind, Cbor.toText, htext, hparse]
  rfl

/-- The pinned keys, if there are any, have the gateway's key for its name. -/
def Pins (a : BundleArgs) (kp : AgentKey) (pinnedKeys : Option (JsString → Pin)) : Prop :=
  ∀ keys, pinnedKeys = some keys → (keys (a.gateway.getD (js "undefined"))).isKey (.str kp.pub) = true

theorem isPinned_of_pins {kp : AgentKey} {pinnedKeys : Option (JsString → Pin)}
    (hpins : Pins a kp pinnedKeys) {receipt : Json}
    (hgateway : receipt.get "gateway" = a.gateway.map Json.str) :
    isPinned H pinnedKeys receipt (.str kp.pub) = .ok true := by
  cases pinnedKeys with
  | none => rfl
  | some keys =>
      have hname : JsonVal.toStr H.toNode (receipt.get "gateway") =
          .ok (a.gateway.getD (js "undefined")) := by
        rw [hgateway]
        cases a.gateway <;> rfl
      rw [isPinned, hname, Outcome.ok_bind, hpins keys rfl]
      rfl

/-- **A bundle with the blocks of `makeBundles` and the whole payload is accepted.** -/
theorem verifyIngress_made {extra : List BlockObject} (hextra : Gateway.extra H a = .ok extra)
    {kp : AgentKey} (hkp : a.keypair = some kp) (hsigns : Receipt.Signs H.toHost kp)
    (hlen : a.payload.length ≤ 2 ^ 53) {b : Bundle}
    (hblocks : b.blocks = (extra ++ [payloadBlock a.payload]).map BlockObject.filled)
    {pinnedKeys : Option (JsString → Pin)} (hpins : Pins a kp pinnedKeys) :
    ∃ receipt, verifyIngress H b pinnedKeys = .ok (.ok receipt) := by
  have hpayload := payloadOf_made (isExtra_of_ok hextra) hblocks
  rcases extra_ok hextra with ⟨hnone, _⟩ | ⟨kp', receivedAt, v, text, data, hkp', hsign, htext, hdata, rfl⟩
  · rw [hnone] at hkp
    cases hkp
  rw [hkp, Option.some.injEq] at hkp'
  subst hkp'
  have hnumbers : ∀ p ∈ ingressContent H a receivedAt, ∀ x, p.2 = .num x →
      ∃ z : Int, x = .fin z ∧ z.natAbs ≤ 2 ^ 53 := by
    intro p hp x hx
    rcases mem_ingressContent hp with ⟨_, _, _, rfl⟩ | rfl
    · cases hx
    · cases hx
      exact ⟨a.payload.length, rfl, hlen⟩
  obtain ⟨hwf, w, hparse, _, hverify, hget⟩ := Receipt.verifyRecord_parse hsigns
    (plain_ingressContent receivedAt) (flat_ingressContent receivedAt) hnumbers hsign htext
  obtain ⟨hhash, hgateway⟩ := @get_ingressContent H a receivedAt
  have hfield : ∀ {name : String}, name ∈ ["payloadHash", "gateway"] →
      w.get name = (Json.obj (ingressContent H a receivedAt)).get name := by
    intro name hname
    simp only [List.mem_cons, List.not_mem_nil, or_false] at hname
    rcases hname with rfl | rfl
    all_goals
      rw [hget _ (by decide), Receipt.get_signRecord H.toHost hsign]
      all_goals simp [js_inj]
  rw [← hfield (by simp)] at hhash
  rw [← hfield (by simp)] at hgateway
  have hblock : b.ofType ingressBlockType = some (ingressBlock data).filled := by
    rw [Bundle.ofType, hblocks]
    exact List.find?_cons_of_pos (by simp [ingressBlock, BlockObject.filled, ingressBlockType])
  refine ⟨w, ?_⟩
  unfold verifyIngress
  rw [hblock]
  dsimp only
  rw [show (ingressBlock data).filled.data = data from rfl, readIngress_encoded hwf hdata hparse]
  dsimp only
  rw [hverify, Outcome.ok_bind]
  show checkIngress H b pinnedKeys w (.str kp.pub) = _
  rw [checkIngress, isPinned_of_pins hpins hgateway, Outcome.ok_bind, if_neg (by simp), hpayload,
    Outcome.ok_bind, hhash, if_neg (by simp [JsonVal.strictEq])]
  rfl

end Gateway

end DtnCustody

namespace DtnCustody

open Base Js

namespace Gateway

/-! ## Keys -/

/-- The creation timestamp is two integers. -/
def Stamped (p : Primary) : Prop := ∃ time seq : Int, p.created = (.val (.int time), .val (.int seq))

/-- **The key names the source and the timestamp**, whatever characters the source has. -/
theorem keyOf_inj {p q : Primary} (hp : Stamped p) (hq : Stamped q) (h : keyOf p = keyOf q) :
    p.source = q.source ∧ p.created = q.created := by
  obtain ⟨t, n, hp⟩ := hp
  obtain ⟨t', n', hq⟩ := hq
  have htext : ∀ (r : Primary) (t n : Int), r.created = (.val (.int t), .val (.int n)) →
      keyOf r = utf16 ((r.source.toList ++ '|' :: (toString t).toList) ++ '|' :: (toString n).toList) := by
    intro r t n hr
    have hcons : ∀ cs ds : List Char, utf16 (cs ++ '|' :: ds) = utf16 cs ++ js "|" ++ utf16 ds := by
      intro cs ds
      rw [List.append_cons, utf16_append, utf16_append]
      rfl
    rw [keyOf, hr, hcons, hcons]
    simp only [slotText, Cbor.toText, js, List.append_assoc]
  rw [htext p t n hp, htext q t' n' hq] at h
  have hchars := congrArg scalars h
  rw [scalars_utf16, scalars_utf16] at hchars
  obtain ⟨hfront, hn⟩ := append_separator_inj hchars (Json.not_mem_int rfl (by decide) n)
    (Json.not_mem_int rfl (by decide) n')
  obtain ⟨hsource, ht⟩ := append_separator_inj hfront (Json.not_mem_int rfl (by decide) t)
    (Json.not_mem_int rfl (by decide) t')
  rw [hp, hq, Json.toList_int_inj ht, Json.toList_int_inj hn]
  exact ⟨String.toList_inj.mp hsource, rfl⟩

/-! ## Shipments -/

/-- A payload with the bundles that `makeBundles` made of it, `maxPayload` being 1 or more. -/
structure Shipment (H : GatewayHost) where
  args : BundleArgs
  bundles : List Bytes
  made : makeBundles H args = .ok bundles
  size : args.maxPayload.lt (.fin 1) = some false

variable {H : GatewayHost}

theorem IsMade.stamped {a : BundleArgs} {extra : List BlockObject} {place : Option (Nat × Nat)}
    {part : Bytes} {b : Bundle} (h : IsMade a extra place part b) : Stamped b.primary := by
  obtain ⟨time, seq, _, _, hcreated⟩ := h.created
  exact ⟨time, seq, hcreated⟩

/-- All bundles that are made of one payload have one key. -/
theorem IsMade.keyOf_eq {a : BundleArgs} {extra extra' : List BlockObject}
    {place place' : Option (Nat × Nat)} {part part' : Bytes} {b c : Bundle}
    (hb : IsMade a extra place part b) (hc : IsMade a extra' place' part' c) :
    keyOf b.primary = keyOf c.primary := by
  obtain ⟨time, seq, htime, hseq, hb'⟩ := hb.created
  obtain ⟨time', seq', htime', hseq', hc'⟩ := hc.created
  rw [htime, Except.ok.injEq, Cbor.int.injEq] at htime'
  rw [hseq, Except.ok.injEq, Cbor.int.injEq] at hseq'
  rw [keyOf, keyOf, hb', hc', hb.source.unique hc.source, htime', hseq']

namespace Shipment

variable (S : Shipment H)

abbrev payload : Bytes := S.args.payload

/-- The payload is cut into more than one fragment. -/
def isCut : Bool := Gateway.isCut S.args

def fragmentSize : Nat :=
  match S.args.maxPayload with
  | .fin q => ⌊q⌋.toNat
  | _ => 0

/-- The bytes of the `i`-th fragment, with their offset. -/
def slice (i : Nat) : Piece := Piece.slice S.payload S.fragmentSize i

/-- The key of the fragments, as the first of them has it. -/
def key : JsString :=
  match S.bundles.head?.map (Bundle.decodeBundle H.toNode) with
  | some (.ok b) => keyOf b.primary
  | _ => []

variable {S}

theorem isCutInto (h : S.isCut = true) : ∃ extra, Gateway.extra H S.args = .ok extra ∧
    IsCutInto H S.args extra S.fragmentSize S.bundles := by
  obtain ⟨extra, m, hextra, hmax, hcut⟩ := makeBundles_cut S.size h S.made
  have hm : S.fragmentSize = m := by
    rw [fragmentSize, hmax]
    show ⌊((m : Nat) : ℚ)⌋.toNat = m
    rw [Int.floor_natCast, Int.toNat_natCast]
  exact ⟨extra, hextra, hm ▸ hcut⟩

theorem key_eq (h : S.isCut = true) {i : Nat} {buf : Bytes} {b : Bundle}
    (hbuf : S.bundles[i]? = some buf) (hread : Bundle.decodeBundle H.toNode buf = .ok b) :
    keyOf b.primary = S.key := by
  obtain ⟨extra, _, hcut⟩ := isCutInto h
  obtain ⟨_, b', hb', hmade⟩ := hcut.reads i buf hbuf
  rw [hread, Except.ok.injEq] at hb'
  subst hb'
  cases hlist : S.bundles with
  | nil =>
      rw [hlist] at hbuf
      cases hbuf
  | cons first rest =>
      obtain ⟨_, c, hc, hmade'⟩ := hcut.reads 0 first (by rw [hlist]; rfl)
      rw [key, hlist, List.head?_cons, Option.map_some, hc]
      exact hmade.keyOf_eq hmade'

/-! ## What an entry holds -/

/-- The fragments that have arrived, with one more. -/
def visit (l : List Nat) (i : Nat) : List Nat := if i ∈ l then l else l ++ [i]

theorem mem_visit {l : List Nat} {i k : Nat} : k ∈ visit l i ↔ k ∈ l ∨ k = i := by
  unfold visit
  split
  · rename_i hi
    constructor
    · exact Or.inl
    · rintro (h | rfl)
      · exact h
      · exact hi
  · rw [List.mem_append, List.mem_singleton]

theorem nodup_visit {l : List Nat} {i : Nat} (h : l.Nodup) : (visit l i).Nodup := by
  unfold visit
  split
  · exact h
  · rename_i hi
    exact List.Nodup.append h (List.nodup_singleton i) (by simpa using hi)

/-- **The entry holds the fragments `l`**, and the bundle of the first one if it is among them. -/
structure Holds (S : Shipment H) (l : List Nat) (e : Entry) : Prop where
  pieces : HasPieces e S.payload.length (l.map S.slice)
  first : 0 ∈ l → ∃ buf b, S.bundles[0]? = some buf ∧ Bundle.decodeBundle H.toNode buf = .ok b ∧
    e.first = some b

variable {l : List Nat} {e : Entry}

/-- How many bytes the entry counts. -/
theorem Holds.length_sum (h : Holds S l e) :
    (e.parts.map fun p => p.2.length).sum = (l.map fun i => (S.slice i).2.length).sum := by
  rw [h.pieces.parts, List.map_map, List.map_map]
  rfl

/-- A fragment as the gateway reads it. -/
structure Fragment (S : Shipment H) (i : Nat) (b : Bundle) : Prop where
  cut : S.isCut = true
  sent : ∃ buf, S.bundles[i]? = some buf ∧ Bundle.decodeBundle H.toNode buf = .ok b
  flags : b.primary.flags = .int 1
  offset : b.primary.fragmentOffset = some (.int (S.slice i).1)
  total : b.primary.totalAduLength = some (.int S.payload.length)
  payload : b.payloadOf = .ok (S.slice i).2
  starts : (S.slice i).1 < S.payload.length
  sized : 1 ≤ S.fragmentSize
  number : Cbor.isNumber S.payload.length = true

theorem fragment_of_cut (h : S.isCut = true) {i : Nat} {buf : Bytes} (hbuf : S.bundles[i]? = some buf) :
    ∃ b, Bundle.decodeBundle H.toNode buf = .ok b ∧ Fragment S i b := by
  obtain ⟨extra, hextra, hcut⟩ := isCutInto h
  obtain ⟨hstart, b, hread, hmade⟩ := hcut.reads i buf hbuf
  exact ⟨b, hread, h, ⟨buf, hbuf, hread⟩, hmade.flags, hmade.offset, hmade.total,
    payloadOf_made (isExtra_of_ok hextra) hmade.blocks, hstart, hcut.pos, hcut.number⟩

variable {i : Nat} {b : Bundle}

theorem Fragment.keyOf_eq (h : Fragment S i b) : keyOf b.primary = S.key := by
  obtain ⟨buf, hbuf, hread⟩ := h.sent
  exact key_eq h.cut hbuf hread

/-- The offset of the fragment is there when the fragment is. -/
theorem Holds.has_iff (h : Holds S l e) (hb : Fragment S i b) :
    e.has b.primary.fragmentOffset = true ↔ i ∈ l := by
  have hsize := hb.sized
  rw [hb.offset, Entry.has, h.pieces.parts, List.any_eq_true]
  constructor
  · rintro ⟨p, hp, hsame⟩
    rw [List.mem_map] at hp
    obtain ⟨_, hq, rfl⟩ := hp
    obtain ⟨k, hk, rfl⟩ := List.mem_map.mp hq
    have hint := Cbor.sameKey_eq (show Cbor.sameKey (.int (S.slice k).1) (.int (S.slice i).1) = true from hsame)
    rw [Cbor.int.injEq, Nat.cast_inj] at hint
    have hki : k = i := Nat.eq_of_mul_eq_mul_right hsize hint
    exact hki ▸ hk
  · intro hi
    refine ⟨asPart (S.slice i), List.mem_map_of_mem (List.mem_map_of_mem hi), ?_⟩
    show ((S.slice i).1 : Int) == ((S.slice i).1 : Int)
    exact beq_self_eq_true _

theorem Holds.store (h : Holds S l e) (hb : Fragment S i b) :
    Holds S (visit l i) (e.store b (S.slice i).2) := by
  have hparts : (e.store b (S.slice i).2).parts = ((visit l i).map S.slice).map asPart := by
    have hhas := h.has_iff hb
    unfold Entry.store visit
    by_cases hi : i ∈ l
    · rw [if_pos (hhas.mpr hi), if_pos hi]
      split <;> exact h.pieces.parts
    · rw [if_neg (fun hc => hi (hhas.mp hc)), if_neg hi, List.map_append, List.map_append,
        ← h.pieces.parts, hb.offset]
      split <;> rfl
  have htotal : (e.store b (S.slice i).2).total = e.total := by
    unfold Entry.store
    split <;> split <;> rfl
  refine ⟨⟨htotal.trans h.pieces.total, hparts, hb.number, fun p hp => ?_⟩, fun hzero => ?_⟩
  · obtain ⟨k, hk, rfl⟩ := List.mem_map.mp hp
    rcases mem_visit.mp hk with hk | rfl
    · exact h.pieces.inside _ (List.mem_map_of_mem hk)
    · exact le_of_lt hb.starts
  · -- the first fragment is the one at offset 0
    have hfirst : (e.store b (S.slice i).2).first = if i = 0 then some b else e.first := by
      have hoff : b.primary.fragmentOffset.isInt 0 = true ↔ i = 0 := by
        rw [hb.offset, JsVal.isInt_iff, Option.some.injEq, Cbor.int.injEq]
        have hsize := hb.sized
        show ((i * S.fragmentSize : Nat) : Int) = 0 ↔ _
        rw [Nat.cast_eq_zero, Nat.mul_eq_zero]
        omega
      unfold Entry.store
      by_cases hi : i = 0
      · rw [if_pos hi, if_pos (hoff.mpr hi)]
      · rw [if_neg hi, if_neg (fun hc => hi (hoff.mp hc))]
        split <;> rfl
    rw [hfirst]
    by_cases hi : i = 0
    · subst hi
      obtain ⟨buf, hbuf, hread⟩ := hb.sent
      exact ⟨buf, b, hbuf, hread, if_pos rfl⟩
    · rw [if_neg hi]
      apply h.first
      rcases mem_visit.mp hzero with hzero | hzero
      · exact hzero
      · exact absurd hzero.symm hi

/-- All fragments are there. -/
def All (S : Shipment H) (l : List Nat) : Prop := ∀ i, i < S.bundles.length → i ∈ l

theorem cover_iff (h : S.isCut = true) {l : List Nat} :
    Piece.Cover (l.map S.slice) 0 S.payload.length ↔ S.All l := by
  obtain ⟨_, _, hcut⟩ := isCutInto h
  refine Piece.cover_slices_iff hcut.pos hcut.reach fun i hi => ?_
  exact (hcut.reads i _ (List.getElem?_eq_getElem hi)).1

theorem agrees_slice (hb : Fragment S i b) : Piece.Agrees S.payload (S.slice i) :=
  Piece.agrees_slice (le_of_lt hb.starts)

/-! ## One step -/

variable {cfg : Config} {s : State} {now : Int}

/-- The state has the fragments `l` of the shipment, none of them if there is no entry. -/
def Stores (S : Shipment H) (s : State) (l : List Nat) : Prop :=
  match s.partials.get? S.key with
  | none => l = []
  | some e => Holds S l e

theorem Stores.entryOf (h : Stores S s l) (hb : Fragment S i b) :
    Holds S l (Gateway.entryOf s now b.primary) := by
  unfold Stores at h
  rw [Gateway.entryOf, hb.keyOf_eq]
  cases hget : s.partials.get? S.key with
  | none =>
      rw [hget] at h
      dsimp only at h
      subst h
      exact ⟨⟨hb.total, rfl, hb.number, fun p hp => by cases hp⟩, fun hzero => by cases hzero⟩
  | some e =>
      rw [hget] at h
      exact h

/-- **A fragment is stored** if it is a repeat or the buffer has room for it. -/
theorem storeFragment_made (h : Stores S s l) (hb : Fragment S i b) (hroom : i ∉ l →
    exceeds (s.partialBytes + (S.slice i).2.length) cfg.maxReassemblyBytes = false) :
    ∃ e stored, Holds S (visit l i) e ∧ stored.partials.get? S.key = some e ∧
      (∀ k, k ≠ S.key → stored.partials.get? k = s.partials.get? k) ∧
      storeFragment H.toNode cfg now s b (S.slice i).2 = finish H.toNode stored S.key e := by
  have hentry := @Stores.entryOf _ _ _ i b s now h hb
  have hagrees : agrees s b.primary = true := by
    unfold Stores at h
    rw [agrees, hb.keyOf_eq]
    cases hget : s.partials.get? S.key with
    | none => rfl
    | some e =>
        rw [hget] at h
        show same e.total b.primary.totalAduLength = true
        rw [h.pieces.total, hb.total]
        exact beq_self_eq_true _
  have hopened : ∀ k, k ≠ S.key → (opened s now b.primary).partials.get? k = s.partials.get? k := by
    intro k hk
    unfold opened
    split
    · rfl
    · rw [hb.keyOf_eq]
      exact JsMap.get?_set_ne _ hk _
  have hbytes : (opened s now b.primary).partialBytes = s.partialBytes := by
    unfold opened
    split <;> rfl
  have hfits : ¬ (exceeds ((opened s now b.primary).partialBytes +
      added (Gateway.entryOf s now b.primary) b.primary.fragmentOffset (S.slice i).2)
        cfg.maxReassemblyBytes = true ∧
      (Gateway.entryOf s now b.primary).has b.primary.fragmentOffset = false) := by
    rintro ⟨hover, hnew⟩
    have hi : i ∉ l := fun hi => by
      rw [(hentry.has_iff hb).mpr hi] at hnew
      cases hnew
    rw [added, hnew, if_neg Bool.false_ne_true, hbytes, hroom hi] at hover
    cases hover
  refine ⟨_, kept (opened s now b.primary) S.key ((Gateway.entryOf s now b.primary).store b (S.slice i).2)
    (added (Gateway.entryOf s now b.primary) b.primary.fragmentOffset (S.slice i).2),
    hentry.store hb, JsMap.get?_set_self _ _ _, fun k hk => ?_, ?_⟩
  · show ((opened s now b.primary).partials.set S.key _).get? k = _
    rw [JsMap.get?_set_ne _ hk]
    exact hopened k hk
  · unfold storeFragment
    dsimp only
    rw [if_neg (by rw [hagrees]; simp), if_neg hfits, hb.keyOf_eq]

/-- **The shipment, delivered**: one bundle that is no fragment, with the payload; and if it was made
with a key pair, with an ingress receipt that is accepted. -/
structure Delivered (S : Shipment H) (w : Bundle) : Prop where
  flags : w.primary.flags = .int 0
  offset : w.primary.fragmentOffset = none
  total : w.primary.totalAduLength = none
  payload : w.payloadOf = .ok S.payload
  receipt : ∀ kp, S.args.keypair = some kp → Receipt.Signs H.toHost kp → ∀ pinnedKeys,
    Pins S.args kp pinnedKeys → ∃ receipt, verifyIngress H w pinnedKeys = .ok (.ok receipt)

theorem delivered_of_blocks {extra : List BlockObject} (hextra : Gateway.extra H S.args = .ok extra)
    (hlen : Cbor.isNumber S.payload.length = true) {w : Bundle} (hflags : w.primary.flags = .int 0)
    (hoffset : w.primary.fragmentOffset = none) (htotal : w.primary.totalAduLength = none)
    (hblocks : w.blocks = (extra ++ [payloadBlock S.payload]).map BlockObject.filled) : S.Delivered w := by
  refine ⟨hflags, hoffset, htotal, payloadOf_made (isExtra_of_ok hextra) hblocks, ?_⟩
  intro kp hkp hsigns pinnedKeys hpins
  have hsize : S.payload.length ≤ 2 ^ 53 := by
    unfold Cbor.isNumber at hlen
    rw [Bool.and_eq_true, decide_eq_true_eq, decide_eq_true_eq] at hlen
    omega
  exact verifyIngress_made hextra hkp hsigns hsize hblocks hpins

/-- The first fragment's blocks, with the whole payload. -/
theorem delivered_whole {buf : Bytes} {first : Bundle} (h : S.isCut = true)
    (hbuf : S.bundles[0]? = some buf) (hread : Bundle.decodeBundle H.toNode buf = .ok first) :
    S.Delivered (whole first S.payload) := by
  obtain ⟨extra, hextra, hcut⟩ := isCutInto h
  obtain ⟨_, b, hb, hmade⟩ := hcut.reads 0 buf hbuf
  rw [hread, Except.ok.injEq] at hb
  subst hb
  refine delivered_of_blocks hextra hcut.number rfl rfl rfl ?_
  show first.blocks.map _ = _
  have hpayload : ∀ part, (payloadBlock part).filled.type = Bundle.payloadType := fun _ => rfl
  have hingress : ∀ data, (ingressBlock data).filled.type ≠ Bundle.payloadType := by
    intro data
    show Cbor.int 226 ≠ .int 1
    simp
  rw [hmade.blocks]
  rcases isExtra_of_ok hextra with rfl | ⟨data, rfl⟩
  · show [if _ then _ else _] = _
    rw [if_pos (hpayload _)]
    rfl
  · show [if _ then _ else _, if _ then _ else _] = _
    rw [if_pos (hpayload _), if_neg (hingress data)]
    rfl

/-- What one more fragment leaves and gives, with the fragments `l` there. -/
structure Steps (S : Shipment H) (s : State) (l : List Nat) (r : State × Outcome (Option Bundle)) :
    Prop where
  others : ∀ k, k ≠ S.key → r.1.partials.get? k = s.partials.get? k
  missing : ¬ S.All l → r.2 = .ok none ∧ S.Stores r.1 l
  complete : S.All l → (∃ w, r.2 = .ok (some w) ∧ S.Delivered w) ∧ r.1.partials.get? S.key = none

theorem finish_made {stored : State} (hb : Fragment S i b) {l : List Nat}
    (hall : ∀ k ∈ l, k < S.bundles.length) {e : Entry} (hholds : Holds S l e)
    (hget : stored.partials.get? S.key = some e) : S.Steps stored l (finish H.toNode stored S.key e) := by
  by_cases hcomplete : S.All l
  · -- the first fragment is among them all
    have hzero : 0 ∈ l := by
      obtain ⟨buf, hbuf, _⟩ := hb.sent
      apply hcomplete
      exact Nat.zero_lt_of_lt (List.getElem?_eq_some_iff.mp hbuf).1
    obtain ⟨buf, first, hbuf, hread, hfirst⟩ := hholds.first hzero
    have hflags : first.primary.flags = .int 1 := by
      obtain ⟨b', hread', hfragment⟩ := fragment_of_cut hb.cut hbuf
      rw [hread, Except.ok.injEq] at hread'
      rw [hread']
      exact hfragment.flags
    have hagree : ∀ p ∈ l.map S.slice, Piece.Agrees S.payload p := by
      intro p hp
      obtain ⟨k, hk, rfl⟩ := List.mem_map.mp hp
      obtain ⟨_, _, hfragment⟩ := fragment_of_cut hb.cut (List.getElem?_eq_getElem (hall k hk))
      exact agrees_slice hfragment
    rw [@finish_of_cover H.toNode e _ stored S.key S.payload hholds.pieces hagree
      ((cover_iff hb.cut).mpr hcomplete) first hfirst hflags]
    refine ⟨fun k hk => JsMap.get?_delete_ne _ hk, fun hmissing => absurd hcomplete hmissing, fun _ => ?_⟩
    exact ⟨⟨_, rfl, delivered_whole hb.cut hbuf hread⟩, JsMap.get?_delete_self _ _⟩
  · rw [finish_of_gap hholds.pieces (fun hcover => hcomplete ((cover_iff hb.cut).mp hcover))]
    refine ⟨fun _ _ => rfl, fun _ => ⟨rfl, ?_⟩, fun hall => absurd hall hcomplete⟩
    unfold Stores
    rw [hget]
    exact hholds

/-- No set of fragments has been waiting too long. -/
def Live (cfg : Config) (now : Int) (s : State) : Prop :=
  ∀ e ∈ s.partials.values, exceeds (now - e.since) cfg.lifetimeMs = false

theorem expire_live (h : Live cfg now s) : expire cfg now s = s := by
  have hfold : ∀ es : List (JsString × Entry), (∀ p ∈ es, exceeds (now - p.2.since) cfg.lifetimeMs = false) →
      es.foldl (fun s p => if exceeds (now - p.2.since) cfg.lifetimeMs then
        { s with partials := s.partials.delete p.1, partialBytes := s.partialBytes - p.2.bytes }
      else s) s = s := by
    intro es
    induction es with
    | nil => exact fun _ => rfl
    | cons p es ih =>
        intro hes
        rw [List.forall_mem_cons] at hes
        rw [List.foldl_cons, hes.1, if_neg Bool.false_ne_true]
        exact ih hes.2
  exact hfold _ fun p hp => h p.2 (List.mem_map_of_mem hp)

theorem Fragment.inside (hb : Fragment S i b) :
    outside H.toNode b.primary.fragmentOffset b.primary.totalAduLength (S.slice i).2.length = .ok false := by
  have hstart := hb.starts
  have hend := (agrees_slice hb).1
  have hoffset : JsVal.toPrim b.primary.fragmentOffset = .int (S.slice i).1 := by
    rw [hb.offset]
    exact toPrim_natCast (isNumber_of_le (le_of_lt hstart) hb.number)
  have htotal : JsVal.toPrim b.primary.totalAduLength = .int S.payload.length := by
    rw [hb.total]
    exact toPrim_natCast hb.number
  rw [outside, htotal, hoffset, Prim.lt_int, if_neg, Prim.add_int, Outcome.ok_bind, Prim.lt_int]
  · show Except.ok (decide _) = _
    rw [decide_eq_false (by omega)]
  · rw [decide_eq_false_iff_not, not_not]
    omega

/-- **One fragment, as `_reassemble` takes it.** -/
theorem reassemble_made (h : Stores S s l) (hall : ∀ k ∈ l, k < S.bundles.length) (hb : Fragment S i b)
    (hlive : Live cfg now s) (hroom : i ∉ l →
      exceeds (s.partialBytes + (S.slice i).2.length) cfg.maxReassemblyBytes = false) :
    S.Steps s (visit l i) (reassemble H.toNode cfg now s b) := by
  obtain ⟨e, stored, hholds, hget, hothers, hstore⟩ := @storeFragment_made _ _ _ _ _ cfg s now h hb hroom
  have hi : i < S.bundles.length := by
    obtain ⟨buf, hbuf, _⟩ := hb.sent
    exact (List.getElem?_eq_some_iff.mp hbuf).1
  have hvisit : ∀ k ∈ visit l i, k < S.bundles.length := by
    intro k hk
    rcases mem_visit.mp hk with hk | rfl
    · exact hall k hk
    · exact hi
  have hsteps := finish_made hb hvisit hholds hget
  have hstep : reassemble H.toNode cfg now s b = finish H.toNode stored S.key e := by
    unfold reassemble
    have hbit : Bundle.fragmentBit H.toNode (some (.int 1)) = .ok 1 := fragmentBit_flags H.toNode true
    rw [hb.flags, hbit]
    dsimp only
    rw [if_neg one_ne_zero, hb.payload]
    dsimp only
    rw [hb.inside]
    dsimp only
    rw [expire_live hlive, hstore]
  rw [hstep]
  exact ⟨fun k hk => (hsteps.others k hk).trans (hothers k hk), hsteps.missing, hsteps.complete⟩

end Shipment

end Gateway

end DtnCustody
