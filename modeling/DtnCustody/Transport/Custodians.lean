/-
# DtnCustody.Transport.Custodians — `stampBundle` of `transport/bpv7/custody-block.mjs`, and BIBs under
custody.

A custodian decodes the bundle, puts one block in and encodes it again: block 224 with receipts of either
version, block 225 with key records, or another extension block. That is one kind of step
(`Step.puts`), and none of it reaches what a BIB covers, unless it replaces a target (`Protected.step`).
So a bundle that verifies when it is signed verifies after any run of custodians
(`custody_keeps_bibs`).
-/
import DtnCustody.Keyring.Carry
import DtnCustody.Transport.AddBib
import DtnCustody.Transport.CustodyBlock
import Mathlib.Logic.Relation

namespace DtnCustody

open Base Js

namespace CustodyBlock

variable (H : TextHost)

/-! ## Stamping, version 1 -/

/-- `makeRelay(kp, eid)`. -/
structure Relay where
  kp : AgentKey
  eid : String

/-- `{ prevHop, receivedAt, forwardedAt }`. -/
structure StampOptions where
  prevHop : Option String := none
  receivedAt : JsonVal
  forwardedAt : JsonVal

/-- The payload and bundle ids: those of the first receipt, or of the chunk in the payload. -/
def receiptIds (b : Bundle) : List Json → Outcome (JsonVal × JsonVal)
  | r :: _ => do
      return (← JsonVal.get (some r) "payloadId", ← JsonVal.get (some r) "bundleId")
  | [] => do
      let (body, bundleId) ← chunkOf H b
      return (← JsonVal.get (some body) "payloadId", some (.str bundleId))

def prevHopUnknown : Err :=
  .error "previous hop unknown: no Previous Node block and none supplied"

/-- `prevHop ?? previousNode(bundle)`, which must not be empty. -/
def stampPrev (o : StampOptions) (b : Bundle) : Outcome String := do
  let prev ← match o.prevHop with
    | some eid => pure (some eid)
    | none => b.previousNode
  match prev with
  | some eid => if eid = "" then .error prevHopUnknown else return eid
  | none => .error prevHopUnknown

/-- `relay.stamp(ids, prev, receivedAt, forwardedAt)`; a property that is `undefined` is not written. -/
def Relay.stamp (relay : Relay) (ids : JsonVal × JsonVal) (prev : String) (o : StampOptions) :
    Outcome Json :=
  Receipt.signRecord H.toHost relay.kp <|
    [("kind", some (.text "custody/1")), ("payloadId", ids.1), ("bundleId", ids.2),
      ("prevHop", some (.text prev)), ("thisHop", some (.text relay.eid)),
      ("receivedAt", o.receivedAt), ("forwardedAt", o.forwardedAt)].filterMap fun p =>
        p.2.map fun v => (js p.1, v)

/-- `withCustody(bundle, receipts)`. -/
def withCustody (b : Bundle) (receipts : List Json) : Outcome Bundle := do
  let texts ← receipts.mapM fun r => r.canonicalize H.toNode
  b.putBlock custodyBlockType (.int 1) (.int 2)
    (← (Cbor.Item.array (texts.map .text)).encodeItem)

/-- `stampBundle(bytes, relay, options)`. -/
def stampBundle (bytes : Bytes) (relay : Relay) (o : StampOptions) : Outcome Bytes := do
  let b ← Bundle.decodeBundle H.toNode bytes
  let receipts ← readCustody H b
  let ids ← receiptIds H b receipts
  let prev ← stampPrev o b
  let r ← relay.stamp H ids prev o
  Bundle.encodeBundle H.toNode (← withCustody H b (receipts ++ [r])).toObject

end CustodyBlock

/-- The runtime of a custodian. -/
structure CustodyHost extends BibHost, TextHost

namespace Bpsec

variable {H : CustodyHost}

/-! ## What a custodian does to the bytes -/

/-- One step on the bytes of a bundle, and the type of the block that it puts in. -/
inductive Step (H : CustodyHost) : Cbor → Bytes → Bytes → Prop
  | stampBundleV2 {bytes out : Bytes} {relay : ReceiptV2.Relay} {o : ReceiptV2.StampOptions}
      (h : ReceiptV2.stampBundleV2 H.toNode bytes relay o = .ok out) : Step H custodyBlockType bytes out
  | stampBundle {bytes out : Bytes} {relay : CustodyBlock.Relay} {o : CustodyBlock.StampOptions}
      (h : CustodyBlock.stampBundle H.toTextHost bytes relay o = .ok out) :
      Step H custodyBlockType bytes out
  | carryRecords {bytes out : Bytes} {records : List Cbor}
      (h : Keyring.carryRecords H.toNode bytes records = .ok out) :
      Step H Keyring.keyBlockType bytes out
  | putBlock {bytes out data : Bytes} {b b' : Bundle} {type flags crcType : Cbor}
      (hfields : Bundle.PutFields type flags crcType)
      (hdec : Bundle.decodeBundle H.toNode bytes = .ok b)
      (hput : b.putBlock type flags crcType data = .ok b')
      (henc : Bundle.encodeBundle H.toNode b'.toObject = .ok out) : Step H type bytes out

/-- What every step comes down to. -/
def Puts (N : Node) (type : Cbor) (bytes out : Bytes) : Prop :=
  ∃ b b' flags crcType data, Bundle.PutFields type flags crcType ∧ Bundle.decodeBundle N bytes = .ok b ∧
    b.putBlock type flags crcType data = .ok b' ∧ Bundle.encodeBundle N b'.toObject = .ok out

theorem receiptFields : Bundle.PutFields custodyBlockType (.int 1) (.int 2) :=
  ⟨⟨224, rfl, by decide, by decide⟩, ⟨1, rfl, by decide, by decide⟩, by simp⟩

/-- **A step puts one block in**, or leaves the bytes alone. -/
theorem Step.puts {type : Cbor} {bytes out : Bytes} (h : Step H type bytes out) :
    out = bytes ∨ Puts H.toNode type bytes out := by
  cases h with
  | stampBundleV2 h =>
      obtain ⟨b, hb, h⟩ := Outcome.bind_eq_ok.mp h
      obtain ⟨items, _, h⟩ := Outcome.bind_eq_ok.mp h
      split at h
      · cases h
      · obtain ⟨receipt, _, h⟩ := Outcome.bind_eq_ok.mp h
        obtain ⟨b', hput, h⟩ := Outcome.bind_eq_ok.mp h
        obtain ⟨data, _, hput⟩ := Outcome.bind_eq_ok.mp hput
        exact Or.inr ⟨b, b', _, _, data, receiptFields, hb, hput, h⟩
  | stampBundle h =>
      obtain ⟨b, hb, h⟩ := Outcome.bind_eq_ok.mp h
      obtain ⟨receipts, _, h⟩ := Outcome.bind_eq_ok.mp h
      obtain ⟨ids, _, h⟩ := Outcome.bind_eq_ok.mp h
      obtain ⟨prev, _, h⟩ := Outcome.bind_eq_ok.mp h
      obtain ⟨r, _, h⟩ := Outcome.bind_eq_ok.mp h
      obtain ⟨b', hput, h⟩ := Outcome.bind_eq_ok.mp h
      obtain ⟨texts, _, hput⟩ := Outcome.bind_eq_ok.mp hput
      obtain ⟨data, _, hput⟩ := Outcome.bind_eq_ok.mp hput
      exact Or.inr ⟨b, b', _, _, data, receiptFields, hb, hput, h⟩
  | carryRecords h =>
      obtain ⟨b, hb, h⟩ := Outcome.bind_eq_ok.mp h
      obtain ⟨held, _, h⟩ := Outcome.bind_eq_ok.mp h
      obtain ⟨seen, _, h⟩ := Outcome.bind_eq_ok.mp h
      dsimp only at h
      split at h
      · exact Or.inl (Except.ok.inj h).symm
      · obtain ⟨data, _, h⟩ := Outcome.bind_eq_ok.mp h
        obtain ⟨b', hput, h⟩ := Outcome.bind_eq_ok.mp h
        exact Or.inr ⟨b, b', _, _, data, Keyring.keyFields, hb, hput, h⟩
  | putBlock hfields hdec hput henc => exact Or.inr ⟨_, _, _, _, _, hfields, hdec, hput, henc⟩

/-! ## What a BIB covers -/

variable {key : Bytes} {o : Options} {b b' signed : Bundle}

/-- A block type that is no BIB's, and that no BIB targets. -/
def Untouched (H : BibHost) (signed : Bundle) (key : Bytes) (type : Cbor) : Prop :=
  type ≠ bibType ∧ ∀ bib ∈ bibsOf signed, ∀ c, Opens H key bib c →
    ∀ ns, elements c.asb.targets = .ok ns → ∀ n ∈ ns, ∀ x, targetOf signed n = some (.block x) →
      x.type ≠ type

/-- All that the BIBs of a signed bundle cover is in another bundle, which can be written again. -/
structure Protected (H : BibHost) (signed : Bundle) (key : Bytes) (b : Bundle) : Prop where
  settled : Bundle.Settled H.toNode b
  primary : b.primary = signed.primary
  bibs : bibsOf b = bibsOf signed
  targets : ∀ bib ∈ bibsOf signed, ∀ c, Opens H key bib c → ∀ ns, elements c.asb.targets = .ok ns →
    ∀ n ∈ ns, ∀ t, targetOf signed n = some t → targetOf b n = some t

theorem Protected.refl {H : BibHost} (h : Bundle.Settled H.toNode signed) :
    Protected H signed key signed :=
  ⟨h, rfl, rfl, fun _ _ _ _ _ _ _ _ _ ht => ht⟩

/-- **A step on an untouched type keeps what is covered.** -/
theorem Protected.step {H : BibHost} {bytes out : Bytes} {type : Cbor} (h : Protected H signed key b)
    (hdec : Bundle.decodeBundle H.toNode bytes = .ok b) (huntouched : Untouched H signed key type)
    (hputs : out = bytes ∨ Puts H.toNode type bytes out) :
    ∃ b', Bundle.decodeBundle H.toNode out = .ok b' ∧ Protected H signed key b' := by
  rcases hputs with rfl | ⟨b₀, b', flags, crcType, data, hfields, hb₀, hput, henc⟩
  · exact ⟨b, hdec, h⟩
  · rw [hdec, Except.ok.injEq] at hb₀
    subst hb₀
    obtain ⟨hsettled, hdec'⟩ := h.settled.put_codec hfields hput henc
    obtain ⟨hprimary, hothers, hnew⟩ := Bundle.putBlock_frame hput
    have hmem : ∀ x ∈ b.blocks, x.type ≠ type → x ∈ b'.blocks := by
      intro x hx htype
      have hkept : x ∈ b'.blocks.filter fun x => x.type ≠ type := by
        rw [hothers]
        exact List.mem_filter.mpr ⟨hx, decide_eq_true htype⟩
      exact List.mem_of_mem_filter hkept
    refine ⟨b', hdec', hsettled, hprimary.trans h.primary, ?_, ?_⟩
    · have hbibs : ∀ bs : List Block, (bs.filter fun x => x.type = bibType) =
          (bs.filter fun x => x.type ≠ type).filter fun x => x.type = bibType := by
        intro bs
        rw [List.filter_filter]
        refine List.filter_congr fun x _ => ?_
        by_cases hx : x.type = bibType
        · have hne : x.type ≠ type := fun heq => huntouched.1 (heq.symm.trans hx)
          simp [hx, hx ▸ hne]
        · simp [hx]
      rw [← h.bibs, bibsOf, bibsOf, hbibs b'.blocks, hothers, ← hbibs b.blocks]
    · intro bib hbib c hopens ns hns n hn t ht
      have hbefore := h.targets bib hbib c hopens ns hns n hn t ht
      cases t with
      | primary =>
          cases targetOf_primary hbefore
          rfl
      | block x =>
          have htype := huntouched.2 bib hbib c hopens ns hns n hn x ht
          obtain ⟨v, rfl, hzero, hx, hsame⟩ := targetOf_block hbefore
          exact targetOf_of_mem hsettled.numbers (hmem x hx htype) hzero hsame

theorem fronted_of_settled {H : BibHost} {raw : Bytes} (h : Bundle.Settled H.toNode b)
    (hraw : Bundle.encodePrimary H.toNode b.primary.toObject = .ok raw) : Fronted H b raw := by
  refine ⟨hraw, fun x hx => (h.proper hx).data, ?_⟩
  exact getLast?_toObject.mp h.readable.payload

theorem typed_of_settled {N : Node} (h : Bundle.Settled N b) : Bundle.Typed N b.toObject := by
  obtain ⟨hprimary, hblocks, hnumbers, -⟩ := h.readable
  exact ⟨hprimary.flags, hprimary.crcType, hprimary.created, hprimary.lifetime, hprimary.fragment,
    fun x hx => ⟨(hblocks x hx).type, (hblocks x hx).number, (hblocks x hx).flags,
      (hblocks x hx).crcType⟩, hnumbers⟩

/-- **What is covered still verifies.** -/
theorem Protected.passes {H : BibHost} (h : Protected H signed key b)
    (hsigned : Bundle.Settled H.toNode signed)
    (hpass : ∀ bib ∈ bibsOf signed, BibPasses H o signed key bib) :
    ∀ bib ∈ bibsOf b, BibPasses H o b key bib := by
  intro bib hbib
  rw [h.bibs] at hbib
  refine (hpass bib hbib).kept (.refl bib) ⟨fun raw hraw => ?_, ?_⟩
  · obtain ⟨hprimary, -, -⟩ := (primaryBytes_iff (typed_of_settled hsigned)).mp hraw
    rw [← h.primary] at hprimary
    exact (primaryBytes_iff (typed_of_settled h.settled)).mpr (fronted_of_settled h.settled hprimary)
  · intro c hopens ns hns n hn t ht
    refine ⟨t, h.targets bib hbib c hopens ns hns n hn t ht, .refl t, ?_⟩
    cases t with
    | primary =>
        intro hzero
        show b.primary.crcType = _
        rw [h.primary]
        exact hzero
    | block x => exact id

/-! ## From the signed object to its bytes -/

/-- A block as it is read when it was written. -/
def written (x : Block) : Block := x.toObject.filled

theorem orElse_orElse (v : Cbor) :
    JsVal.orElse (some (JsVal.orElse (some v) (.int 0))) (.int 0) = JsVal.orElse (some v) (.int 0) := by
  cases v <;> rfl

theorem written_same (x : Block) : SameBlock x (written x) :=
  ⟨⟨⟨rfl, orElse_orElse x.flags⟩, rfl⟩, rfl, orElse_orElse x.crcType⟩

theorem orElse_zero {v d : Cbor} (h : v = .int 0) : JsVal.orElse (some v) d = .int 0 := by
  rw [h]
  rfl

/-- A bundle as it is read when it was written: other endpoint identifiers, written alike, and defaults. -/
structure ReadBack (H : BibHost) (b b₂ : Bundle) : Prop where
  settled : Bundle.Settled H.toNode b₂
  blocks : b₂.blocks = b.blocks.map written
  crcType : b.primary.crcType = .int 0 → b₂.primary.crcType = .int 0
  primary : Bundle.encodePrimary H.toNode b₂.primary.toObject =
    Bundle.encodePrimary H.toNode b.primary.toObject

theorem readBack_of_written {H : BibHost} {buf : Bytes} (ht : Bundle.Typed H.toNode b.toObject)
    (henc : Bundle.encodeBundle H.toNode b.toObject = .ok buf) :
    ∃ b₂, Bundle.decodeBundle H.toNode buf = .ok b₂ ∧ ReadBack H b b₂ := by
  obtain ⟨d, s, r, -, -, hdec, hsettled, hprimary⟩ := Bundle.decodeBundle_settled ht henc
  refine ⟨_, hdec, hsettled, ?_, orElse_zero, hprimary⟩
  show (b.blocks.map Block.toObject).map BlockObject.filled = _
  rw [List.map_map]
  rfl

theorem ReadBack.target {H : BibHost} {b₂ : Bundle} (h : ReadBack H b b₂) (n : Slot) :
    TargetKept b b₂ n := by
  intro t ht
  cases t with
  | primary =>
      cases targetOf_primary ht
      exact ⟨.primary, rfl, .primary, h.crcType⟩
  | block x =>
      obtain ⟨v, rfl, hzero, hx, hsame⟩ := targetOf_block ht
      have hmem : written x ∈ b₂.blocks := by
        rw [h.blocks]
        exact List.mem_map_of_mem hx
      exact ⟨.block (written x), targetOf_of_mem h.settled.numbers hmem hzero hsame,
        .block (written_same x), orElse_zero⟩

theorem ReadBack.mem_bibsOf {H : BibHost} {b₂ : Bundle} (h : ReadBack H b b₂) {x : Block} :
    x ∈ bibsOf b₂ ↔ ∃ bib ∈ bibsOf b, x = written bib := by
  rw [bibsOf, List.mem_filter, decide_eq_true_iff, h.blocks]
  constructor
  · rintro ⟨hx, htype⟩
    obtain ⟨y, hy, rfl⟩ := List.mem_map.mp hx
    exact ⟨y, List.mem_filter.mpr ⟨hy, decide_eq_true htype⟩, rfl⟩
  · rintro ⟨y, hy, rfl⟩
    obtain ⟨hy, htype⟩ := List.mem_filter.mp hy
    exact ⟨List.mem_map_of_mem hy, of_decide_eq_true htype⟩

/-- **What verifies is written so that it verifies.** -/
theorem ReadBack.passes {H : BibHost} {b₂ : Bundle} (h : ReadBack H b b₂)
    (ht : Bundle.Typed H.toNode b.toObject) (hpass : ∀ bib ∈ bibsOf b, BibPasses H o b key bib) :
    ∀ bib ∈ bibsOf b₂, BibPasses H o b₂ key bib := by
  intro x hx
  obtain ⟨bib, hbib, rfl⟩ := h.mem_bibsOf.mp hx
  refine (hpass bib hbib).kept (written_same bib).toSameBib ⟨fun raw hraw => ?_, ?_⟩
  · obtain ⟨hprimary, -, -⟩ := (primaryBytes_iff ht).mp hraw
    rw [← h.primary] at hprimary
    exact (primaryBytes_iff (typed_of_settled h.settled)).mpr (fronted_of_settled h.settled hprimary)
  · exact fun _ _ _ _ n _ => h.target n

/-- What is untouched in the object is untouched in what is read. -/
theorem ReadBack.untouched {H : BibHost} {b₂ : Bundle} {type : Cbor} (h : ReadBack H b b₂)
    (ht : Bundle.Typed H.toNode b.toObject) (huntouched : Untouched H b key type) :
    Untouched H b₂ key type := by
  refine ⟨huntouched.1, fun x hx c hopens ns hns n hn y hy => ?_⟩
  obtain ⟨bib, hbib, rfl⟩ := h.mem_bibsOf.mp hx
  have hback : SameBib (written bib) bib :=
    ⟨⟨rfl, Eq.symm (written_same bib).flags⟩, rfl⟩
  obtain ⟨v, rfl, hzero, hy, hsame⟩ := targetOf_block hy
  rw [h.blocks] at hy
  obtain ⟨z, hz, rfl⟩ := List.mem_map.mp hy
  have hfound : targetOf b (.val v) = some (.block z) :=
    targetOf_of_mem (Bundle.pairwise_toObject.mp ht.numbers) hz hzero hsame
  exact huntouched.2 bib hbib _ (hopens.withBib hback) ns hns _ hn z hfound

/-- **Custody never breaks a BIB.** Where the other BIBs of a signed bundle, if there are any, verify with
the new one, the bundle verifies after every run of stamps of both versions, key records and other
extension blocks, of types that no BIB targets. -/
theorem custody_keeps_bibs (H : CustodyHost) (b signed : Bundle) (a : AddBib) (o : Options)
    (buf out : Bytes) (ht : Bundle.Typed H.toNode b.toObject) (hfits : a.Fits b)
    (hmode : o.mode = a.mode) (hadd : addBib H.toBibHost b a = .ok signed)
    (hothers : bibsOf b = [] ∨
      ∃ bibs fallbacks, verifyBibs H.toBibHost signed a.key o = .ok (.ok bibs fallbacks))
    (henc : Bundle.encodeBundle H.toNode signed.toObject = .ok buf)
    (hrun : Relation.ReflTransGen (fun bytes bytes' => ∃ type, Step H type bytes bytes' ∧
      Untouched H.toBibHost signed a.key type) buf out) :
    ∃ b', Bundle.decodeBundle H.toNode out = .ok b' ∧
      ∃ bibs fallbacks, verifyBibs H.toBibHost b' a.key o = .ok (.ok bibs fallbacks) := by
  obtain ⟨macs, asb, front, payload, h⟩ := addBib_ok hadd
  have htyped := h.typed (N := H.toNode) ht hfits
  have hpass : ∀ bib ∈ bibsOf signed, BibPasses H.toBibHost o signed a.key bib := by
    rcases hothers with hnone | hok
    · intro x hx
      rcases h.mem_bibsOf.mp hx with ⟨bib, hbib, -⟩ | rfl
      · rw [hnone] at hbib
        cases hbib
      · exact h.passes ht hfits hmode
    · exact (verifyBibs_ok_iff.mp hok).2
  obtain ⟨b₂, hdec, hread⟩ := readBack_of_written (H := H.toBibHost) htyped henc
  have hinv : ∃ b', Bundle.decodeBundle H.toNode out = .ok b' ∧
      Protected H.toBibHost b₂ a.key b' := by
    induction hrun with
    | refl => exact ⟨b₂, hdec, .refl hread.settled⟩
    | tail _ hstep ih =>
        obtain ⟨b', hb', hprotected⟩ := ih
        obtain ⟨type, hstep, huntouched⟩ := hstep
        exact hprotected.step hb' (hread.untouched htyped huntouched) hstep.puts
  obtain ⟨b', hb', hprotected⟩ := hinv
  refine ⟨b', hb', verifyBibs_ok_iff.mpr ⟨?_, ?_⟩⟩
  · rw [hprotected.bibs]
    exact List.ne_nil_of_mem (hread.mem_bibsOf.mpr ⟨_, h.mem_bibsOf.mpr (Or.inr rfl), rfl⟩)
  · exact hprotected.passes hread.settled (hread.passes htyped hpass)

/-! ## A payload BIB under custody -/

/-- A runtime whose MACs and hashes tell all data apart; no text is parsed here. -/
def sampleCustodyHost : CustodyHost where
  toBibHost := keyedBibHost
  bufferOf _ := none
  parseJson _ := none

def sampleSigned : Bytes := (Bundle.encodeBundle sampleNode sampleCovered.toObject).toOption.getD []

/-- The signed bundle with a version 2 receipt of the custodian `ipn:1.0`. -/
def sampleStamped : Bytes :=
  (ReceiptV2.stampBundleV2 sampleNode sampleSigned (ReceiptV2.sampleRelay 1)
    { prevHop := some "ipn:5.0", receivedAt := some (.int 10), forwardedAt := some (.int 11) }).toOption.getD
      []

theorem sampleStamped_step : Step sampleCustodyHost custodyBlockType sampleSigned sampleStamped := by
  have h : ReceiptV2.stampBundleV2 sampleNode sampleSigned (ReceiptV2.sampleRelay 1)
      { prevHop := some "ipn:5.0", receivedAt := some (.int 10), forwardedAt := some (.int 11) } =
        .ok sampleStamped := by decide +kernel
  exact .stampBundleV2 h

/-- The BIB targets the payload only. -/
theorem sampleCovered_untouched {type : Cbor} (hbib : type ≠ bibType)
    (hpayload : type ≠ Bundle.payloadType) : Untouched keyedBibHost sampleCovered [3] type := by
  have htargets : ((bibsOf sampleCovered).mapM fun bib => do
      return (← parseAsb keyedBibHost bib.data).targets) = .ok [.array [.int 1]] := by decide +kernel
  have hfound : targetOf sampleCovered (.val (.int 1)) =
      some (.block ⟨.int 1, .int 1, .int 0, .int 0, [7]⟩) :=
    targetOf_of_mem (Bundle.pairwise_toObject.mp sampleCovered_typed.numbers) (by decide +kernel)
      (by decide +kernel) rfl
  have hall := Outcome.mapM_eq_ok htargets
  refine ⟨hbib, fun bib hmem c hopens ns hns n hn x hx => ?_⟩
  obtain ⟨i, hi⟩ := List.mem_iff_getElem?.mp hmem
  obtain ⟨v, hv, hparsed⟩ := exists_at hall hi
  obtain rfl := List.mem_singleton.mp (List.mem_of_getElem? hv)
  rw [hopens.1] at hparsed
  have hlist : c.asb.targets = .array [.int 1] := Except.ok.inj hparsed
  rw [hlist] at hns
  cases hns
  obtain rfl := List.mem_singleton.mp hn
  rw [hfound] at hx
  cases hx
  exact Ne.symm hpayload

theorem custody_keeps_sample : ∃ b', Bundle.decodeBundle sampleNode sampleStamped = .ok b' ∧
    ∃ bibs fallbacks, verifyBibs keyedBibHost b' payloadBib.key {} = .ok (.ok bibs fallbacks) :=
  custody_keeps_bibs sampleCustodyHost sampleUnsigned sampleCovered payloadBib {} sampleSigned
    sampleStamped sampleUnsigned_typed payloadBib_fits rfl sampleCovered_added
    (Or.inl (by decide +kernel)) (by decide +kernel)
    (.single ⟨custodyBlockType, sampleStamped_step,
      sampleCovered_untouched (by decide +kernel) (by decide +kernel)⟩)

/-- A bundle with a BIB over its primary block, under the key `3`. -/
def sampleOtherKey : Bundle :=
  (addBib keyedBibHost sampleUnsigned { primaryBib with scope := 0 }).toOption.getD sampleUnsigned

/-- The call that signs its payload, under the key `4`. -/
def otherKeyBib : AddBib := { payloadBib with key := [4] }

def sampleTwoKeys : Bundle :=
  (addBib keyedBibHost sampleOtherKey otherKeyBib).toOption.getD sampleUnsigned

theorem sampleOtherKey_typed : Bundle.Typed keyedBibHost.toNode sampleOtherKey.toObject := by
  have hadd : addBib keyedBibHost sampleUnsigned { primaryBib with scope := 0 } = .ok sampleOtherKey := by
    decide +kernel
  obtain ⟨macs, asb, front, payload, h⟩ := addBib_ok hadd
  exact h.typed sampleUnsigned_typed ⟨⟨0, rfl, by decide, by decide⟩, List.mem_cons_self,
    ⟨_, rfl, by decide +kernel, by decide +kernel⟩, fun n hn => by cases hn⟩

/-- **A bundle that another source signed under its own key does not verify**, before any custodian has
it: `verifyBibs` checks every BIB with the one key. -/
theorem twoKeys_fail : ∃ H b signed a buf, Bundle.Typed (BibHost.toNode H) (Bundle.toObject b) ∧
    AddBib.Fits b a ∧ a.mode = .rfc9173 ∧ addBib H b a = .ok signed ∧
      Bundle.encodeBundle H.toNode signed.toObject = .ok buf ∧
        ¬ ∃ b', Bundle.decodeBundle H.toNode buf = .ok b' ∧
          ∃ bibs fallbacks, verifyBibs H b' a.key {} = .ok (.ok bibs fallbacks) := by
  refine ⟨keyedBibHost, sampleOtherKey, sampleTwoKeys, otherKeyBib,
    (Bundle.encodeBundle sampleNode sampleTwoKeys.toObject).toOption.getD [], sampleOtherKey_typed,
    ⟨⟨0, rfl, by decide, by decide⟩, List.mem_cons_self,
      ⟨_, rfl, by decide +kernel, by decide +kernel⟩, fun n hn => by cases hn⟩, rfl,
    by decide +kernel, by decide +kernel, ?_⟩
  have hverdict : ((Bundle.decodeBundle sampleNode
      ((Bundle.encodeBundle sampleNode sampleTwoKeys.toObject).toOption.getD [])).bind fun b' =>
        verifyBibs keyedBibHost b' otherKeyBib.key {}) =
      .ok (.fail { reason := "mac_mismatch", bib := some (.int 2), target := some (.val (.int 0)) }) := by
    decide +kernel
  rintro ⟨b', hb', bibs, fallbacks, hok⟩
  have hb' : Bundle.decodeBundle sampleNode
      ((Bundle.encodeBundle sampleNode sampleTwoKeys.toObject).toOption.getD []) = .ok b' := hb'
  rw [hb'] at hverdict
  have hverdict : verifyBibs keyedBibHost b' otherKeyBib.key {} = _ := hverdict
  rw [hok] at hverdict
  cases hverdict

end Bpsec

end DtnCustody
