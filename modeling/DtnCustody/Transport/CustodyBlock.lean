/-
# DtnCustody.Transport.CustodyBlock — `transport/bpv7/custody-block.mjs`: version 1 receipts in a
bundle.

The block holds an array of text strings, each of them a JSON record. The two verifiers catch what
goes wrong while the bundle, the chunk in its payload and the block are read. What the audit reads
after that, the Previous Node block, it does not guard; and a record that was read can still be one
that `verifyRecord` throws on.
-/
import DtnCustody.Agent.Chain
import DtnCustody.Transport.Bundle

namespace DtnCustody

open Base Js

/-- The runtime with `JSON.parse`; `none` is a throw. -/
structure TextHost extends Host where
  parseJson : JsString → Option Json

def custodyBlockType : Cbor := .int 224

namespace Bundle

def ofType (b : Bundle) (type : Cbor) : Option Block := b.blocks.find? fun x => x.type = type

/-- The node that handed the bundle on, from its Previous Node block; `none` is `null`. -/
def previousNode (b : Bundle) : Outcome (Option String) :=
  match b.ofType (.int 6) with
  | none => .ok none
  | some x => do return some (← decodeEid (some (← Cbor.decode x.data)))

def readsPrevious (b : Bundle) : Prop :=
  ∀ x, b.ofType (.int 6) = some x → ∃ v eid, Cbor.decode x.data = .ok v ∧ decodeEid (some v) = .ok eid

theorem returns_previousNode {b : Bundle} :
    Outcome.Returns b.previousNode ↔ b.readsPrevious := by
  unfold previousNode readsPrevious
  cases b.ofType (.int 6) with
  | none => simp
  | some x =>
      dsimp only
      rw [Outcome.returns_bind]
      constructor
      · rintro ⟨⟨v, hv⟩, h⟩ y hy
        cases hy
        obtain ⟨eid, heid⟩ := Outcome.returns_map.mp (h v hv)
        exact ⟨v, eid, hv, heid⟩
      · intro h
        obtain ⟨v, eid, hv, heid⟩ := h x rfl
        refine ⟨⟨v, hv⟩, fun w hw => Outcome.returns_map.mpr ?_⟩
        rw [hv] at hw
        cases hw
        exact ⟨eid, heid⟩

end Bundle

/-- `{ ok: true, ... }` or `{ ok: false, reason, detail }`, with the bundle id where the chunk was
read. -/
inductive CustodyVerdict (α : Type) where
  | refused (reason : String) (detail : Option Err)
  | judged (verdict : α) (bundleId : JsString)

namespace CustodyBlock

variable (H : TextHost)

def parse (s : JsString) : Outcome Json :=
  match H.parseJson s with
  | some v => .ok v
  | none => .error (.error "invalid JSON")

def malformed : Err := .error "custody block malformed"

/-- The text strings of an array, if all its items are. -/
def texts : List Cbor → Option (List String)
  | [] => some []
  | .text s :: rest => (texts rest).map (s :: ·)
  | _ :: _ => none

/-- The receipts a decoded bundle carries. -/
def readCustody (b : Bundle) : Outcome (List Json) :=
  match b.blocks.filter fun x => x.type = custodyBlockType with
  | [] => .ok []
  | [x] => do
      match ← Cbor.decode x.data with
      | .array items =>
          match texts items with
          | some ss => ss.mapM fun s => parse H (js s)
          | none => .error malformed
      | _ => .error malformed
  | _ => .error (.error "custody block malformed: more than one in the bundle")

/-- `{ payloadId, index, leafHex }`; a property that is `undefined` is not written. -/
def chunkContent (payloadId index leafHex : JsonVal) : Json :=
  .obj ([("payloadId", payloadId), ("index", index), ("leafHex", leafHex)].filterMap fun p =>
    p.2.map fun v => (js p.1, v))

/-- The application bundle id of the chunk that is the payload. -/
def chunkOf (b : Bundle) : Outcome (Json × JsString) := do
  let body ← parse H (ofUtf8 (← b.payloadOf))
  let payloadId ← JsonVal.get (some body) "payloadId"
  let index ← JsonVal.get (some body) "index"
  let leafHex ← JsonVal.get (some body) "leafHex"
  return (body, ← (chunkContent payloadId index leafHex).contentId H.toNode)

/-- What both verifiers do first: the bundle, its chunk's id and its receipts, or the reason they
refuse for. Nothing here throws. -/
def opened (bytes : Bytes) : (String × Option Err) ⊕ (Bundle × JsString × List Json) :=
  match Bundle.decodeBundle H.toNode bytes with
  | .error e => .inl ("bundle_malformed", some e)
  | .ok b =>
      match chunkOf H b with
      | .error _ => .inl ("payload_not_a_chunk", none)
      | .ok (_, bundleId) =>
          match readCustody H b with
          | .error _ => .inl ("custody_block_malformed", none)
          | .ok [] => .inl ("no_custody_block", none)
          | .ok receipts => .inr (b, bundleId, receipts)

def verifyBundleCustody (bytes : Bytes) (hops : List PinnedHop) :
    Outcome (CustodyVerdict ChainVerdict) :=
  match opened H bytes with
  | .inl (reason, detail) => .ok (.refused reason detail)
  | .inr (_, bundleId, receipts) => do
      let v ← Receipt.verifyCustodyChain H.toHost (some (.arr receipts)) (some (.str bundleId)) hops
      return .judged v bundleId

/-- `{ keys, origin = null, lastNode }`; `lastNode` is missing, `null` or a node. -/
structure AuditBundleOptions where
  keys : JsString → Pin
  origin : Option String := none
  lastNode : Option (Option String) := none

/-- A node, or `null`. -/
def nodeJson (eid : Option String) : Json :=
  match eid with
  | some s => .text s
  | none => .null

def lastNodeOf (b : Bundle) (o : AuditBundleOptions) : Outcome (Option String) :=
  match o.lastNode with
  | some last => .ok last
  | none => b.previousNode

def auditOptions (o : AuditBundleOptions) (bundleId : JsString) (last : Option String) :
    Receipt.AuditOptions where
  bundleId := some (.str bundleId)
  keys := o.keys
  origin := nodeJson o.origin
  lastNode := nodeJson last

def auditBundleCustody (bytes : Bytes) (o : AuditBundleOptions) : Outcome (CustodyVerdict Audit) :=
  match opened H bytes with
  | .inl (reason, detail) => .ok (.refused reason detail)
  | .inr (b, bundleId, receipts) => do
      let last ← lastNodeOf b o
      let v ← Receipt.auditCustodyChain H.toHost (some (.arr receipts)) (auditOptions o bundleId last)
      return .judged v bundleId

/-! ## When the two return -/

variable {H}

theorem opened_ne_nil {bytes : Bytes} {b : Bundle} {bundleId : JsString}
    (h : opened H bytes = .inr (b, bundleId, [])) : False := by
  unfold opened at h
  split at h
  · cases h
  · split at h
    · cases h
    · split at h
      · cases h
      · cases h
      · rename_i receipts hne _
        cases h
        exact hne rfl

/-- **When the strict check returns**: every receipt it gets to can be read. -/
def ChainLegible (H : TextHost) (bytes : Bytes) (hops : List PinnedHop) : Prop :=
  ∀ b bundleId receipts, opened H bytes = .inr (b, bundleId, receipts) →
    receipts.length = hops.length → ∀ front p back, receipts.zip hops = front ++ p :: back →
      ∀ prev, (Receipt.checkLinks H.toHost (some (.str bundleId)) [] (some .null) front).Passes prev →
        Receipt.Legible p.1

theorem returns_verifyBundleCustody {bytes : Bytes} {hops : List PinnedHop} :
    Outcome.Returns (verifyBundleCustody H bytes hops) ↔ ChainLegible H bytes hops := by
  unfold verifyBundleCustody ChainLegible
  rcases hopen : opened H bytes with ⟨reason, detail⟩ | ⟨b, bundleId, receipts⟩
  · simp
  · dsimp only
    rw [Outcome.returns_map, Receipt.returns_verifyCustodyChain]
    constructor
    · rintro h _ _ _ heq
      cases heq
      exact h
    · intro h
      exact h b bundleId receipts rfl

/-- **When the audit returns**: the Previous Node block can be read, where the audit reads it, and so
can every receipt that comes after receipts which pass. -/
def AuditLegible (H : TextHost) (bytes : Bytes) (o : AuditBundleOptions) : Prop :=
  ∀ b bundleId receipts, opened H bytes = .inr (b, bundleId, receipts) →
    (o.lastNode = none → b.readsPrevious) ∧
      ∀ last, lastNodeOf b o = .ok last → ∀ front r back, receipts = front ++ r :: back →
        (∀ x ∈ front, Receipt.checkReceipt H.toHost (auditOptions o bundleId last) x = .ok none) →
          Receipt.Auditable H.toHost (auditOptions o bundleId last) r

theorem returns_lastNodeOf {b : Bundle} {o : AuditBundleOptions} :
    Outcome.Returns (lastNodeOf b o) ↔ (o.lastNode = none → b.readsPrevious) := by
  unfold lastNodeOf
  cases o.lastNode with
  | some last => simp
  | none => simp [Bundle.returns_previousNode]

theorem returns_auditBundleCustody {bytes : Bytes} {o : AuditBundleOptions} :
    Outcome.Returns (auditBundleCustody H bytes o) ↔ AuditLegible H bytes o := by
  unfold auditBundleCustody AuditLegible
  rcases hopen : opened H bytes with ⟨reason, detail⟩ | ⟨b, bundleId, receipts⟩
  · simp
  · dsimp only
    have hchain : ∀ o', Outcome.Returns (Receipt.auditCustodyChain H.toHost (some (.arr receipts)) o') ↔
        ∀ front r back, receipts = front ++ r :: back →
          (∀ x ∈ front, Receipt.checkReceipt H.toHost o' x = .ok none) →
            Receipt.Auditable H.toHost o' r := by
      intro o'
      cases receipts with
      | nil => exact (opened_ne_nil hopen).elim
      | cons r rs => exact Receipt.returns_auditFrom
    rw [Outcome.returns_bind, returns_lastNodeOf]
    simp only [Outcome.returns_map, hchain]
    constructor
    · rintro h _ _ _ heq
      cases heq
      exact h
    · intro h
      exact h b bundleId receipts rfl

end CustodyBlock

end DtnCustody
