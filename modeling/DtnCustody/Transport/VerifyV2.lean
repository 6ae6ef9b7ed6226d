/-
# DtnCustody.Transport.VerifyV2 — `verifyBundleV2` of `transport/bpv7/receipt-v2.mjs`.

The block is read, then every receipt is checked in order: its digest of the receipts before it, its
signature and key, the bundle it names, and how it follows on the receipt before. The fields of a
receipt are whatever was signed, so they have any type, and three operations on them are not guarded:
`JSON.stringify`, by which two identities are compared, refuses a BigInt; `-` refuses a BigInt and a
Number together; and a keyring can hold records that make its lookups throw.

The payload of a receipt that can verify is a byte string; `receiptFields` takes no other.
-/
import DtnCustody.Js.Check
import DtnCustody.Json.Canonical
import DtnCustody.Keyring.Ring
import DtnCustody.Transport.CustodyBlock
import DtnCustody.Transport.ReceiptV2

namespace DtnCustody

open Base Js

/-! ## `JSON.stringify` of decoded values -/

namespace Cbor

mutual

/-- What `JSON.stringify` writes of a decoded value. A `Map` has no properties to write, and a BigInt
cannot be written. -/
def toJson : Cbor → Outcome Json
  | .null => .ok .null
  | .bool b => .ok (.bool b)
  | .int z => if isNumber z then .ok (.int z) else .error .typeError
  | .text s => .ok (.str (js s))
  | .bytes b => .ok (.obj [(js "type", .text "Buffer"),
      (js "data", .arr (b.map fun x => .int x.toNat))])
  | .array xs => do return .arr (← toJsonAll xs)
  | .map _ => .ok (.obj [])
  | .indef xs => do return .obj [(js "items", .arr (← toJsonAll xs))]

def toJsonAll : List Cbor → Outcome (List Json)
  | [] => .ok []
  | x :: xs => do return (← toJson x) :: (← toJsonAll xs)

end

mutual

/-- No BigInt that writing comes to. -/
def serial : Cbor → Bool
  | .int z => isNumber z
  | .array xs => serialAll xs
  | .indef xs => serialAll xs
  | _ => true

def serialAll : List Cbor → Bool
  | [] => true
  | x :: xs => serial x && serialAll xs

end

theorem returns_toJsonAll {xs : List Cbor}
    (ih : ∀ x ∈ xs, Outcome.Returns (toJson x) ↔ serial x = true) :
    Outcome.Returns (toJsonAll xs) ↔ serialAll xs = true := by
  induction xs with
  | nil => simp [toJsonAll, serialAll]
  | cons x xs ihxs =>
      rw [List.forall_mem_cons] at ih
      rw [toJsonAll, Outcome.returns_bind, ih.1, serialAll, Bool.and_eq_true]
      refine and_congr_right fun hx => ?_
      rw [← ihxs ih.2]
      obtain ⟨v, hv⟩ := ih.1.mpr hx
      exact ⟨fun h => Outcome.returns_map.mp (h v hv), fun h _ _ => Outcome.returns_map.mpr h⟩

theorem returns_toJson (v : Cbor) : Outcome.Returns (toJson v) ↔ serial v = true := by
  induction v using induct with
  | int z =>
      rw [toJson, serial]
      cases isNumber z with
      | true => simp
      | false => simp
  | array xs ih => rw [toJson, serial, Outcome.returns_map, returns_toJsonAll ih]
  | indef xs ih => rw [toJson, serial, Outcome.returns_map, returns_toJsonAll ih]
  | _ => simp [toJson, serial]

end Cbor

namespace Slot

/-- In an array, `undefined` is written as `null`. -/
def toJson : Slot → Outcome Json
  | .undefined => .ok .null
  | .val v => v.toJson
  | .half u => .ok (.str [u])

def serial : Slot → Bool
  | .val v => v.serial
  | _ => true

theorem returns_toJson (s : Slot) : Outcome.Returns s.toJson ↔ s.serial = true := by
  cases s with
  | val v => exact v.returns_toJson
  | _ => simp [toJson, serial]

def toPrim : Slot → Prim
  | .undefined => .undef
  | .val v => v.toPrim
  | .half u => .str [u]

/-- `x !== null && x !== undefined`. -/
def isGiven : Slot → Bool
  | .undefined => false
  | .val .null => false
  | _ => true

end Slot

namespace Identity

/-- What is pushed behind the timestamp. -/
def fragmentJson (fragment : Option (JsVal × JsVal)) : Outcome (List Json) :=
  match fragment with
  | none => .ok []
  | some (o, t) => do return [← (Slot.ofJsVal o).toJson, ← (Slot.ofJsVal t).toJson]

def toJson (id : Identity) : Outcome Json := do
  let time ← id.created.1.toJson
  let seq ← id.created.2.toJson
  let frag ← fragmentJson id.fragment
  return .arr (.str (js id.source) :: .arr [time, seq] :: frag)

/-- `id.slice(0, 2)`. -/
def whole (id : Identity) : Identity := { id with fragment := none }

/-- No part of the identity is a BigInt. -/
def serial (id : Identity) : Bool :=
  id.created.1.serial && id.created.2.serial && match id.fragment with
    | none => true
    | some (o, t) => (Slot.ofJsVal o).serial && (Slot.ofJsVal t).serial

theorem returns_fragmentJson (fragment : Option (JsVal × JsVal)) :
    Outcome.Returns (fragmentJson fragment) ↔ (match fragment with
      | none => true
      | some (o, t) => (Slot.ofJsVal o).serial && (Slot.ofJsVal t).serial) = true := by
  rcases fragment with _ | ⟨o, t⟩
  · simp [fragmentJson]
  · rw [fragmentJson, Outcome.returns_bind, Slot.returns_toJson]
    dsimp only
    rw [Bool.and_eq_true]
    refine and_congr_right fun ho => ?_
    rw [← Slot.returns_toJson]
    obtain ⟨v, hv⟩ := (Slot.returns_toJson _).mpr ho
    exact ⟨fun h => Outcome.returns_map.mp (h v hv), fun h _ _ => Outcome.returns_map.mpr h⟩

theorem returns_toJson (id : Identity) : Outcome.Returns id.toJson ↔ id.serial = true := by
  unfold toJson serial
  rw [Outcome.returns_bind, Slot.returns_toJson, Bool.and_eq_true, Bool.and_eq_true, and_assoc]
  refine and_congr_right fun htime => ?_
  obtain ⟨time, htime⟩ := (Slot.returns_toJson _).mpr htime
  constructor
  · intro h
    have hseq := Outcome.returns_bind.mp (h time htime)
    obtain ⟨seq, hs⟩ := hseq.1
    exact ⟨(Slot.returns_toJson _).mp hseq.1,
      (returns_fragmentJson _).mp (Outcome.returns_map.mp (hseq.2 seq hs))⟩
  · rintro ⟨hseq, hfrag⟩ _ _
    refine Outcome.returns_bind.mpr ⟨(Slot.returns_toJson _).mpr hseq, fun _ _ => ?_⟩
    exact Outcome.returns_map.mpr ((returns_fragmentJson _).mpr hfrag)

end Identity

/-! ## Receipts -/

namespace ReceiptV2

structure Fields where
  prevHop : JsVal
  thisHop : JsVal
  bundle : JsVal
  payloadHash : JsVal
  receivedAt : JsVal
  forwardedAt : JsVal
  subject : JsVal
  hopCount : JsVal
  chain : JsVal

def fieldsOf (m : List (Cbor × Cbor)) : Fields where
  prevHop := Cbor.mapGet m (.int 1)
  thisHop := Cbor.mapGet m (.int 2)
  bundle := Cbor.mapGet m (.int 3)
  payloadHash := Cbor.mapGet m (.int 4)
  receivedAt := Cbor.mapGet m (.int 5)
  forwardedAt := Cbor.mapGet m (.int 6)
  subject := Cbor.mapGet m (.int 7)
  hopCount := Cbor.mapGet m (.int 8)
  chain := Cbor.mapGet m (.int 9)

def receiptFields (item : Cbor) : Outcome Fields :=
  match item with
  | .array (_ :: _ :: .bytes payload :: _) => do
      match ← Cbor.decode payload with
      | .map m => return fieldsOf m
      | _ => .error (.error "receipt payload is not a map")
  | _ => .error .typeError

def maxReceipts : Nat := 64

/-- The items of the block, with their version. -/
inductive BlockItems where
  | none
  | v1 (items : List Cbor)
  | v2 (items : List Cbor)

def isText : Cbor → Bool
  | .text _ => true
  | _ => false

def isArray : Cbor → Bool
  | .array _ => true
  | _ => false

def readBlockItems (b : Bundle) : Outcome BlockItems :=
  match b.blocks.filter fun x => x.type = custodyBlockType with
  | [] => .ok .none
  | [x] => do
      match ← Cbor.decode x.data with
      | .array [] => .error CustodyBlock.malformed
      | .array items =>
          if items.all isText then return .v1 items
          else if items.all isArray then return .v2 items
          else .error (.error "custody block malformed: receipt versions mixed in one block")
      | _ => .error CustodyBlock.malformed
  | _ => .error (.error "custody block malformed: more than one in the bundle")

variable (N : Node)

def chainDigest (items : List Cbor) : Outcome Bytes := do
  return N.sha256 (← Cbor.encode (.array items))

/-- `v[1]`, when it is an integer that is a Number. -/
def countIn : Cbor → Option Int
  | .array (_ :: .int z :: _) => if Cbor.isNumber z then some z else none
  | _ => none

/-- The count of the Hop Count block. -/
def hopCountOf (b : Bundle) : Outcome (Option Int) :=
  match b.ofType (.int 10) with
  | none => .ok none
  | some x => do return countIn (← Cbor.decode x.data)

/-! ## The options and the verdict -/

/-- What `keys[eid]` gives. -/
inductive PinnedKey where
  | absent
  | own (pub : String)
  /-- A property of `Object.prototype`. -/
  | inherited

/-- `{ keys, keyring, arrivedAt, origin = null, lastNode, hops }`. -/
structure Options where
  keys : List (String × String) := []
  keyring : Option Keyring := none
  arrivedAt : Option JsNum := none
  origin : Option String := none
  lastNode : Option (Option String) := none
  hops : Option (List String) := none

/-- The name of the property that `obj[v]` reads. -/
def propertyName : JsVal → String
  | none => "undefined"
  | some v => v.toText

def Options.pinned (o : Options) (eid : JsVal) : PinnedKey :=
  match o.keys.find? fun p => p.1 = propertyName eid with
  | some p => .own p.2
  | none => if propertyName eid ∈ Pin.inheritedNames then .inherited else .absent

structure Gap where
  afterHop : JsVal
  beforeHop : JsVal
  lastUnsigned : JsVal
  unsignedNodes : Option Prim := none
  deriving DecidableEq

/-- The part of a key's status that is kept. -/
structure KeyState where
  revokedFrom : JsVal
  anchor : Keyring.KeyId
  keyId : Keyring.KeyId
  deriving DecidableEq

inductive WitnessedBy where
  | hop (hop : Nat) (eid : JsVal)
  | verifierArrival (t : JsNum)
  deriving DecidableEq

structure Witnessed where
  hop : Nat
  revokedFrom : JsVal
  witnessedBy : WitnessedBy
  deriving DecidableEq

structure Refusal where
  reason : String
  detail : Option Err := none
  hop : Option Nat := none
  revokedFrom : JsVal := none
  deriving DecidableEq

structure Report where
  custodied : Nat
  gaps : List Gap
  hashUnchecked : List Nat
  bundle : Identity
  /-- With a keyring only. -/
  keys : Option (List KeyState × List Witnessed)
  deriving DecidableEq

/-- `{ ok: true, ... }` or `{ ok: false, reason, ... }`. -/
inductive Verdict where
  | ok (report : Report)
  | fail (r : Refusal)
  deriving DecidableEq

def Report.complete (r : Report) : Bool := r.gaps.isEmpty

/-! ## One receipt -/

/-- What the loop carries. -/
structure LoopState where
  prevEid : JsVal
  prevHops : Option (List Cbor) := none
  gaps : List Gap := []
  hashUnchecked : List Nat := []
  fields : List Fields := []
  keyState : List KeyState := []

/-- `a ?? b`. -/
def nullish (a b : JsVal) : JsVal :=
  match a with
  | none => b
  | some .null => b
  | some v => some v

/-- `f.forwardedAt ?? f.receivedAt`. -/
def signedAt (f : Fields) : JsVal := nullish f.forwardedAt f.receivedAt

/-- The digest of the receipts before, if the receipt has one, must be theirs. -/
def checkChain (before : List Cbor) (f : Fields) : Check String Unit :=
  match f.chain with
  | none => Check.pass ()
  | some (.bytes c) =>
      (Check.eval (chainDigest N before)).andThen fun digest =>
        Check.require (c = digest) "chain_digest_mismatch"
  | some _ => Check.refuse "chain_digest_mismatch"

/-- `verify1(item, keys[eid])`: a function or object in the place of a key is not one. -/
def verifyPinned (item : Cbor) (key : PinnedKey) : Cose.Verdict :=
  match key with
  | .absent => Cose.verify1 N item none
  | .own pub => Cose.verify1 N item (some pub)
  | .inherited =>
      match Cose.verify1 N item none with
      | .fail "custodian_not_pinned" => .fail "signature_invalid"
      | v => v

/-- The signature, under a key of the keyring that is good for the custodian at the signing time. -/
def checkKeyring (kr : Keyring) (item : Cbor) (f : Fields) : Check String (List KeyState) :=
  (Check.eval (kr.pubsFor f.thisHop)).andThen fun cands =>
    if cands = [] then Check.refuse "custodian_key_unknown"
    else match cands.find? fun p => (Cose.verify1 N item (some p)).isOk with
      | none => Check.refuse "signature_invalid"
      | some pub =>
          (Check.eval (kr.status N pub f.thisHop (signedAt f))).andThen fun st =>
            match st with
            | .fail reason => Check.refuse reason
            | .ok revokedFrom anchor keyId => Check.pass [⟨revokedFrom, anchor, keyId⟩]

def checkKey (o : Options) (item : Cbor) (f : Fields) : Check String (List KeyState) :=
  match o.keyring with
  | some kr => checkKeyring N kr item f
  | none =>
      match verifyPinned N item (o.pinned f.thisHop) with
      | .ok _ => Check.pass []
      | .fail reason => Check.refuse reason

/-- The custodian is the one of the pinned route. -/
def checkRoute (o : Options) (i : Nat) (f : Fields) : Check String Unit :=
  match o.hops with
  | none => Check.pass ()
  | some hops => Check.require (Keyring.strictEq f.thisHop (hops[i]?.map .text)) "unexpected_hop"

/-- `JSON.stringify(a) === JSON.stringify(b)`; that of `undefined` is no text. -/
def sameId (a : JsVal) (b : Identity) : Outcome Bool :=
  match a with
  | none => do
      let _ ← b.toJson
      return false
  | some v => do
      let a ← v.toJson
      let b ← b.toJson
      return Json.stringify N a = Json.stringify N b

/-- The receipt names this bundle, with the hash of its payload, or the whole that it is a fragment
of; the answer says whether the hash was left unchecked. -/
def checkBundle (id : Identity) (hash : Bytes) (f : Fields) : Check String Bool :=
  (Check.eval (sameId N f.bundle id)).andThen fun same =>
    if same then
      if f.payloadHash = some (.bytes hash) then Check.pass false
      else Check.refuse "payload_hash_mismatch"
    else if id.fragment.isSome then
      (Check.eval (sameId N f.bundle id.whole)).andThen fun covers =>
        if covers then Check.pass true else Check.refuse "wrong_bundle"
    else Check.refuse "wrong_bundle"

/-- `f.hopCount?.[0]`. -/
def countReceived (f : Fields) : Slot :=
  match f.hopCount with
  | none => .undefined
  | some v =>
      match v.index 0 with
      | .ok s => s
      | .error _ => .undefined

/-- `inCount - prevHops[1]`. -/
def unsignedBetween (inCount : Slot) (prevHops : List Cbor) : Outcome Prim :=
  inCount.toPrim.sub N (JsVal.toPrim prevHops[1]?)

/-- A gap with the number of nodes in it, where both counts are there. -/
def sized (prevHops : Option (List Cbor)) (gap : Gap) (inCount : Slot) : Outcome Gap :=
  match prevHops with
  | some hs =>
      if inCount.isGiven then do
        return { gap with unsignedNodes := some (← unsignedBetween N inCount hs) }
      else .ok gap
  | none => .ok gap

/-- The receipt names another node than the custodian before it. -/
def leavesGap (s : LoopState) (f : Fields) : Bool :=
  Keyring.isSet s.prevEid && !Keyring.strictEq f.prevHop s.prevEid

/-- How a receipt follows on the one before: the gap between the two, if there is one. -/
def checkGap (o : Options) (s : LoopState) (f : Fields) : Check String (List Gap) :=
  if leavesGap s f then
    match o.hops with
    | some _ => Check.refuse "custody_chain_break"
    | none =>
        (Check.eval (sized N s.prevHops { afterHop := s.prevEid, beforeHop := f.thisHop,
                                          lastUnsigned := f.prevHop } (countReceived f))).andThen
          fun gap => Check.pass [gap]
  else
    match s.prevHops with
    | some hs =>
        if f.hopCount.truthy then
          (Check.eval (unsignedBetween N (countReceived f) hs)).andThen fun n =>
            if (Prim.int 0).lt N n then
              Check.pass [{ afterHop := s.prevEid, beforeHop := f.thisHop, lastUnsigned := some .null,
                            unsignedNodes := some n }]
            else Check.pass []
        else Check.pass []
    | none => Check.pass []

/-- The receipt as it leaves the loop: the state that the next one is checked against. -/
def LoopState.next (s : LoopState) (i : Nat) (f : Fields) (keys : List KeyState) (unchecked : Bool)
    (gaps : List Gap) : LoopState where
  prevEid := f.thisHop
  prevHops := match f.hopCount with
    | some (.array hs) => some hs
    | _ => none
  gaps := s.gaps ++ gaps
  hashUnchecked := if unchecked then s.hashUnchecked ++ [i] else s.hashUnchecked
  fields := s.fields ++ [f]
  keyState := s.keyState ++ keys

/-- The checks of one receipt, once its fields are read. -/
def checkFields (o : Options) (id : Identity) (hash : Bytes) (before : List Cbor) (s : LoopState)
    (item : Cbor) (f : Fields) : Check String LoopState :=
  (checkChain N before f).andThen fun _ =>
    (checkKey N o item f).andThen fun keys =>
      (checkRoute o before.length f).andThen fun _ =>
        (checkBundle N id hash f).andThen fun unchecked =>
          (checkGap N o s f).andThen fun gaps =>
            Check.pass (s.next before.length f keys unchecked gaps)

def checkReceipt (o : Options) (id : Identity) (hash : Bytes) (before : List Cbor) (s : LoopState)
    (item : Cbor) : Check Refusal LoopState :=
  match receiptFields item with
  | .error _ => Check.refuse { reason := "receipt_malformed", hop := some before.length }
  | .ok f =>
      Check.orRefuse (checkFields N o id hash before s item f) fun reason =>
        { reason, hop := some before.length }

/-- The loop over the receipts. -/
def checkReceipts (o : Options) (id : Identity) (hash : Bytes) (before : List Cbor) (s : LoopState)
    (items : List Cbor) : Check Refusal LoopState :=
  Check.loop (checkReceipt N o id hash) before s items

/-! ## The end -/

def lastNodeOf (o : Options) (b : Bundle) : Outcome (Option String) :=
  match o.lastNode with
  | some last => .ok last
  | none => b.previousNode

/-- The node behind the last custodian, when it is another one. -/
def lastUnsigned (s : LoopState) (last : Option String) : Option String :=
  last.filter fun eid => eid ≠ "" && !Keyring.strictEq (some (.text eid)) s.prevEid

/-- The gap at the end. -/
def lastGap (o : Options) (b : Bundle) (s : LoopState) : Outcome (List Gap) := do
  match lastUnsigned s (← lastNodeOf o b) with
  | none => return []
  | some eid => do
      let gap : Gap :=
        { afterHop := s.prevEid, beforeHop := some .null, lastUnsigned := some (.text eid) }
      match s.prevHops, ← hopCountOf b with
      | some hs, some now => do
          return [{ gap with unsignedNodes := some (← unsignedBetween N (.val (.int now)) hs) }]
      | _, _ => return [gap]

/-! ## Revoked keys -/

/-- A later receipt that commits to the ones before it, signed with a key that is not revoked, and
received before `T`. -/
def witnessIn (T : JsVal) : (j : Nat) → List (Fields × KeyState) → Option WitnessedBy
  | _, [] => none
  | j, (f, k) :: later =>
      if f.chain.isSome && (k.revokedFrom = some .null) && f.receivedAt.toPrim.lt N T.toPrim then
        some (.hop j f.thisHop)
      else witnessIn T (j + 1) later

/-- Who saw the receipt before `T`: a later custodian, or the verifier itself. -/
def witnessOf (o : Options) (T : JsVal) (j : Nat) (later : List (Fields × KeyState)) :
    Option WitnessedBy :=
  match witnessIn N T j later with
  | some w => some w
  | none =>
      match o.arrivedAt with
      | some t => if (Prim.num t).lt N T.toPrim then some (.verifierArrival t) else none
      | none => none

/-- Every receipt signed with a revoked key claims a time before the revocation and was seen then. -/
def checkRevoked (o : Options) : (i : Nat) → List (Fields × KeyState) → Refusal ⊕ List Witnessed
  | _, [] => .inr []
  | i, (f, k) :: later =>
      match k.revokedFrom with
      | none => checkRevoked o (i + 1) later
      | some .null => checkRevoked o (i + 1) later
      | some T =>
          if !(signedAt f).toPrim.lt N T.toPrim then
            .inl { reason := "signed_after_revocation", hop := some i, revokedFrom := some T }
          else match witnessOf N o (some T) (i + 1) later with
            | none =>
                .inl { reason := "revoked_unwitnessed", hop := some i, revokedFrom := some T }
            | some w =>
                match checkRevoked o (i + 1) later with
                | .inl r => .inl r
                | .inr ws => .inr (⟨i, some T, w⟩ :: ws)

/-! ## The verifier -/

def finish (o : Options) (id : Identity) (custodied : Nat) (s : LoopState) (gaps : List Gap) :
    Verdict :=
  match checkRevoked N o 0 (s.fields.zip s.keyState) with
  | .inl r => .fail r
  | .inr witnessed =>
      .ok { custodied, gaps := s.gaps ++ gaps, hashUnchecked := s.hashUnchecked, bundle := id,
            keys := o.keyring.map fun _ => (s.keyState, witnessed) }

def initial (o : Options) : LoopState where
  prevEid := some (match o.origin with
    | some eid => .text eid
    | none => .null)

def verifyItems (o : Options) (b : Bundle) (items : List Cbor) : Outcome Verdict := do
  let id ← b.bundleIdentity N
  let hash ← b.payloadHash N
  if (o.hops.map List.length).any fun n => n ≠ items.length then
    return .fail { reason := "wrong_hop_count" }
  else
    match ← checkReceipts N o id hash [] (initial o) items with
    | .inl r => return .fail r
    | .inr s => return finish N o id items.length s (← lastGap N o b s)

def verifyBundleV2 (bytes : Bytes) (o : Options) : Outcome Verdict :=
  match Bundle.decodeBundle N bytes with
  | .error e => .ok (.fail { reason := "bundle_malformed", detail := some e })
  | .ok b =>
      match readBlockItems b with
      | .error _ => .ok (.fail { reason := "custody_block_malformed" })
      | .ok .none => .ok (.fail { reason := "no_custody_block" })
      | .ok (.v1 _) => .ok (.fail { reason := "not_version_2" })
      | .ok (.v2 items) =>
          if maxReceipts < items.length then .ok (.fail { reason := "too_many_receipts" })
          else verifyItems N o b items

end ReceiptV2

end DtnCustody
