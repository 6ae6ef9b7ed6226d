/-
# DtnCustody.Gateway.Ingress — `makeBundles` and `verifyIngress` of `gateway/gateway.mjs`.

One IP payload becomes one bundle, or fragments of `maxPayload` bytes with the same source and
creation timestamp. With a key pair, every one of them carries the same signed ingress receipt over
the whole payload. Numbers are Numbers of the language here: an offset or a timestamp that is not an
integer makes `encode` throw, and so does one beyond 2^53.
-/
import DtnCustody.Agent.Custody
import DtnCustody.Agent.Reading
import DtnCustody.Transport.BundleWritten
import DtnCustody.Transport.CustodyBlock

namespace DtnCustody

open Base Js

/-- The runtime with `new Date(ms).toISOString()`; `none` is a throw. -/
structure GatewayHost extends Host where
  isoDate : JsNum → Option JsString

namespace Gateway

def ingressBlockType : Cbor := .int 226

/-- `Date.UTC(2000, 0, 1)`. -/
def dtnEpochMs : ℚ := 946684800000

/-! ## Making bundles -/

structure BundleArgs where
  payload : Bytes
  source : String
  dest : String
  lifetimeMs : JsNum
  seq : JsNum
  keypair : Option AgentKey := none
  gateway : Option JsString := none
  /-- `from`. -/
  sender : Option JsString := none
  now : JsNum
  maxPayload : JsNum := .inf false

/-- A Number, as `encode` takes it. -/
def cborNumber : JsNum → Outcome Cbor
  | .fin q =>
      if q.den ≠ 1 then .error (.error "floats are not used in BPv7")
      else if Cbor.isNumber q.num then .ok (.int q.num)
      else .error (.error "integer beyond 2^53, pass a BigInt")
  | _ => .error (.error "floats are not used in BPv7")

variable (H : GatewayHost)

/-- `sha256(b)`, in hexadecimal digits. -/
def sha256 (b : Bytes) : JsString := Hex.encode (H.sha256 b)

/-- A property that may be `undefined`: then it has no place in any text of the record. -/
def optional (name : String) : Option JsString → List (JsString × Json)
  | none => []
  | some s => [(js name, .str s)]

def ingressContent (a : BundleArgs) (receivedAt : JsString) : List (JsString × Json) :=
  (js "kind", .text "gateway-ingress/1") :: optional "gateway" a.gateway ++ optional "from" a.sender ++
    [(js "source", .text a.source), (js "dest", .text a.dest),
      (js "payloadHash", .str (sha256 H a.payload)), (js "payloadBytes", .int a.payload.length),
      (js "receivedAt", .str receivedAt)]

def ingressBlock (data : Bytes) : BlockObject where
  type := some ingressBlockType
  number := some (.int 2)
  flags := some (.int 1)
  crcType := some (.int 2)
  data := data

/-- `new Date(now).toISOString()`. -/
def receivedAt (a : BundleArgs) : Outcome JsString :=
  match H.isoDate a.now with
  | some s => .ok s
  | none => .error .rangeError

/-- The blocks before the payload: the receipt, if there is a key to sign it with. -/
def extra (a : BundleArgs) : Outcome (List BlockObject) :=
  match a.keypair with
  | none => .ok []
  | some kp => do
      let receivedAt ← receivedAt H a
      let receipt ← Receipt.signRecord H.toHost kp (ingressContent H a receivedAt)
      let text ← receipt.canonicalize H.toNode
      return [ingressBlock (← (Cbor.Item.array [.text text]).encodeItem)]

/-- The primary block; `place` is the offset and the total length of a fragment. -/
def primary (a : BundleArgs) (created : Cbor × Cbor) (lifetime : Cbor) (place : Option (Cbor × Cbor)) :
    PrimaryObject where
  flags := some (.int (if place.isSome then 1 else 0))
  crcType := some (.int 2)
  dest := a.dest
  source := a.source
  reportTo := some "dtn:none"
  created := (.val created.1, .val created.2)
  lifetime := some lifetime
  fragmentOffset := place.map Prod.fst
  totalAduLength := place.map Prod.snd

def payloadBlock (part : Bytes) : BlockObject where
  type := some Bundle.payloadType
  number := some (.int 1)
  flags := some (.int 0)
  crcType := some (.int 2)
  data := part

def bundleObject (a : BundleArgs) (extra : List BlockObject) (created : Cbor × Cbor) (lifetime : Cbor)
    (place : Option (Cbor × Cbor)) (part : Bytes) : BundleObject where
  primary := primary a created lifetime place
  blocks := extra ++ [payloadBlock part]

/-- The offset and the total length, when a fragment is asked for. -/
def placeOf (a : BundleArgs) : Option JsNum → Outcome (Option (Cbor × Cbor))
  | none => .ok none
  | some off => do
      let offset ← cborNumber off
      let total ← cborNumber (.fin a.payload.length)
      return some (offset, total)

/-- One bundle with a part of the payload; `off` is its offset if it is a fragment. -/
def makeOne (a : BundleArgs) (extra : List BlockObject) (off : Option JsNum) (part : Bytes) :
    Outcome Bytes := do
  let time ← cborNumber (a.now.sub (.fin dtnEpochMs))
  let seq ← cborNumber a.seq
  let lifetime ← cborNumber a.lifetimeMs
  let place ← placeOf a off
  Bundle.encodeBundle H.toNode (bundleObject a extra (time, seq) lifetime place part)

/-- An index of `subarray`: towards zero, and from the end if it is negative. -/
def toIndex (len : Nat) : JsNum → Nat
  | .fin q => if q < 0 then (len + ⌈q⌉).toNat else min len ⌊q⌋.toNat
  | .inf negative => if negative then 0 else len
  | .nan => 0

def subarray (b : Bytes) (start stop : JsNum) : Bytes :=
  (b.take (toIndex b.length stop)).drop (toIndex b.length start)

/-- The loop over the fragments. From `maxPayload = 1` on, one turn for each byte is enough
(`cut_fuel`); for `0` and less it does not end. -/
def cut (a : BundleArgs) (extra : List BlockObject) : (fuel : Nat) → (off : JsNum) → Outcome (List Bytes)
  | 0, _ => .error (.error "the loop does not end")
  | fuel + 1, off =>
      if off = .fin 0 ∨ off.lt (.fin a.payload.length) = some true then do
        let b ← makeOne H a extra (some off) (subarray a.payload off (off.add a.maxPayload))
        let rest ← cut a extra fuel (off.add a.maxPayload)
        return b :: rest
      else .ok []

/-- `payload.length > maxPayload`. -/
def isCut (a : BundleArgs) : Bool := a.maxPayload.lt (.fin a.payload.length) = some true

def makeBundles (a : BundleArgs) : Outcome (List Bytes) := do
  let extra ← extra H a
  if isCut a then cut H a extra (a.payload.length + 1) (.fin 0)
  else do return [← makeOne H a extra none a.payload]

/-! ## The ingress receipt -/

inductive IngressVerdict where
  | ok (receipt : Json)
  | fail (reason : String) (receipt : JsonVal)

/-- `JSON.parse(decode(blk.data)[0])`. -/
def readIngress (data : Bytes) : Outcome Json := do
  let text ← match ← (← Cbor.decode data).index 0 with
    | .val v => .ok (js v.toText)
    | .undefined => .ok (js "undefined")
    | .half u => .ok [u]
  match Json.parse H.toNode text with
  | some v => return v
  | none => .error (.error "invalid JSON")

/-- `!pinnedKeys || pinnedKeys[receipt.gateway] === signer`. -/
def isPinned (pinnedKeys : Option (JsString → Pin)) (receipt signer : Json) : Outcome Bool :=
  match pinnedKeys with
  | none => .ok true
  | some keys => do
      let gateway ← JsonVal.toStr H.toNode (receipt.get "gateway")
      return (keys gateway).isKey signer

/-- What is checked of a receipt that verifies, against the pinned keys if there are any. -/
def checkIngress (b : Bundle) (pinnedKeys : Option (JsString → Pin)) (receipt signer : Json) :
    Outcome IngressVerdict := do
  let pinned ← isPinned H pinnedKeys receipt signer
  if pinned = false then return .fail "gateway_key_not_pinned" (some receipt)
  else if JsonVal.strictEq (receipt.get "payloadHash") (some (.str (sha256 H (← b.payloadOf)))) = false
  then return .fail "payload_changed" (some receipt)
  else return .ok receipt

def verifyIngress (b : Bundle) (pinnedKeys : Option (JsString → Pin)) : Outcome IngressVerdict :=
  match b.ofType ingressBlockType with
  | none => .ok (.fail "no_ingress_receipt" none)
  | some blk =>
      match readIngress H blk.data with
      | .error _ => .ok (.fail "ingress_block_malformed" none)
      | .ok receipt => do
          match ← Receipt.verifyRecord H.toHost (some receipt) with
          | .fail reason => return .fail reason none
          | .ok signer => checkIngress H b pinnedKeys receipt signer

end Gateway

end DtnCustody
