/-
# DtnCustody.Keyring.Ring — `transport/bpv7/keyring.mjs`: key records and the verifier's keyring.

A key id is a byte string here and its lower-case hex in the source. The depth counter that
`chainOf` and `revokedFrom` pass to each other is counted down: `chainAt left` is `chainOf` at depth
`maxDepth - left`, and `revokedAt left` is `revokedFrom` there. The two are one recursion on `left`;
what they do at a level, given the answers one level down, is `searchRecords` and `countRevocations`.

Records are kept before anything about them is checked, so every field is an arbitrary decoded value
and every lookup can throw: the functions return an `Outcome`.
-/
import DtnCustody.Base.JsMap
import DtnCustody.Transport.Cose

namespace DtnCustody

open Base Js

namespace Keyring

/-! ## Keys and ids -/

/-- A public key as base64 SPKI. -/
abbrev Pub := String

abbrev KeyId := Bytes

def spkiPrefix : Bytes :=
  [0x30, 0x2a, 0x30, 0x05, 0x06, 0x03, 0x2b, 0x65, 0x70, 0x03, 0x21, 0x00]

def rawPub (spkiB64 : Pub) : Bytes := (Base64.decode spkiB64.toList).drop spkiPrefix.length

def spkiOf (raw : Bytes) : Pub := String.ofList (Base64.encode (spkiPrefix ++ raw))

@[simp] theorem rawPub_spkiOf (raw : Bytes) : rawPub (spkiOf raw) = raw := by
  simp [rawPub, spkiOf, Base64.decode_encode]

def roleCustody : Nat := 1
def roleIssue : Nat := 2
def roleRevoke : Nat := 4

def kindKey : Int := 1
def kindRevoke : Int := 2

def maxDepth : Nat := 6

variable (N : Node)

/-- The first 16 bytes of SHA-256 of the raw key. -/
def keyIdOf (spkiB64 : Pub) : KeyId := (N.sha256 (rawPub spkiB64)).take 16

def recordHash (item : Cbor) : Outcome Bytes := do return N.sha256 (← Cbor.encode item)

/-! ## Issuing records -/

/-- Records are handled in the form they have after crossing the wire. -/
def asCarried (item : Cbor) : Outcome Cbor := do Cbor.decode (← Cbor.encode item)

structure KeyPair where
  priv : Bytes
  pub : Pub

structure KeyClaim where
  subject : String
  pub : Pub
  roles : Nat := roleCustody
  notBefore : Int
  notAfter : Int
  issuedAt : Int
  replaces : Option Pub := none

def issueKey (issuer : KeyPair) (c : KeyClaim) : Outcome Cbor := do
  let m : List (Cbor × Cbor) :=
    [(.int 1, .int kindKey), (.int 2, .text c.subject), (.int 3, .bytes (rawPub c.pub)),
     (.int 4, .int c.roles), (.int 5, .int c.notBefore), (.int 6, .int c.notAfter),
     (.int 7, .int c.issuedAt), (.int 8, .bytes (keyIdOf N issuer.pub))]
  let m := match c.replaces with
    | some old => m ++ [(.int 9, .bytes (keyIdOf N old))]
    | none => m
  asCarried (← Cose.sign1 N issuer.priv (← Cbor.encode (.map m)))

def revokeKey (signer : KeyPair) (target : Pub) (effectiveFrom issuedAt : Int)
    (reason : String := "compromised") : Outcome Cbor := do
  let m : List (Cbor × Cbor) :=
    [(.int 1, .int kindRevoke), (.int 10, .bytes (keyIdOf N target)), (.int 11, .int effectiveFrom),
     (.int 12, .text reason), (.int 7, .int issuedAt), (.int 8, .bytes (keyIdOf N signer.pub))]
  asCarried (← Cose.sign1 N signer.priv (← Cbor.encode (.map m)))

/-! ## Reading records -/

structure RecordFields where
  kind : JsVal
  subject : JsVal
  pub : JsVal
  /-- `g(F.ROLES) ?? 0`. -/
  roles : Cbor
  notBefore : JsVal
  notAfter : JsVal
  issuedAt : JsVal
  issuer : JsVal
  replaces : JsVal
  target : JsVal
  effectiveFrom : JsVal
  reason : JsVal

def fieldsOf (m : List (Cbor × Cbor)) : RecordFields where
  kind := Cbor.mapGet m (.int 1)
  subject := Cbor.mapGet m (.int 2)
  pub := Cbor.mapGet m (.int 3)
  roles := JsVal.orElse (Cbor.mapGet m (.int 4)) (.int 0)
  notBefore := Cbor.mapGet m (.int 5)
  notAfter := Cbor.mapGet m (.int 6)
  issuedAt := Cbor.mapGet m (.int 7)
  issuer := Cbor.mapGet m (.int 8)
  replaces := Cbor.mapGet m (.int 9)
  target := Cbor.mapGet m (.int 10)
  effectiveFrom := Cbor.mapGet m (.int 11)
  reason := Cbor.mapGet m (.int 12)

/-- Only a byte string decodes to a map; any other payload slot makes `decode` throw. -/
def recordFields (item : Cbor) : Outcome RecordFields :=
  match item with
  | .array (_ :: _ :: .bytes payload :: _) => do
      match ← Cbor.decode payload with
      | .map m => return fieldsOf m
      | _ => .error (.error "record payload is not a map")
  | _ => .error .typeError

structure Anchor where
  name : String
  eid : Option String
  pub : Pub
  deriving DecidableEq

/-- A stored record: `{ item, f, seenAt }`. -/
structure Record where
  item : Cbor
  f : RecordFields
  seenAt : Int

end Keyring

open Keyring

/-- The state of a `Keyring`. -/
structure Keyring where
  anchors : JsMap KeyId Anchor
  skewMs : Int
  /-- Record hash to record, in the order of arrival. -/
  records : JsMap Bytes Record

namespace Keyring

variable (N : Node)

def new (anchors : List Anchor) (skewMs : Int := 0) : Keyring where
  anchors := JsMap.ofList (anchors.map fun a => (keyIdOf N a.pub, a))
  skewMs := skewMs
  records := JsMap.empty

/-- `add(item, seenAt)`: kept before it is verified, `false` for duplicates and unreadable items. -/
def add (kr : Keyring) (item : Cbor) (seenAt : Int) : Outcome (Keyring × Bool) :=
  match recordFields item with
  | .error _ => .ok (kr, false)
  | .ok f =>
      if !f.kind.isInt kindKey && !f.kind.isInt kindRevoke then .ok (kr, false)
      else do
        let h ← recordHash N item
        match kr.records.get? h with
        | some r =>
            -- the earliest sighting is what counts
            if seenAt < r.seenAt then
              return ({ kr with records := kr.records.set h { r with seenAt := seenAt } }, false)
            else return (kr, false)
        | none => return ({ kr with records := kr.records.set h ⟨item, f, seenAt⟩ }, true)

/-- The ring after a call of `add`; a call that throws leaves it as it was. -/
def receive (kr : Keyring) (a : Cbor × Int) : Keyring :=
  match kr.add N a.1 a.2 with
  | .ok (kr', _) => kr'
  | .error _ => kr

/-- The ring after a run of calls of `add`. -/
def receiveAll (kr : Keyring) (as : List (Cbor × Int)) : Keyring := as.foldl (receive N) kr

/-- `xs.filter(p)` for a test that can throw. -/
def filterOutcome {α : Type} (p : α → Outcome Bool) : List α → Outcome (List α)
  | [] => .ok []
  | x :: xs => do
      let keep ← p x
      let rest ← filterOutcome p xs
      return if keep then x :: rest else rest

/-- `spkiOf(f.pub)`: `Buffer.concat` refuses anything but a buffer. -/
def spkiOfField : JsVal → Outcome Pub
  | some (.bytes raw) => .ok (spkiOf raw)
  | _ => .error .typeError

def isKeyRecordOf (id : KeyId) (r : Record) : Outcome Bool :=
  if r.f.kind.isInt kindKey && r.f.pub.truthy then do
    return keyIdOf N (← spkiOfField r.f.pub) = id
  else .ok false

def keyRecords (kr : Keyring) (id : KeyId) : Outcome (List Record) :=
  filterOutcome (isKeyRecordOf N id) kr.records.values

def isRevocationOf (id : KeyId) (r : Record) : Outcome Bool :=
  if r.f.kind.isInt kindRevoke then do return (← r.f.target.bufferFrom N) = id
  else .ok false

def revocations (kr : Keyring) (id : KeyId) : Outcome (List Record) :=
  filterOutcome (isRevocationOf N id) kr.records.values

def pubOf (kr : Keyring) (id : KeyId) : Outcome (Option Pub) :=
  match kr.anchors.get? id with
  | some a => .ok (some a.pub)
  | none => do
      match ← kr.keyRecords N id with
      | [] => return none
      | r :: _ => return some (← spkiOfField r.f.pub)

/-! ## Chains -/

/-- What stands at the bottom of an accepted chain: an anchor itself, or a key record. -/
inductive Holder where
  | anchor (a : Anchor)
  | record (r : Record)

structure Chain where
  holder : Holder
  anchor : KeyId
  chain : List KeyId
  roles : Cbor

inductive ChainResult where
  | ok (c : Chain)
  | fail (reason : String)

/-- `target.ok && target.chain.includes(signerId)`. -/
def ChainResult.includes (target : ChainResult) (signerId : KeyId) : Bool :=
  match target with
  | .ok c => signerId ∈ c.chain
  | .fail _ => false

def anchorChain (id : KeyId) (a : Anchor) : Chain :=
  ⟨.anchor a, id, [id], .int (1 ||| 2 ||| 4 : Nat)⟩

/-- `inWindow(f, t)`. -/
def inWindow (kr : Keyring) (f : RecordFields) (t : JsVal) : Outcome Bool := do
  let lo ← f.notBefore.toPrim.sub N (.int kr.skewMs)
  if !t.toPrim.ge N lo then return false
  let hi ← f.notAfter.toPrim.add N (.int kr.skewMs)
  return t.toPrim.le N hi

/-- `up.rec && !inWindow(up.rec.f, t)`, negated: an anchor has no window. -/
def holderInWindow (kr : Keyring) (h : Holder) (t : JsVal) : Outcome Bool :=
  match h with
  | .anchor _ => .ok true
  | .record r => kr.inWindow N r.f t

def hasRole (roles : Cbor) (mask : Nat) : Outcome Bool := do
  return (← roles.toPrim.bitAnd N mask) != 0

/-- `T !== null`. -/
def isSet : JsVal → Bool
  | some .null => false
  | _ => true

/-- `T !== null && !(seenAt < T)`, the test that drops a record of a revoked issuer. -/
def seenTooLate (seenAt : Int) (T : JsVal) : Bool :=
  isSet T && !(Prim.int seenAt).lt N T.toPrim

/-- One record of key `id` in the loop of `chainOf`, given the chain and the revocation time of a
key one level down. -/
def judgeRecord (kr : Keyring) (up : KeyId → Outcome ChainResult) (rev : KeyId → Outcome JsVal)
    (id : KeyId) (r : Record) : Outcome ChainResult := do
  let issuerId ← r.f.issuer.bufferFrom N
  match ← up issuerId with
  | .fail reason => return .fail reason
  | .ok u =>
      if !(← hasRole N u.roles roleIssue) then return .fail "issuer_lacks_issue_role"
      else if !(Cose.verify1 N r.item (← kr.pubOf N issuerId)).isOk then
        return .fail "record_signature_invalid"
      else if !(← kr.holderInWindow N u.holder r.f.issuedAt) then
        return .fail "issuer_not_valid_at_issuance"
      else if seenTooLate N r.seenAt (← rev issuerId) then return .fail "issuer_revoked"
      else return .ok ⟨.record r, u.anchor, id :: u.chain, r.f.roles⟩

/-- The loop: the first record that passes, or the last failure. -/
def searchRecords (judge : Record → Outcome ChainResult) :
    List Record → (last : String) → Outcome ChainResult
  | [], last => .ok (.fail last)
  | r :: rs, _ => do
      match ← judge r with
      | .ok c => return .ok c
      | .fail reason => searchRecords judge rs reason

/-- Whether a correctly signed revocation of `id` counts, given the chain of a key one level down. -/
def allowedSigner (kr : Keyring) (up : KeyId → Outcome ChainResult) (target : ChainResult)
    (targetPub : Option Pub) (id signerId : KeyId) : Outcome Bool :=
  if signerId = id then .ok targetPub.isSome
  else if target.includes signerId then .ok true
  else if kr.anchors.has signerId then .ok true
  else do
    match ← up signerId with
    | .fail _ => return false
    | .ok s =>
        if !(← hasRole N s.roles roleRevoke) then return false
        else match target with
          | .ok c => return s.anchor = c.anchor
          | .fail _ => return false

/-- `signerPub && verify1(r.item, signerPub).ok`. -/
def signedBy (r : Record) (pub : Option Pub) : Bool :=
  pub.isSome && (Cose.verify1 N r.item pub).isOk

/-- One revocation of `id` in the loop of `revokedFrom`: does it count? -/
def counts (kr : Keyring) (up : KeyId → Outcome ChainResult) (target : ChainResult)
    (targetPub : Option Pub) (id : KeyId) (r : Record) : Outcome Bool := do
  let signerId ← r.f.issuer.bufferFrom N
  if !signedBy N r (← kr.pubOf N signerId) then return false
  else kr.allowedSigner N up target targetPub id signerId

/-- `T === null || e < T`, and then `T = e`. -/
def earlier (T e : JsVal) : JsVal :=
  if !isSet T || e.toPrim.lt N T.toPrim then e else T

/-- The loop: the earliest `effectiveFrom` of the revocations that count. -/
def countRevocations (judge : Record → Outcome Bool) : List Record → JsVal → Outcome JsVal
  | [], T => .ok T
  | r :: rs, T => do
      if ← judge r then countRevocations judge rs (earlier N T r.f.effectiveFrom)
      else countRevocations judge rs T

mutual

/-- `chainOf(id, maxDepth - left)`. -/
def chainAt (kr : Keyring) : (left : Nat) → KeyId → Outcome ChainResult
  | 0, id =>
      match kr.anchors.get? id with
      | some a => .ok (.ok (anchorChain id a))
      | none => .ok (.fail "chain_too_long")
  | left + 1, id =>
      match kr.anchors.get? id with
      | some a => .ok (.ok (anchorChain id a))
      | none => do
          match ← kr.keyRecords N id with
          | [] =>
              return .fail (if left + 1 = maxDepth then "key_unknown" else "chain_not_anchored")
          | recs =>
              searchRecords (kr.judgeRecord N (chainAt kr left) (revokedAt kr left) id) recs
                "issuer_unknown"

/-- `revokedFrom(id, maxDepth - left)`. -/
def revokedAt (kr : Keyring) : (left : Nat) → KeyId → Outcome JsVal
  | 0, _ => .ok (some .null)
  | left + 1, id => do
      let target ← chainAt kr left id
      let targetPub ← kr.pubOf N id
      countRevocations N (kr.counts N (chainAt kr left) target targetPub id)
        (← kr.revocations N id) (some .null)

end

/-- `chainOf(id)`. -/
def chainOf (kr : Keyring) (id : KeyId) : Outcome ChainResult := kr.chainAt N maxDepth id

/-- `revokedFrom(id)`. -/
def revokedFrom (kr : Keyring) (id : KeyId) : Outcome JsVal := kr.revokedAt N maxDepth id

/-! ## Queries -/

/-- `{ ok: true, revokedFrom, anchor, keyId }` or `{ ok: false, reason }`. -/
inductive Status where
  | ok (revokedFrom : JsVal) (anchor keyId : KeyId)
  | fail (reason : String)
  deriving DecidableEq

/-- `a === b` on values one of which is not an object. -/
def strictEq : JsVal → JsVal → Bool
  | none, none => true
  | some v, some w => Cbor.sameKey v w
  | _, _ => false

/-- What `status` asks of the holder of the key before it looks at revocations. -/
def checkUse (kr : Keyring) (c : Chain) (eid t : JsVal) (role : Nat) : Outcome (Option String) :=
  match c.holder with
  | .record r => do
      if !strictEq r.f.subject eid then return some "key_not_for_this_node"
      else if !(← hasRole N c.roles role) then return some "key_lacks_role"
      else if !(← kr.inWindow N r.f t) then
        return some (if t.toPrim.lt N r.f.notBefore.toPrim then "key_not_yet_valid" else "key_expired")
      else return none
  | .anchor a =>
      .ok (if strictEq (a.eid.map .text) eid then none else some "key_not_for_this_node")

/-- May `pub` sign for `eid` at time `t`? -/
def status (kr : Keyring) (pub : Pub) (eid t : JsVal) (role : Nat := roleCustody) :
    Outcome Status := do
  let id := keyIdOf N pub
  match ← kr.chainOf N id with
  | .fail reason => return .fail reason
  | .ok c =>
      match ← kr.checkUse N c eid t role with
      | some reason => return .fail reason
      | none => return .ok (← kr.revokedFrom N id) c.anchor id

/-- The keys issued to `eid`, in the order of arrival. -/
def issuedPubs (eid : JsVal) : List Record → Outcome (List Pub)
  | [] => .ok []
  | r :: rs =>
      if r.f.kind.isInt kindKey && strictEq r.f.subject eid && r.f.pub.truthy then do
        return (← spkiOfField r.f.pub) :: (← issuedPubs eid rs)
      else issuedPubs eid rs

/-- Candidate public keys for an EID: anchors that name it, and keys issued to it. -/
def pubsFor (kr : Keyring) (eid : JsVal) : Outcome (List Pub) := do
  let named := (kr.anchors.values.filter fun a => strictEq (a.eid.map .text) eid).map Anchor.pub
  return (named ++ (← issuedPubs eid kr.records.values)).eraseDups

/-- The key records of every key on a chain. -/
def chainItems (kr : Keyring) : List KeyId → Outcome (List Cbor)
  | [] => .ok []
  | k :: ks => do return (← kr.keyRecords N k).map Record.item ++ (← chainItems kr ks)

def carriedChains (kr : Keyring) : List KeyId → Outcome (List Cbor)
  | [] => .ok []
  | id :: ids => do
      match ← kr.chainOf N id with
      | .fail _ => carriedChains kr ids
      | .ok c => return (← kr.chainItems N c.chain) ++ (← carriedChains kr ids)

/-- Records worth carrying onward: every revocation, then the key chains asked for. -/
def forCarriage (kr : Keyring) (chainIds : List KeyId) : Outcome (List Cbor) := do
  let revs := (kr.records.values.filter fun r => r.f.kind.isInt kindRevoke).map Record.item
  return revs ++ (← kr.carriedChains N chainIds)

/-! ## Keys and records to run the model on -/

def samplePair (b : UInt8) : KeyPair := ⟨[b, b, b, b], spkiOf [b, b, b, b]⟩

def sampleId (b : UInt8) : KeyId := keyIdOf sampleNode (samplePair b).pub

/-- A record, or `null` where issuing it throws. -/
def issued (item : Outcome Cbor) : Cbor :=
  match item with
  | .ok v => v
  | .error _ => .null

/-- Key `b` made for `subject` by `issuer`, valid from 0 to 1000. -/
def sampleKeyRecord (issuer b : UInt8) (subject : String) (roles : Nat := roleCustody) : Cbor :=
  issued (issueKey sampleNode (samplePair issuer)
    { subject := subject, pub := (samplePair b).pub, roles := roles, notBefore := 0,
      notAfter := 1000, issuedAt := 0 })

def sampleRevocation (signer target : UInt8) (effectiveFrom : Int) : Cbor :=
  issued (revokeKey sampleNode (samplePair signer) (samplePair target).pub effectiveFrom effectiveFrom)

end Keyring

end DtnCustody
