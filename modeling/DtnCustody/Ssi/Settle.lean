/-
# DtnCustody.Ssi.Settle — `ssi/settle.mjs`: clearing between operators, from receipts alone.

`clear` takes a list of claims, each of them a bundle as bytes, and judges every receipt in block 224 on
its own. A receipt that counts is credited to the operator of the node that signed it, once for each
bundle and custodian; whoever brings it first decides what it is worth. The clearing house then signs a
statement for each operator that is owed something.

Amounts are exact: `payloadBytes / 1e6 * ratePerMB` and their sums are taken in `ℚ`, where the source
uses doubles. The claim object that `clear` marks with the number of unsigned hops is left alone; the
marks are a list of their own.

An array in the place of a receipt's payload is read as if its elements were bytes, by a decoder that was
written for buffers. What comes of that is a parameter (`looseFields`); no such receipt verifies.
-/
import DtnCustody.Agent.Batch
import DtnCustody.Agent.Merkle
import DtnCustody.Agent.Receipt
import DtnCustody.Base.JsMap
import DtnCustody.Cbor.Encodable
import DtnCustody.Json.Returns
import DtnCustody.Transport.VerdictsV2

namespace DtnCustody

open Base Js

namespace Settle

open ReceiptV2 (Fields readBlockItems chainDigest propertyName signedAt)

/-! ## What the clearing house is given -/

inductive Source where
  | delivery
  | submitted
  deriving DecidableEq

/-- A bundle as bytes, and when the owner had it by its own clock. -/
structure Claim where
  data : Bytes
  /-- No more bytes than a process can address. -/
  fits : data.length ≤ Cbor.addressable
  arrivedAt : JsNum
  source : Source
  note : String

structure SettleHost extends Host where
  /-- The fields of a receipt whose payload is an array. -/
  looseFields : List Cbor → Outcome Fields

/-- The arguments of `clear` beside the claims. `operators` gives the rate card, `opOf` the operator of
a node by its name; `ssi/world.mjs` keeps both tables, and every node in it has one of its operators. -/
structure Params where
  keyring : Keyring
  /-- The identities, as text, of the bundles that the owner received. -/
  delivered : JsString → Bool
  owner : String
  clearingKey : AgentKey
  period : Json
  operators : JsMap String ℚ
  opOf : String → Option String
  known : ∀ eid op, opOf eid = some op → operators.has op = true
  /-- The period is two dates; a statement about it can be hashed. -/
  shallow : Json.height period < Json.maxDepth

/-! ## The state of a clearing -/

structure Account where
  bundles : Nat := 0
  bytes : Nat := 0
  amount : ℚ := 0
  leaves : List JsString := []
  rejected : Nat := 0
  unsignedHops : Nat := 0
  deriving DecidableEq

structure Rejection where
  claim : String
  hop : JsVal := none
  op : Option String := none
  reason : String
  deriving DecidableEq

structure Credit where
  op : Option String
  amount : ℚ
  deriving DecidableEq

structure State where
  credited : JsMap JsString Credit
  rejected : List Rejection
  perOp : JsMap String Account
  /-- `claim.unsigned` of the claims that were gone through. -/
  unsigned : List Prim

variable (H : SettleHost) (P : Params)

def Params.start : State where
  credited := .empty
  rejected := []
  perOp := .ofList (P.operators.keys.map fun op => (op, {}))
  unsigned := []

def State.reject (s : State) (r : Rejection) : State := { s with rejected := s.rejected ++ [r] }

def State.mark (s : State) (unsigned : Prim) : State := { s with unsigned := s.unsigned ++ [unsigned] }

/-- A change of `perOp[op]`. -/
def State.adjust (s : State) (op : String) (f : Account → Account) : Outcome State :=
  match s.perOp.get? op with
  | none => .error .typeError
  | some a => .ok { s with perOp := s.perOp.set op (f a) }

/-! ## The verdict on a receipt -/

/-- `{ ok: true, revokedFrom }` or `{ reason }`. -/
inductive Verdict where
  | ok (revokedFrom : JsVal)
  | fail (reason : String)
  deriving DecidableEq

def Verdict.isOk : Verdict → Bool
  | .ok _ => true
  | .fail _ => false

/-- The time a key is revoked from, where it is. -/
def Verdict.revocation : Verdict → Option Cbor
  | .ok none => none
  | .ok (some .null) => none
  | .ok (some T) => some T
  | .fail _ => none

/-- Good, with a key that is not revoked. -/
def Verdict.isCurrent (v : Verdict) : Bool := v.isOk && v.revocation.isNone

structure Finding where
  item : Cbor
  f : Fields
  v : Verdict

/-- `receiptFields(item)`. -/
def readFields (item : Cbor) : Outcome Fields :=
  match item with
  | .array (_ :: _ :: .array xs :: _) => H.looseFields xs
  | _ => ReceiptV2.receiptFields item

/-- `chainDigest(items.slice(0, i)).equals(f.chain)`, where there is a field 9. -/
def chainMatches (before : List Cbor) (f : Fields) : Outcome Bool :=
  match f.chain with
  | none => .ok true
  | some (.bytes c) => do return decide ((← chainDigest H.toNode before) = c)
  | some _ => .error .typeError

/-- The signature, and the status of its key at the time the receipt claims. -/
def judgeKey (item : Cbor) (f : Fields) : Outcome Verdict := do
  match (← P.keyring.pubsFor f.thisHop).find? fun p =>
      (Cose.verify1 H.toNode item (some p)).isOk with
  | none => return .fail "signature_invalid"
  | some pub =>
      match ← P.keyring.status H.toNode pub f.thisHop (signedAt f) with
      | .fail reason => return .fail reason
      | .ok revokedFrom _ _ => return .ok revokedFrom

def judge (before : List Cbor) (item : Cbor) (f : Fields) : Outcome Verdict := do
  if ← chainMatches H before f then judgeKey H P item f
  else return .fail "chain_digest_mismatch"

/-- The verdicts on receipts that follow on `before`. -/
def judgeAll : (before : List Cbor) → List (Cbor × Fields) → Outcome (List Finding)
  | _, [] => .ok []
  | before, (item, f) :: rest => do
      let v ← judge H P before item f
      return ⟨item, f, v⟩ :: (← judgeAll (before ++ [item]) rest)

def tampered (found : List Finding) : Bool :=
  found.any fun x => x.v = .fail "chain_digest_mismatch"

/-- A later receipt that commits to the ones before it, by a key that is not revoked, before `T`. -/
def sawIt (T : Cbor) (later : List Finding) : Bool :=
  later.any fun g =>
    g.f.chain.isSome && g.v.isCurrent && g.f.receivedAt.toPrim.lt H.toNode T.toPrim

/-- The verdict, once it is asked who saw a receipt whose key was revoked later. -/
def finalVerdict (c : Claim) (x : Finding) (later : List Finding) : Verdict :=
  match x.v.revocation with
  | none => x.v
  | some T =>
      if !(signedAt x.f).toPrim.lt H.toNode T.toPrim then .fail "signed_after_revocation"
      else if sawIt H T later || (Prim.num c.arrivedAt).lt H.toNode T.toPrim then x.v
      else .fail "revoked_unwitnessed"

def finalFindings (c : Claim) : List Finding → List Finding
  | [] => []
  | x :: later => { x with v := finalVerdict H c x later } :: finalFindings c later

/-! ## One receipt, one claim -/

def hopOf (x : Finding) : String := propertyName x.f.thisHop

/-- `sha(encode(item))`. -/
def leafOf (item : Cbor) : Outcome JsString := do
  return Hex.encode (H.sha256 (← Cbor.encode item))

/-- `${id}|${hop}`. -/
def creditKey (id : JsString) (hop : String) : JsString := id ++ js "|" ++ js hop

def Account.credit (a : Account) (bytes : Nat) (amount : ℚ) (leaf : JsString) : Account :=
  { a with bundles := a.bundles + 1, bytes := a.bytes + bytes, amount := a.amount + amount,
           leaves := a.leaves ++ [leaf] }

def amountOf (payloadBytes : Nat) (ratePerMB : ℚ) : ℚ := payloadBytes / 1000000 * ratePerMB

/-- A receipt that does not count. -/
def refuseReceipt (note : String) (x : Finding) (reason : String) (s : State) : Outcome State :=
  let op := P.opOf (hopOf x)
  let s := s.reject ⟨note, x.f.thisHop, op, reason⟩
  match op with
  | some o => if o = "" then .ok s else s.adjust o fun a => { a with rejected := a.rejected + 1 }
  | none => .ok s

/-- A receipt that counts: for the owner's own nodes, and a second time, it earns nothing. -/
def creditReceipt (id : JsString) (payloadBytes : Nat) (x : Finding) (s : State) : Outcome State :=
  let op := P.opOf (hopOf x)
  let key := creditKey id (hopOf x)
  if op = some P.owner then .ok s
  else if s.credited.has key then .ok s
  else
    let name := op.getD "undefined"
    match P.operators.get? name with
    | none => .error .typeError
    | some rate => do
        let amount := amountOf payloadBytes rate
        let s := { s with credited := s.credited.set key ⟨op, amount⟩ }
        let leaf ← leafOf H x.item
        s.adjust name fun a => a.credit payloadBytes amount leaf

def postReceipt (note : String) (id : JsString) (payloadBytes : Nat) (s : State) (x : Finding) :
    Outcome State :=
  match x.v with
  | .fail reason => refuseReceipt P note x reason s
  | .ok _ => creditReceipt H P id payloadBytes x s

/-- `f.hopCount[i]`. -/
def countAt (f : Fields) (i : Nat) : Prim :=
  match f.hopCount with
  | none => .undef
  | some v =>
      match v.index i with
      | .error _ => .undef
      | .ok s => s.toPrim

/-- The plain forwarders between two custodians, on top of those counted before. -/
def countUnsigned (source : Source) (total : Prim) (a c : Fields) : Outcome Prim :=
  if a.hopCount.truthy && c.hopCount.truthy then do
    let n ← (countAt c 0).sub H.toNode (countAt a 1)
    if (Prim.int 0).lt H.toNode n && source = .delivery then
      (if total.truthy then total else .int 0).add H.toNode n
    else return total
  else .ok total

def unsignedHops (source : Source) : (total : Prim) → List Fields → Outcome Prim
  | total, a :: c :: rest => do
      unsignedHops source (← countUnsigned H source total a c) (c :: rest)
  | total, [_] => .ok total
  | total, [] => .ok total

def itemsOf (b : Bundle) : Outcome (List Cbor) := do
  match ← readBlockItems b with
  | .none => return []
  | .v1 items => return items
  | .v2 items => return items

/-- `JSON.stringify(bundleIdentity(b))`. -/
def identityText (b : Bundle) : Outcome JsString := do
  return Json.stringify H.toNode (← (← b.bundleIdentity H.toNode).toJson)

/-- What is found in block 224: the fields of the receipts, and the verdicts before it is asked who saw
them. -/
def examine (b : Bundle) : Outcome (List Finding) := do
  let items ← itemsOf b
  let f ← items.mapM (readFields H)
  judgeAll H P [] (items.zip f)

/-- What `clear` makes of a claim before anything is posted. -/
inductive Reading where
  | refused (reason : String)
  | opened (id : JsString) (payloadBytes : Nat) (found : List Finding)

def readClaim (c : Claim) : Outcome Reading := do
  let b ← Bundle.decodeBundle H.toNode c.data
  let id ← identityText H b
  let payload ← b.payloadOf
  if !P.delivered id then return .refused "bundle_never_delivered"
  else
    let found ← examine H P b
    if tampered found then return .refused "chain_digest_mismatch"
    else return .opened id payload.length found

/-- A tampered chain earns nothing for anyone: the claim is refused as a whole. -/
def clearClaim (s : State) (c : Claim) : Outcome State := do
  match ← readClaim H P c with
  | .refused reason => return s.reject { claim := c.note, reason }
  | .opened id payloadBytes found =>
      let s ← (finalFindings H c found).foldlM (postReceipt H P c.note id payloadBytes) s
      return s.mark (← unsignedHops H c.source .undef (found.map Finding.f))

/-! ## Statements -/

/-- `Number(x.toFixed(6))`. -/
def toFixed6 (x : ℚ) : ℚ :=
  if 10 ^ 21 ≤ |x| then x
  else if x < 0 then -(⌊-x * 1000000 + 1 / 2⌋ / 1000000) else ⌊x * 1000000 + 1 / 2⌋ / 1000000

def statementOf (op : String) (a : Account) (rate : ℚ) (root : JsString) :
    List (JsString × Json) :=
  [(js "kind", .text "ssi.settlement/1"), (js "operator", .text op), (js "payer", .text P.owner),
   (js "period", P.period), (js "bundles", .int a.bundles), (js "bytes", .int a.bytes),
   (js "amount", .num (.fin (toFixed6 a.amount))), (js "ratePerMB", .num (.fin rate)),
   (js "receiptsRoot", .str root)]

/-- The leaves are sorted where they stand. -/
def Account.close (a : Account) : Account := { a with leaves := Batch.sortIds a.leaves }

/-- An operator other than the owner that carried something gets a statement. -/
def billable (p : String × Account) : Bool := p.1 ≠ P.owner && p.2.bundles ≠ 0

def signStatement (p : String × Account) : Outcome (String × Json) := do
  let tree ← Merkle.buildTree H.toNode p.2.close.leaves
  match P.operators.get? p.1 with
  | none => .error .typeError
  | some rate =>
      return (p.1, ← Receipt.signRecord H.toHost P.clearingKey (statementOf P p.1 p.2 rate tree.root))

structure Result where
  perOp : List (String × Account)
  rejected : List Rejection
  statements : List (String × Json)
  credited : Nat

/-- The claims, one after the other. -/
def post (claims : List Claim) : Outcome State := claims.foldlM (clearClaim H P) P.start

def clear (claims : List Claim) : Outcome Result := do
  let s ← post H P claims
  let statements ← (s.perOp.entries.filter (billable P)).mapM (signStatement H P)
  return { perOp := s.perOp.entries.map fun p => if billable P p then (p.1, p.2.close) else p,
           rejected := s.rejected, statements, credited := s.credited.size }

end Settle

end DtnCustody
