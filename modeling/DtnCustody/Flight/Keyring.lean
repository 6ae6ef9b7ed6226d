/-
# DtnCustody.Flight.Keyring — `flight/keyring.c`: keys, revocations and who may sign, on board.

There is no heap. A record is parsed out of a buffer of known size, a byte at a time and with every length checked by
hand, into arrays of fixed size. So what matters first is what memory is touched: a load or a copy that leaves its
buffer, or a null pointer that is followed, is a `MemoryFault` here. The reader gives `none` where the source gives -1.

The tables of the keyring have fixed sizes too. The depth counter of `chain_of` and `revoked_from` is counted down:
`chainAt left` is `chain_of` at depth `maxDepth - left`, and `revokedAt left` is `revoked_from` there. An id is 16
bytes, and a 64-bit time wraps around.
-/
import DtnCustody.Base.Checked
import DtnCustody.Flight.Custody

namespace DtnCustody

open Base

namespace Onboard

open Flight (CkError)

/-! ## The CBOR reader -/

/-- Of the memory behind `p` the first `n` bytes are the reader's, and `i` of them have been read. -/
structure R where
  p : Bytes
  n : Nat
  i : Nat
  deriving DecidableEq, Repr

/-- The bytes that additional information `ai` announces. -/
def argLen (ai : Nat) : Option Nat :=
  if ai = 24 then some 1 else if ai = 25 then some 2 else if ai = 26 then some 4 else if ai = 27 then some 8 else none

/-- `head`: the major type and the value. -/
def head (r : R) : Checked (Option ((Nat × Nat) × R)) :=
  if r.n ≤ r.i then .ok none
  else do
    let b ← load r.p r.i
    let r := { r with i := r.i + 1 }
    let ai := b.toNat % 32
    if ai < 24 then return some ((b.toNat / 32, ai), r)
    else match argLen ai with
      | none => return none
      | some len =>
          if r.n - r.i < len then return none
          else do
            let v ← loads r.p r.i len
            return some ((b.toNat / 32, beNat v), { r with i := r.i + len })

/-- Where a string stands: `out` and `len` of `bytes`. -/
structure Span where
  start : Nat
  len : Nat
  deriving DecidableEq, Repr

/-- `bytes`: a string of major type `want`. -/
def bytes (want : Nat) (r : R) : Checked (Option (Span × R)) := do
  match ← head r with
  | none => return none
  | some ((m, v), r) =>
      if m ≠ want ∨ v > r.n - r.i then return none
      else return some (⟨r.i, v⟩, { r with i := r.i + v })

/-! ## Records -/

def maxRecords : Nat := 32
def maxAnchors : Nat := 4
def maxPayload : Nat := 256
def maxEid : Nat := 64
def maxDepth : Nat := 6
def maxChain : Nat := maxDepth + 2

def roleCustody : UInt32 := 1
def roleIssue : UInt32 := 2
def roleRevoke : UInt32 := 4

/-- `ck_record`. What is not set is zero. The payload ends at `plen`, and the subject before its NUL. -/
structure Record where
  kind : UInt8 := 0
  algOk : Bool
  sig : Bytes
  payload : Bytes
  subject : Bytes := []
  pub : Bytes := List.replicate 32 0
  keyid : Bytes := List.replicate 16 0
  roles : UInt32 := 0
  notBefore : UInt64 := 0
  notAfter : UInt64 := 0
  issuedAt : UInt64 := 0
  effectiveFrom : UInt64 := 0
  seenAt : UInt64 := 0
  issuer : Bytes := List.replicate 16 0
  target : Bytes := List.replicate 16 0
  deriving DecidableEq, Repr

/-- What is not in these files: SHA-256, and `crypto_sign_open` by the raw key, the message and the signature in
front of it. -/
structure KeyHost where
  sha256 : Bytes → Bytes
  signOpen : Bytes → Bytes → Bytes → Bool

variable (H : KeyHost)

/-- `ck_kr_keyid`. -/
def keyId (pub : Bytes) : Bytes := (H.sha256 pub).take 16

/-- A value of the payload map: a number, or a string that stands at `s`. Of a string `num` is the length. -/
structure Value where
  num : Nat
  s : Option Span
  deriving DecidableEq, Repr

/-- The value behind a key. A string is read again from its head, now with its bytes. -/
def readValue (q : R) : Checked (Option (Value × R)) := do
  match ← head q with
  | none => return none
  | some ((m, num), q') =>
      if m = 2 ∨ m = 3 then do
        match ← bytes m q with
        | none => return none
        | some (s, q') => return some (⟨num, some s⟩, q')
      else if m ≠ 0 then return none
      else return some (⟨num, none⟩, q')

/-- A field that is a string of exactly `len` bytes, copied into an array of that size. -/
def fixedBytes (p : Bytes) (s : Option Span) (len : Nat) : Checked (Option Bytes) :=
  match s with
  | none => .ok none
  | some s => if s.len ≠ len then .ok none else do return some (← copy len p s.start s.len)

/-- The `switch (key)`. -/
def setField (p : Bytes) (key : Nat) (v : Value) (f : Record) : Checked (Option Record) :=
  match key with
  | 1 => .ok (some { f with kind := UInt8.ofNat v.num })
  | 2 =>
      match v.s with
      | none => .ok none
      | some s =>
          if s.len ≥ maxEid then .ok none
          else do return some { f with subject := ← copy (maxEid - 1) p s.start s.len }
  | 3 => do return (← fixedBytes p v.s 32).map fun b => { f with pub := b, keyid := keyId H b }
  | 4 => .ok (some { f with roles := UInt32.ofNat v.num })
  | 5 => .ok (some { f with notBefore := UInt64.ofNat v.num })
  | 6 => .ok (some { f with notAfter := UInt64.ofNat v.num })
  | 7 => .ok (some { f with issuedAt := UInt64.ofNat v.num })
  | 8 => do return (← fixedBytes p v.s 16).map fun b => { f with issuer := b }
  | 10 => do return (← fixedBytes p v.s 16).map fun b => { f with target := b }
  | 11 => .ok (some { f with effectiveFrom := UInt64.ofNat v.num })
  | _ => .ok (some f)

/-- The loop over the entries of the payload map. -/
def readEntries : (count : Nat) → R → Record → Checked (Option Record)
  | 0, _, f => .ok (some f)
  | count + 1, q, f => do
      match ← head q with
      | none => return none
      | some ((m, key), q) =>
          if m ≠ 0 then return none
          else do
            match ← readValue q with
            | none => return none
            | some (v, q) => do
                match ← setField H q.p key v f with
                | none => return none
                | some f => readEntries count q f

/-- The payload map. -/
def readPayload (q : R) (f : Record) : Checked (Option Record) := do
  match ← head q with
  | none => return none
  | some ((m, count), q) => if m ≠ 5 then return none else readEntries H count q f

/-- `prot` is `{1: -8}`. -/
def readAlg (p : Bytes) (prot : Span) : Checked Bool :=
  if prot.len ≠ 3 then .ok false
  else do
    let b ← loads p prot.start 3
    return b == [0xa1, 0x01, 0x27]

/-- The four parts of a COSE_Sign1: where the protected header, the payload and the signature stand. -/
def readSign1 (r : R) : Checked (Option ((Span × Span × Span) × R)) := do
  match ← head r with
  | none => return none
  | some ((m, v), r) =>
      if m ≠ 4 ∨ v ≠ 4 then return none
      else do
        match ← bytes 2 r with
        | none => return none
        | some (prot, r) => do
            match ← head r with
            | none => return none
            | some ((m, v), r) =>
                if m ≠ 5 ∨ v ≠ 0 then return none
                else do
                  match ← bytes 2 r with
                  | none => return none
                  | some (pl, r) => do
                      match ← bytes 2 r with
                      | none => return none
                      | some (sig, r) => return some ((prot, pl, sig), r)

/-- `parse_item`. -/
def parseItem (r : R) : Checked (Option (Record × R)) := do
  match ← readSign1 r with
  | none => return none
  | some ((prot, pl, sig), r) =>
      if sig.len ≠ 64 ∨ pl.len > maxPayload then return none
      else do
        let algOk ← readAlg r.p prot
        let s ← copy 64 r.p sig.start 64
        let payload ← copy maxPayload r.p pl.start pl.len
        match ← readPayload H ⟨r.p.drop pl.start, pl.len, 0⟩ { algOk, sig := s, payload } with
        | none => return none
        | some f => return if f.kind = 1 ∨ f.kind = 2 then some (f, r) else none

/-! ## The keyring -/

structure Anchor where
  pub : Bytes
  id : Bytes
  eid : Bytes
  deriving DecidableEq, Repr

/-- `ck_keyring`, as far as its tables are filled. -/
structure Ring where
  anchors : List Anchor
  records : List Record
  skewMs : UInt64
  deriving DecidableEq, Repr

/-- `ck_kr_init`. -/
def init (skewMs : UInt64) : Ring := ⟨[], [], skewMs⟩

/-- `ck_kr_anchor`. A missing `eid` is the empty one. -/
def addAnchor (kr : Ring) (pub : Bytes) (eid : Option Bytes) : Except CkError Ring :=
  if kr.anchors.length ≥ maxAnchors then .error .space
  else if (eid.getD []).length ≥ maxEid then .error .string
  else .ok { kr with anchors := kr.anchors ++ [⟨pub, keyId H pub, eid.getD []⟩] }

/-- The comparison in `ck_kr_add`. -/
def same (o r : Record) : Bool := o.payload == r.payload && o.sig == r.sig && o.algOk == r.algOk

/-- The loop over the records that are there: the first that is the same keeps the earlier of the two sightings. -/
def sight (seenAt : UInt64) (r : Record) : List Record → Option (List Record)
  | [] => none
  | o :: os =>
      if same o r then some ({ o with seenAt := if seenAt < o.seenAt then seenAt else o.seenAt } :: os)
      else (sight seenAt r os).map (o :: ·)

/-- `ck_kr_add`, of the `n` bytes at `item`: the keyring after it, and what it returns. -/
def add (kr : Ring) (item : Bytes) (n : Nat) (seenAt : UInt64) : Checked (Ring × Except CkError Nat) := do
  match ← parseItem H ⟨item, n, 0⟩ with
  | none => return (kr, .error .arg)
  | some (r, rest) =>
      if rest.i ≠ n then return (kr, .error .arg)
      else match sight seenAt r kr.records with
        | some records => return ({ kr with records }, .ok 0)
        | none =>
            if kr.records.length ≥ maxRecords then return (kr, .error .space)
            else return ({ kr with records := kr.records ++ [{ r with seenAt }] }, .ok 1)

/-- The loop of `ck_kr_ingest_block`. What was added before an item that is refused stays. -/
def ingestItems (seenAt : UInt64) : (count : Nat) → R → Ring → Nat → Checked (Ring × Except CkError Nat)
  | 0, _, kr, added => .ok (kr, .ok added)
  | count + 1, r, kr, added => do
      match ← parseItem H r with
      | none => return (kr, .error .arg)
      | some (_, rest) => do
          match ← add H kr (r.p.drop r.i) (rest.i - r.i) seenAt with
          | (kr, .error e) => return (kr, .error e)
          | (kr, .ok a) => ingestItems seenAt count rest kr (added + a)

/-- `ck_kr_ingest_block`. -/
def ingestBlock (kr : Ring) (data : Bytes) (n : Nat) (seenAt : UInt64) : Checked (Ring × Except CkError Nat) := do
  match ← head ⟨data, n, 0⟩ with
  | none => return (kr, .error .arg)
  | some ((m, count), r) => if m ≠ 4 then return (kr, .error .arg) else ingestItems H seenAt count r kr 0

/-! ## Signatures -/

/-- `PREFIX`. -/
def sigPrefix : Bytes :=
  [0x84, 0x6a, 0x53, 0x69, 0x67, 0x6e, 0x61, 0x74, 0x75, 0x72, 0x65, 0x31, 0x43, 0xa1, 0x01, 0x27, 0x40]

/-- The head of a byte string, as `verify` writes it. -/
def byteHead (plen : Nat) : Bytes :=
  if plen < 24 then [UInt8.ofNat (0x40 ||| plen)]
  else if plen < 256 then [0x58, UInt8.ofNat plen]
  else [0x59, UInt8.ofNat (plen / 256), UInt8.ofNat plen]

/-- The size of `sm_buf` and `m_buf`. -/
def smSize : Nat := 64 + 32 + maxPayload

/-- `verify`. Everything is written into one buffer before the key is looked at. -/
def verify (r : Record) (pub : Option Bytes) : Checked Bool :=
  if !r.algOk then .ok false
  else
    let m := sigPrefix ++ byteHead r.payload.length ++ r.payload
    if r.sig.length + m.length > smSize then .error .outOfBounds
    else match pub with
      | none => .error .nullPointer
      | some pub => .ok (H.signOpen pub m r.sig)

/-! ## The rules -/

inductive Reason where
  | ok
  | keyUnknown
  | chainNotAnchored
  | chainTooLong
  | issuerLacksIssueRole
  | recordSignatureInvalid
  | issuerNotValidAtIssuance
  | issuerRevoked
  | keyNotForThisNode
  | keyLacksRole
  | keyExpired
  | keyNotYetValid
  deriving DecidableEq, Repr

/-- `ck_kr_reason`. -/
def Reason.text : Reason → String
  | .ok => "ok"
  | .keyUnknown => "key_unknown"
  | .chainNotAnchored => "chain_not_anchored"
  | .chainTooLong => "chain_too_long"
  | .issuerLacksIssueRole => "issuer_lacks_issue_role"
  | .recordSignatureInvalid => "record_signature_invalid"
  | .issuerNotValidAtIssuance => "issuer_not_valid_at_issuance"
  | .issuerRevoked => "issuer_revoked"
  | .keyNotForThisNode => "key_not_for_this_node"
  | .keyLacksRole => "key_lacks_role"
  | .keyExpired => "key_expired"
  | .keyNotYetValid => "key_not_yet_valid"

/-- `anchor_of`. -/
def anchorOf (kr : Ring) (id : Bytes) : Option Nat := kr.anchors.findIdx? fun a => a.id == id

/-- `kr->anchors[i]`. -/
def anchorAt (kr : Ring) (i : Nat) : Checked Anchor :=
  match kr.anchors[i]? with
  | some a => .ok a
  | none => .error .outOfBounds

def isKeyOf (id : Bytes) (r : Record) : Bool := r.kind == 1 && r.keyid == id

def isRevocationOf (id : Bytes) (r : Record) : Bool := r.kind == 2 && r.target == id

/-- `pub_of`; `none` is the null pointer. -/
def pubOf (kr : Ring) (id : Bytes) : Option Bytes :=
  match kr.anchors.find? fun a => a.id == id with
  | some a => some a.pub
  | none => (kr.records.find? (isKeyOf id)).map Record.pub

/-- `in_window`. -/
def inWindow (kr : Ring) (f : Record) (t : UInt64) : Bool :=
  let lo := if f.notBefore > kr.skewMs then f.notBefore - kr.skewMs else 0
  t ≥ lo && t ≤ f.notAfter + kr.skewMs

/-- What a chain that is `ok` ends in. -/
structure Chain where
  holder : Option Record
  anchor : Nat
  roles : UInt32
  chain : List Bytes
  deriving DecidableEq, Repr

abbrev ChainResult := Except Reason Chain

/-- `NONE`. -/
def none64 : UInt64 := 0xffffffffffffffff

/-- One record of key `id` in the loop of `chain_of`. -/
def judgeRecord (kr : Ring) (up : Bytes → Checked ChainResult) (rev : Bytes → Checked UInt64) (id : Bytes)
    (r : Record) : Checked ChainResult := do
  match ← up r.issuer with
  | .error reason => return .error reason
  | .ok u =>
      if u.roles &&& roleIssue = 0 then return .error .issuerLacksIssueRole
      else if !(← verify H r (pubOf kr r.issuer)) then return .error .recordSignatureInvalid
      else if (u.holder.any fun h => !inWindow kr h r.issuedAt) then return .error .issuerNotValidAtIssuance
      else do
        let T ← rev r.issuer
        if T ≠ none64 ∧ ¬ r.seenAt < T then return .error .issuerRevoked
        else return .ok ⟨some r, u.anchor, r.roles, (id :: u.chain).take maxChain⟩

/-- The loop of `chain_of`; `last` is there once a record of the key has been found. -/
def searchRecords (id : Bytes) (missing : Reason) (judge : Record → Checked ChainResult) :
    List Record → (last : Option Reason) → Checked ChainResult
  | [], last => .ok (.error (last.getD missing))
  | r :: rs, last =>
      if !isKeyOf id r then searchRecords id missing judge rs last
      else do
        match ← judge r with
        | .ok c => return .ok c
        | .error reason => searchRecords id missing judge rs (some reason)

/-- Whether a correctly signed revocation of `id` counts. -/
def allowedSigner (kr : Ring) (up : Bytes → Checked ChainResult) (target : ChainResult) (targetPub : Option Bytes)
    (id issuer : Bytes) : Checked Bool :=
  if issuer = id then .ok targetPub.isSome
  else if (target.toOption.any fun c => c.chain.contains issuer) then .ok true
  else if (anchorOf kr issuer).isSome then .ok true
  else do
    match ← up issuer with
    | .error _ => return false
    | .ok s =>
        if s.roles &&& roleRevoke = 0 then return false
        else return target.toOption.any fun c => s.anchor == c.anchor

/-- One record in the loop of `revoked_from`: does it count? -/
def counts (kr : Ring) (up : Bytes → Checked ChainResult) (target : ChainResult) (targetPub : Option Bytes)
    (id : Bytes) (r : Record) : Checked Bool :=
  if !isRevocationOf id r then .ok false
  else match pubOf kr r.issuer with
    | none => .ok false
    | some pub => do
        if !(← verify H r (some pub)) then return false
        else allowedSigner kr up target targetPub id r.issuer

/-- The loop of `revoked_from`. -/
def countRevocations (judge : Record → Checked Bool) : List Record → UInt64 → Checked UInt64
  | [], T => .ok T
  | r :: rs, T => do
      if ← judge r then countRevocations judge rs (if T = none64 ∨ r.effectiveFrom < T then r.effectiveFrom else T)
      else countRevocations judge rs T

/-- The chain of an anchor is the anchor. -/
def anchorChain (id : Bytes) (i : Nat) : Chain := ⟨none, i, roleCustody ||| roleIssue ||| roleRevoke, [id]⟩

mutual

/-- `chain_of(kr, id, maxDepth - left)`. -/
def chainAt (kr : Ring) : (left : Nat) → Bytes → Checked ChainResult
  | 0, id =>
      match anchorOf kr id with
      | some i => .ok (.ok (anchorChain id i))
      | none => .ok (.error .chainTooLong)
  | left + 1, id =>
      match anchorOf kr id with
      | some i => .ok (.ok (anchorChain id i))
      | none =>
          searchRecords id (if left + 1 = maxDepth then .keyUnknown else .chainNotAnchored)
            (judgeRecord H kr (chainAt kr left) (revokedAt kr left) id) kr.records none

/-- `revoked_from(kr, id, maxDepth - left)`. -/
def revokedAt (kr : Ring) : (left : Nat) → Bytes → Checked UInt64
  | 0, _ => .ok none64
  | left + 1, id => do
      let target ← chainAt kr left id
      countRevocations (counts H kr (chainAt kr left) target (pubOf kr id) id) kr.records none64

end

/-- `ck_kr_result`. -/
structure Result where
  ok : Bool := false
  reason : Reason := .ok
  revoked : Bool := false
  revokedFrom : UInt64 := 0
  keyid : Bytes
  deriving DecidableEq, Repr

/-- The bytes of a string before its NUL. -/
def cstr (b : Bytes) : Bytes := b.takeWhile (· != 0)

/-- What `ck_kr_status` asks of the holder of the key. -/
def checkUse (kr : Ring) (c : Chain) (eid : Bytes) (t : UInt64) (role : UInt32) : Checked (Option Reason) :=
  match c.holder with
  | some r =>
      if cstr r.subject ≠ eid then .ok (some .keyNotForThisNode)
      else if c.roles &&& role = 0 then .ok (some .keyLacksRole)
      else if !inWindow kr r t then
        .ok (some (if t < r.notBefore then .keyNotYetValid else .keyExpired))
      else .ok none
  | none => do
      let a ← anchorAt kr c.anchor
      return if a.eid = [] ∨ a.eid ≠ eid then some .keyNotForThisNode else none

/-- `ck_kr_status`, for a string `eid`. -/
def status (kr : Ring) (pub eid : Bytes) (t : UInt64) (role : UInt32) : Checked Result := do
  let id := keyId H pub
  match ← chainAt H kr maxDepth id with
  | .error reason => return { reason, keyid := id }
  | .ok c => do
      match ← checkUse kr c eid t role with
      | some reason => return { reason, keyid := id }
      | none => do
          let T ← revokedAt H kr maxDepth id
          return if T ≠ none64 then { ok := true, revoked := true, revokedFrom := T, keyid := id }
            else { ok := true, keyid := id }

end Onboard

end DtnCustody
