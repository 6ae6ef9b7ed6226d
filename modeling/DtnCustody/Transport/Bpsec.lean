/-
# DtnCustody.Transport.Bpsec — `parseAsb`, `ippt` and `verifyBibs` of `transport/bpv7/bpsec.mjs`.

A Block Integrity Block carries an abstract security block: targets, context, source, parameters and
results, read with the generic decoder. What stands in their places has any type, and it is taken
apart with destructuring, `find`, `Buffer.from` and `&` outside the one `try`.
-/
import DtnCustody.Js.Check
import DtnCustody.Transport.Encode

namespace DtnCustody

open Base Js

/-- The runtime with HMAC and AES Key Wrap; `none` is a throw. -/
structure BibHost extends Node where
  /-- Digest, key, data. -/
  hmac : String → Bytes → Bytes → Bytes
  /-- Cipher, key encryption key, wrapped key. -/
  unwrap : String → Bytes → Bytes → Option Bytes

namespace Bpsec

def bibType : Cbor := .int 11

inductive Mode where
  | rfc9173
  | ion
  deriving DecidableEq

/-! ## Destructuring -/

/-- A string of one character. -/
def charText (c : Char) : Cbor := .text (String.ofList [c])

/-- What iterating over a value gives; only arrays, strings, buffers and maps can be iterated over. -/
def iterate : Cbor → Outcome (List Cbor)
  | .array xs => .ok xs
  | .text s => .ok (s.toList.map charText)
  | .bytes b => .ok (b.map fun x => .int x.toNat)
  | .map kvs => .ok (kvs.map fun p => .array [p.1, p.2])
  | _ => .error .typeError

/-- `[k, v]`. -/
def pairOf (v : Cbor) : Outcome (JsVal × JsVal) := do
  let xs ← iterate v
  return (xs[0]?, xs[1]?)

/-- `new Map(v.map(([k, v]) => [k, v]))`, by its entries; only arrays and buffers have a `map`. -/
def entries : Cbor → Outcome (List (JsVal × JsVal))
  | .array xs => xs.mapM pairOf
  | .bytes b => b.mapM fun x => pairOf (.int x.toNat)
  | _ => .error .typeError

/-! ## The abstract security block -/

structure Asb where
  targets : Cbor
  contextId : Cbor
  contextFlags : Cbor
  source : String
  params : List (JsVal × JsVal)
  results : Cbor

variable (H : BibHost)

def next (bs : Bytes) : Outcome (Cbor × Bytes) := Cbor.decodeAt Cbor.maxLevels bs

/-- The parameters, which are there when the first context flag is set. -/
def parseParams (flag : Nat) (bs : Bytes) : Outcome (List (JsVal × JsVal) × Bytes) :=
  if flag = 0 then .ok ([], bs)
  else do
    let (v, r) ← next bs
    return (← entries v, r)

def parseAsb (data : Bytes) : Outcome Asb := do
  let (targets, r) ← next data
  let (contextId, r) ← next r
  let (contextFlags, r) ← next r
  let (source, r) ← next r
  let source ← Bundle.decodeEid (some source)
  let flag ← contextFlags.toPrim.bitAnd H.toNode 1
  let (params, r) ← parseParams flag r
  let (results, r) ← next r
  if r ≠ [] then .error (.error "trailing bytes in security block")
  else return { targets, contextId, contextFlags, source, params, results }

/-- The last entry with a Number as its key; `none` when there is none. -/
def Asb.find (a : Asb) (key : Int) : Option JsVal :=
  (a.params.reverse.find? fun p => p.1.isInt key).map Prod.snd

/-- `asb.params.get(key)`. -/
def Asb.param (a : Asb) (key : Int) : JsVal := (a.find key).getD none

def defaultVariant (mode : Mode) : Cbor := if mode = .ion then .int 5 else .int 6

def Asb.variant (a : Asb) (mode : Mode) : Cbor := (a.param 1).orElse (defaultVariant mode)

def Asb.scope (a : Asb) : Cbor := (a.param 3).orElse (.int 7)

/-- `t[i]` for every `i < t.length`; `null` has no `length`, and that of other values is `undefined`. -/
def elements : Cbor → Outcome (List Slot)
  | .null => .error .typeError
  | .array xs => .ok (xs.map .val)
  | .text s => .ok ((js s).map Slot.ofUnit)
  | .bytes b => .ok (b.map fun x => .val (.int x.toNat))
  | _ => .ok []

/-! ## The protected plaintext -/

/-- What a target number stands for. -/
inductive Target where
  | primary
  | block (b : Block)

/-- The primary block as it goes on the wire: the first item of the encoded bundle. -/
def primaryBytes (b : Bundle) : Outcome Bytes := do
  let all ← Bundle.encodeBundle H.toNode b.toObject
  let (_, r) ← next all.tail
  return all.tail.take (all.tail.length - r.length)

/-- The encodings of three values, one after the other. -/
def uints (x y z : Cbor) : Outcome Bytes := do
  return (← Cbor.encode x) ++ (← Cbor.encode y) ++ (← Cbor.encode z)

/-- `scope & mask`. -/
def scopeBit (scope : Cbor) (mask : Nat) : Outcome Nat := scope.toPrim.bitAnd H.toNode mask

/-- A part that is written when `scope & mask`. -/
def partWhen (scope : Cbor) (mask : Nat) (part : Outcome Bytes) : Outcome Bytes := do
  let n ← scopeBit H scope mask
  if n = 0 then return [] else part

/-- The target itself, behind the headers. -/
def targetBytes (b : Bundle) (t : Target) (mode : Mode) (a3Primary : Bool) : Outcome Bytes :=
  match t with
  | .primary => do
      let p ← primaryBytes H b
      if a3Primary then Cbor.encode (.bytes p) else return p
  | .block x =>
      if mode = .ion then
        Bundle.sealBlock [.ofValue x.type, .ofValue x.number, .num (.fin 0),
          .ofValue (JsVal.orElse (some x.crcType) (.int 0)), .bstr x.data]
          (some (JsVal.orElse (some x.crcType) (.int 0)))
      else Cbor.encode (.bytes x.data)

/-- The headers of a target that is not the primary block, as far as they are in scope. -/
def headerBytes (b : Bundle) (t : Target) (scope : Cbor) : Outcome Bytes :=
  match t with
  | .primary => .ok []
  | .block x => do
      let p ← partWhen H scope 1 (primaryBytes H b)
      let h ← partWhen H scope 2 (uints x.type x.number (JsVal.orElse (some x.flags) (.int 0)))
      return p ++ h

def ippt (b : Bundle) (t : Target) (bib : Block) (scope : Cbor) (mode : Mode) (a3Primary : Bool) :
    Outcome Bytes := do
  let s ← Cbor.encode (.int (← scopeBit H scope 7))
  let h ← headerBytes H b t scope
  let sec ← partWhen H scope 4 (uints bibType bib.number (JsVal.orElse (some bib.flags) (.int 0)))
  let tb ← targetBytes H b t mode a3Primary
  return s ++ h ++ sec ++ tb

/-- `HASH[variant]`: anything but the three names makes `createHmac` throw. -/
def hashName (variant : Cbor) : Option String :=
  if variant.toText = "5" then some "sha256"
  else if variant.toText = "6" then some "sha384"
  else if variant.toText = "7" then some "sha512"
  else none

def mac (variant : Cbor) (key data : Bytes) : Outcome Bytes :=
  match hashName variant with
  | some name => .ok (H.hmac name key data)
  | none => .error .typeError

/-! ## The key -/

def wrapCipher (kek : Bytes) : Option String :=
  if kek.length = 16 then some "id-aes128-wrap"
  else if kek.length = 24 then some "id-aes192-wrap"
  else if kek.length = 32 then some "id-aes256-wrap"
  else none

def unwrapKey (kek : Bytes) (wrapped : JsVal) : Outcome Bytes :=
  match wrapCipher kek with
  | none => .error (.error s!"no AES key wrap for a {kek.length}-byte key")
  | some alg => do
      match H.unwrap alg kek (← wrapped.bufferFrom H.toNode) with
      | some k => return k
      | none => .error (.error "unwrap failed")

/-- The key a BIB is verified with: the one it carries, unwrapped, or the caller's. -/
def macKey (a : Asb) (key : Bytes) : Outcome Bytes :=
  match a.find 2 with
  | some wrapped => unwrapKey H key wrapped
  | none => .ok key

/-! ## The results -/

/-- `results[i] || []`. -/
def resultsAt (results : Cbor) (i : Nat) : Outcome Slot :=
  match results.index i with
  | .error e => .error e
  | .ok (.val v) => .ok (if v.truthy then .val v else .val (.array []))
  | .ok .undefined => .ok (.val (.array []))
  | .ok (.half u) => .ok (.half u)

/-- The first of `rs` whose first part is the Number `1`; every one before it is taken apart too. -/
def firstMac : List Cbor → Outcome (Option Cbor)
  | [] => .ok none
  | r :: rs => do
      let (id, _) ← pairOf r
      if id.isInt 1 then return some r else firstMac rs

/-- `rs.find(([id]) => id === RESULT_MAC)`; only arrays and buffers have a `find`. -/
def findMac : Slot → Outcome (Option Cbor)
  | .val (.array rs) => firstMac rs
  | .val (.bytes b) => firstMac (b.map fun x => .int x.toNat)
  | _ => .error .typeError

/-- `Buffer.from(r[1])`. -/
def macValue (r : Cbor) : Outcome Bytes := do
  match ← r.index 1 with
  | .val v => JsVal.bufferFrom H.toNode (some v)
  | .undefined => .error .typeError
  | .half u => return toUtf8 [u]

/-! ## Verification -/

structure BibInfo where
  number : Cbor
  source : String
  targets : Cbor
  deriving DecidableEq

structure Refusal where
  reason : String
  detail : Option Err := none
  context : JsVal := none
  bib : JsVal := none
  target : Option Slot := none
  deriving DecidableEq

/-- `{ ok: true, bibs, a3PrimaryFallback }` or `{ ok: false, reason, ... }`. -/
inductive Verdict where
  | ok (bibs : List BibInfo) (a3Fallbacks : Nat)
  | fail (r : Refusal)
  deriving DecidableEq

structure Options where
  mode : Mode := .rfc9173
  a3Primary : Bool := true

/-- The block a target number stands for: `0` is the primary block. -/
def targetOf (b : Bundle) (n : Slot) : Option Target :=
  match n with
  | .val (.int 0) => some .primary
  | .val v => (b.blocks.find? fun x => Cbor.sameKey x.number v).map .block
  | _ => none

/-- The CRC type of a target. -/
def targetCrc (b : Bundle) : Target → Cbor
  | .primary => b.primary.crcType
  | .block x => x.crcType

/-- What a BIB is checked with. -/
structure Context where
  bib : Block
  asb : Asb
  key : Bytes

/-- The two forms of the MAC; the second is tried for the primary block only. The answer counts the
fallback. -/
def checkMac (o : Options) (b : Bundle) (c : Context) (n : Slot) (t : Target) (got : Bytes) :
    Check Refusal Nat :=
  let variant := c.asb.variant o.mode
  let macOf (a3 : Bool) : Outcome Bytes := do
    mac H variant c.key (← ippt H b t c.bib c.asb.scope o.mode a3)
  let mismatch : Refusal := { reason := "mac_mismatch", bib := some c.bib.number, target := some n }
  (Check.eval (macOf false)).andThen fun want =>
    if got = want then Check.pass 0
    else match t with
      | .primary =>
          if o.a3Primary then
            (Check.eval (macOf true)).andThen fun want =>
              if got = want then Check.pass 1 else Check.refuse mismatch
          else Check.refuse mismatch
      | .block _ => Check.refuse mismatch

/-- One target of a BIB, the one after `before`. -/
def checkTarget (o : Options) (b : Bundle) (c : Context) (before : List Slot) (fallbacks : Nat)
    (n : Slot) : Check Refusal Nat :=
  let refusal (reason : String) : Refusal :=
    { reason, bib := some c.bib.number, target := some n }
  match targetOf b n with
  | none => Check.refuse (refusal "target_missing")
  | some t =>
      if o.mode ≠ .ion ∧ targetCrc b t ≠ .int 0 then Check.refuse (refusal "target_has_crc")
      else
        (Check.eval (resultsAt c.asb.results before.length)).andThen fun rs =>
          (Check.eval (findMac rs)).andThen fun r =>
            match r with
            | none => Check.refuse (refusal "no_mac_result")
            | some r =>
                (Check.eval (macValue H r)).andThen fun got =>
                  (checkMac H o b c n t got).andThen fun k => Check.pass (fallbacks + k)

/-- One BIB. -/
def checkBib (o : Options) (b : Bundle) (key : Bytes) (_before : List Block)
    (s : List BibInfo × Nat) (bib : Block) : Check Refusal (List BibInfo × Nat) :=
  match parseAsb H bib.data with
  | .error e => Check.refuse { reason := "bib_malformed", detail := some e }
  | .ok asb =>
      if asb.contextId ≠ .int 1 then
        Check.refuse { reason := "unsupported_security_context", context := some asb.contextId }
      else match macKey H asb key with
        | .error _ => Check.refuse { reason := "key_unwrap_failed", bib := some bib.number }
        | .ok k =>
            (Check.eval (elements asb.targets)).andThen fun targets =>
              (Check.loop (checkTarget H o b ⟨bib, asb, k⟩) [] s.2 targets).andThen fun fallbacks =>
                Check.pass (s.1 ++ [⟨bib.number, asb.source, asb.targets⟩], fallbacks)

def verifyBibs (b : Bundle) (key : Bytes) (o : Options) : Outcome Verdict :=
  match b.blocks.filter fun x => x.type = bibType with
  | [] => .ok (.fail { reason := "no_bib" })
  | bibs => do
      match ← Check.loop (checkBib H o b key) [] ([], 0) bibs with
      | .inl r => return .fail r
      | .inr (out, fallbacks) => return .ok out fallbacks

end Bpsec

end DtnCustody
