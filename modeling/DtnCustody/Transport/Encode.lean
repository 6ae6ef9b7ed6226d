/-
# DtnCustody.Transport.Encode — `transport/bpv7/bundle.mjs`: writing a BPv7 bundle.

`encodeBundle` takes an object in which flags, CRC types and the report-to node may be missing: `??`
puts a default in the place of `undefined` and `null`. A block is sealed by encoding it twice, first
with zeros for its CRC.
-/
import DtnCustody.Cbor.Items
import DtnCustody.Transport.Bundle

namespace DtnCustody

open Base Js

namespace Bundle

/-! ## Endpoint identifiers -/

/-- What `.` does not match in a regular expression. -/
def isLineTerminator (c : Char) : Bool :=
  c = '\n' || c = '\r' || c = '\u2028' || c = '\u2029'

/-- `/^dtn:(\/\/.+)$/`, applied to what follows `dtn:`. -/
def isDtnPath (cs : List Char) : Bool :=
  match cs with
  | '/' :: '/' :: c :: rest => (c :: rest).all fun c => !isLineTerminator c
  | _ => false

def isDigit (c : Char) : Bool := c.isDigit

/-- `/^ipn:(\d+)\.(\d+)$/`, applied to what follows `ipn:`: the two runs of digits. -/
def ipnParts (cs : List Char) : Option (List Char × List Char) :=
  match cs.dropWhile isDigit with
  | '.' :: service =>
      if cs.takeWhile isDigit ≠ [] ∧ service ≠ [] ∧ service.all isDigit then
        some (cs.takeWhile isDigit, service)
      else none
  | _ => none

/-- The Number that digits spell. It is exact as far as the encoder takes it. -/
def numberOfDigits (cs : List Char) : JsNum :=
  let n := Nat.ofDigitChars 10 cs 0
  if n < 2 ^ 1024 - 2 ^ 970 then .fin n else .inf false

def encodeEid (eid : String) : Outcome Cbor.Item :=
  if eid = "dtn:none" then .ok (.array [.num (.fin 1), .num (.fin 0)])
  else match eid.toList with
    | 'd' :: 't' :: 'n' :: ':' :: path =>
        if isDtnPath path then .ok (.array [.num (.fin 1), .text (utf16 path)])
        else .error (.error ("unsupported EID " ++ eid))
    | 'i' :: 'p' :: 'n' :: ':' :: rest =>
        match ipnParts rest with
        | some (node, service) =>
            .ok (.array [.num (.fin 2),
              .array [.num (numberOfDigits node), .num (numberOfDigits service)]])
        | none => .error (.error ("unsupported EID " ++ eid))
    | _ => .error (.error ("unsupported EID " ++ eid))

/-! ## Blocks -/

/-- A block as the encoder gets it, an array of fields; with a CRC field if it has a CRC type. -/
def sealBlock (fields : List Cbor.Item) (type : JsVal) : Outcome Bytes :=
  if type.isInt 0 then (Cbor.Item.array fields).encodeItem
  else do
    let zeroed ← (Cbor.Item.array (fields ++ [.bstr (List.replicate (crcLen type) 0)])).encodeItem
    (Cbor.Item.array (fields ++ [.bstr (crcBytes type zeroed)])).encodeItem

/-- A field that may be missing. -/
def fieldItem : JsVal → Cbor.Item
  | none => .other "undefined"
  | some v => .ofValue v

/-- Half of a creation timestamp. -/
def slotItem : Slot → Cbor.Item
  | .undefined => .other "undefined"
  | .val v => .ofValue v
  | .half u => .text [u]

end Bundle

/-! ## The bundle object -/

structure PrimaryObject where
  flags : JsVal := none
  crcType : JsVal := none
  dest : String
  source : String
  reportTo : Option String := none
  created : Slot × Slot
  lifetime : JsVal
  fragmentOffset : JsVal := none
  totalAduLength : JsVal := none

structure BlockObject where
  type : JsVal
  number : JsVal
  flags : JsVal := none
  crcType : JsVal := none
  data : Bytes

structure BundleObject where
  primary : PrimaryObject
  blocks : List BlockObject

namespace Bundle

variable (N : Node)

def primaryFlags (p : PrimaryObject) : Cbor := p.flags.orElse (.int 0)

/-- CRC-32C unless said otherwise. -/
def primaryCrcType (p : PrimaryObject) : Cbor := p.crcType.orElse (.int 2)

def blockFlags (b : BlockObject) : Cbor := b.flags.orElse (.int 0)

/-- No CRC unless said otherwise. -/
def blockCrcType (b : BlockObject) : Cbor := b.crcType.orElse (.int 0)

def encodePrimary (p : PrimaryObject) : Outcome Bytes := do
  let dest ← encodeEid p.dest
  let source ← encodeEid p.source
  let reportTo ← encodeEid (p.reportTo.getD "dtn:none")
  let pf : List Cbor.Item :=
    [.num (.fin 7), .ofValue (primaryFlags p), .ofValue (primaryCrcType p), dest, source, reportTo,
      .array [slotItem p.created.1, slotItem p.created.2], fieldItem p.lifetime]
  let frag ← fragmentBit N (some (primaryFlags p))
  let pf := if frag = 0 then pf else pf ++ [fieldItem p.fragmentOffset, fieldItem p.totalAduLength]
  sealBlock pf (some (primaryCrcType p))

def encodeBlock (b : BlockObject) : Outcome Bytes :=
  sealBlock [fieldItem b.type, fieldItem b.number, .ofValue (blockFlags b), .ofValue (blockCrcType b),
    .bstr b.data] (some (blockCrcType b))

def encodeBlocks : List BlockObject → Outcome Bytes
  | [] => .ok []
  | b :: bs => do return (← encodeBlock b) ++ (← encodeBlocks bs)

def encodeBundle (o : BundleObject) : Outcome Bytes := do
  let primary ← encodePrimary N o.primary
  if (o.blocks.getLast?.map BlockObject.type) ≠ some (some payloadType) then
    .error (.error "the payload block must be the last block")
  else do
    let blocks ← encodeBlocks o.blocks
    return 0x9f :: (primary ++ blocks) ++ [0xff]

end Bundle

/-! ## A decoded bundle as an object -/

def Block.toObject (b : Block) : BlockObject where
  type := some b.type
  number := some b.number
  flags := some b.flags
  crcType := some b.crcType
  data := b.data

def Primary.toObject (p : Primary) : PrimaryObject where
  flags := some p.flags
  crcType := some p.crcType
  dest := p.dest
  source := p.source
  reportTo := some p.reportTo
  created := p.created
  lifetime := some p.lifetime
  fragmentOffset := p.fragmentOffset
  totalAduLength := p.totalAduLength

def Bundle.toObject (b : Bundle) : BundleObject where
  primary := b.primary.toObject
  blocks := b.blocks.map Block.toObject

/-! ## An object with what was missing -/

def PrimaryObject.filled (p : PrimaryObject) : Primary where
  flags := Bundle.primaryFlags p
  crcType := Bundle.primaryCrcType p
  dest := p.dest
  source := p.source
  reportTo := p.reportTo.getD "dtn:none"
  created := p.created
  lifetime := p.lifetime.getD .null
  fragmentOffset := p.fragmentOffset
  totalAduLength := p.totalAduLength

def BlockObject.filled (b : BlockObject) : Block where
  type := b.type.getD .null
  number := b.number.getD .null
  flags := Bundle.blockFlags b
  crcType := Bundle.blockCrcType b
  data := b.data

/-- The object with the encoder's defaults in the place of what is missing. -/
def BundleObject.filled (o : BundleObject) : Bundle where
  primary := o.primary.filled
  blocks := o.blocks.map BlockObject.filled

end DtnCustody
