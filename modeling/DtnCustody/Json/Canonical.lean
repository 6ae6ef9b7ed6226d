/-
# DtnCustody.Json.Canonical — `agent/lib/canonical.mjs`: canonical JSON and content identifiers.

`sortKeysDeep` copies a value with the keys of every object in code-unit order. The copy is an
object of the language, so its own order of enumeration applies (`ownOrder`): keys that are array
indices come first, by number. A property named `__proto__` sets the prototype of the copy instead
of adding a property, so it is gone from what `JSON.stringify` writes.
-/
import DtnCustody.Base.Armor
import DtnCustody.Json.Value
import Mathlib.Data.List.Sort

namespace DtnCustody

open Base Js

namespace Json

/-! ## `JSON.stringify` -/

def hexUnit (u : UInt16) : JsString :=
  js "\\u" ++ Hex.encode [UInt8.ofNat (u.toNat / 256), UInt8.ofNat (u.toNat % 256)]

/-- One code unit inside quotes that is not half of a pair. -/
def quoteUnit (u : UInt16) : JsString :=
  if u = 0x22 then js "\\\""
  else if u = 0x5c then js "\\\\"
  else if u = 0x08 then js "\\b"
  else if u = 0x09 then js "\\t"
  else if u = 0x0a then js "\\n"
  else if u = 0x0c then js "\\f"
  else if u = 0x0d then js "\\r"
  else if u < 0x20 || isHighSurrogate u || isLowSurrogate u then hexUnit u
  else [u]

/-- A surrogate pair is written as it is, a lone surrogate as an escape. -/
def quoteUnits : JsString → JsString
  | [] => []
  | [u] => quoteUnit u
  | u :: v :: rest =>
      if isHighSurrogate u && isLowSurrogate v then u :: v :: quoteUnits rest
      else quoteUnit u ++ quoteUnits (v :: rest)

def quote (s : JsString) : JsString := 0x22 :: quoteUnits s ++ [0x22]

variable (N : Node)

mutual

def stringify : Json → JsString
  | .null => js "null"
  | .bool b => if b then js "true" else js "false"
  | .num .nan => js "null"
  | .num (.inf _) => js "null"
  | .num x => Prim.numToString N x
  | .str s => quote s
  | .arr xs => js "[" ++ stringifyAll xs ++ js "]"
  | .obj fields => js "\x7b" ++ stringifyFields fields ++ js "\x7d"

def stringifyAll : List Json → JsString
  | [] => []
  | [x] => stringify x
  | x :: y :: rest => stringify x ++ js "," ++ stringifyAll (y :: rest)

def stringifyFields : List (JsString × Json) → JsString
  | [] => []
  | [p] => stringifyField p
  | p :: q :: rest => stringifyField p ++ js "," ++ stringifyFields (q :: rest)

def stringifyField : JsString × Json → JsString
  | (k, v) => quote k ++ js ":" ++ stringify v

end

/-! ## Sorted keys -/

/-- The number a key spells as an array index. -/
def arrayIndex? (k : JsString) : Option Nat :=
  match k with
  | [] => none
  | u :: rest =>
      if k.all (fun u => 48 ≤ u.toNat && u.toNat < 58) && (u != 48 || rest.isEmpty) then
        let n := k.foldl (fun n u => n * 10 + (u.toNat - 48)) 0
        if n < 4294967295 then some n else none
      else none

/-- The order in which properties set one after the other are enumerated. -/
def ownOrder (fields : List (JsString × Json)) : List (JsString × Json) :=
  let indexed := fields.filter fun p => (arrayIndex? p.1).isSome
  let named := fields.filter fun p => (arrayIndex? p.1).isNone
  indexed.insertionSort (fun p q => (arrayIndex? p.1).getD 0 ≤ (arrayIndex? q.1).getD 0) ++ named

def sortFields (fields : List (JsString × Json)) : List (JsString × Json) :=
  fields.insertionSort fun p q => p.1 ≤ q.1

/-- Properties set on a fresh object: `__proto__` is not one. -/
def assign (fields : List (JsString × Json)) : List (JsString × Json) :=
  ownOrder (fields.filter fun p => p.1 ≠ js "__proto__")

def maxDepth : Nat := 32

def tooDeep : Err := .error "nesting exceeds max depth 32"

mutual

/-- `sortKeysDeep(value, depth)`. -/
def sortKeysDeep (depth : Nat) : Json → Outcome Json
  | .arr xs => if maxDepth < depth then .error tooDeep else do return .arr (← sortAll (depth + 1) xs)
  | .obj fields =>
      if maxDepth < depth then .error tooDeep
      else do return .obj (assign (sortFields (← sortValues (depth + 1) fields)))
  | v => if maxDepth < depth then .error tooDeep else .ok v

def sortAll (depth : Nat) : List Json → Outcome (List Json)
  | [] => .ok []
  | x :: xs => do return (← sortKeysDeep depth x) :: (← sortAll depth xs)

def sortValues (depth : Nat) : List (JsString × Json) → Outcome (List (JsString × Json))
  | [] => .ok []
  | p :: ps => do return (← sortValue depth p) :: (← sortValues depth ps)

def sortValue (depth : Nat) : JsString × Json → Outcome (JsString × Json)
  | (k, v) => do return (k, ← sortKeysDeep depth v)

end

def canonicalize (v : Json) : Outcome JsString := do return stringify N (← sortKeysDeep 0 v)

/-! ## Content identifiers -/

def sha256hex (s : JsString) : JsString := Hex.encode (N.sha256 (toUtf8 s))

def credentialFields : List String := ["claimId", "sig", "signerPub"]

/-- The own enumerable properties that `Object.keys` lists; those of an array are its indices. -/
def ownFields : Json → List (JsString × Json)
  | .obj fields => fields
  | .arr xs => xs.zipIdx.map fun p => (js (toString p.2), p.1)
  | _ => []

def pickContent (v : Json) : Json :=
  .obj (assign (v.ownFields.filter fun p => !(credentialFields.any fun name => p.1 = js name)))

def contentId (v : Json) : Outcome JsString := do
  return js "0x" ++ sha256hex N (← canonicalize N v.pickContent)

end Json

end DtnCustody
