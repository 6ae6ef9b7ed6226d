/-
# DtnCustody.Cbor.Codec — `transport/bpv7/cbor.mjs`: `encode`, `decodeAt`, `decode`.

The offset arithmetic of the source is a byte list still to be read: `decodeAt` returns the value
and the rest. Its depth counter is counted down (`left`), from the 33 levels the source allows.
-/
import DtnCustody.Cbor.Value

namespace DtnCustody

open Base Js

namespace Cbor

/-! ## Encoding -/

/-- The initial byte and the argument, in the shortest form. An argument of 2^64 or more does not
fit `writeBigUInt64BE`. -/
def head (major n : Nat) : Outcome Bytes :=
  if n < 24 then .ok [UInt8.ofNat (major * 32 + n)]
  else if n < 0x100 then .ok (UInt8.ofNat (major * 32 + 24) :: beBytes 1 n)
  else if n < 0x10000 then .ok (UInt8.ofNat (major * 32 + 25) :: beBytes 2 n)
  else if n < 0x100000000 then .ok (UInt8.ofNat (major * 32 + 26) :: beBytes 4 n)
  else if n < 0x10000000000000000 then .ok (UInt8.ofNat (major * 32 + 27) :: beBytes 8 n)
  else .error .rangeError

/-- The head of a string, array or map: a length is a Number, so one beyond 2^53 is refused. -/
def lengthHead (major n : Nat) : Outcome Bytes :=
  if n ≤ 9007199254740991 then head major n
  else .error (.error "integer beyond 2^53, pass a BigInt")

mutual

def encode : Cbor → Outcome Bytes
  | .bool false => .ok [0xf4]
  | .bool true => .ok [0xf5]
  | .null => .ok [0xf6]
  | .int z => if z < 0 then head 1 (-1 - z).toNat else head 0 z.toNat
  | .text s => do
      let b := utf8Encode s.toList
      return (← lengthHead 3 b.length) ++ b
  | .bytes b => do return (← lengthHead 2 b.length) ++ b
  | .indef xs => do return 0x9f :: (← encodeAll xs) ++ [0xff]
  | .array xs => do return (← lengthHead 4 xs.length) ++ (← encodeAll xs)
  | .map kvs => do return (← lengthHead 5 kvs.length) ++ (← encodePairs kvs)

def encodeAll : List Cbor → Outcome Bytes
  | [] => .ok []
  | x :: xs => do return (← encode x) ++ (← encodeAll xs)

def encodePairs : List (Cbor × Cbor) → Outcome Bytes
  | [] => .ok []
  | p :: ps => do return (← encodePair p) ++ (← encodePairs ps)

def encodePair : Cbor × Cbor → Outcome Bytes
  | (k, v) => do return (← encode k) ++ (← encode v)

end

/-! ## Decoding -/

/-- `need(n)`, then the `n` bytes. -/
def take (n : Nat) (bs : Bytes) : Outcome (Bytes × Bytes) :=
  if bs.length < n then .error (.error "CBOR truncated") else .ok (bs.take n, bs.drop n)

/-- The argument that additional information `ai` announces; `none` is the indefinite form. -/
def readArg (ai : Nat) (bs : Bytes) : Outcome (Option Nat × Bytes) :=
  if ai < 24 then .ok (some ai, bs)
  else if ai = 24 then do let (b, r) ← take 1 bs; return (some (beNat b), r)
  else if ai = 25 then do let (b, r) ← take 2 bs; return (some (beNat b), r)
  else if ai = 26 then do let (b, r) ← take 4 bs; return (some (beNat b), r)
  else if ai = 27 then do let (b, r) ← take 8 bs; return (some (beNat b), r)
  else if ai = 31 then .ok (none, bs)
  else .error (.error s!"CBOR reserved additional info {ai}")

/-- The length of a string: an argument that came back as a BigInt is refused. -/
def readLength (arg : Option Nat) : Outcome Nat :=
  match arg with
  | some n =>
      if n ≤ 9007199254740991 then .ok n else .error (.error "unsupported string length")
  | none => .error (.error "unsupported string length")

/-- Exactly `n` items. -/
def decodeItems (item : Bytes → Outcome (Cbor × Bytes)) :
    Nat → Bytes → Outcome (List Cbor × Bytes)
  | 0, bs => .ok ([], bs)
  | n + 1, bs => do
      let (v, r) ← item bs
      let (vs, r) ← decodeItems item n r
      return (v :: vs, r)

/-- Items up to the break byte. Every item takes at least one byte, so `fuel` above the number of
bytes left is never used up. -/
def decodeToBreak (item : Bytes → Outcome (Cbor × Bytes)) :
    (fuel : Nat) → Bytes → Outcome (List Cbor × Bytes)
  | 0, _ => .error (.error "CBOR truncated")
  | _ + 1, [] => .error (.error "CBOR truncated")
  | fuel + 1, b :: bs =>
      if b = 0xff then .ok ([], bs)
      else do
        let (v, r) ← item (b :: bs)
        let (vs, r) ← decodeToBreak item fuel r
        return (v :: vs, r)

/-- Exactly `n` entries; a repeated key replaces the value it had. -/
def decodeEntries (item : Bytes → Outcome (Cbor × Bytes)) :
    Nat → List (Cbor × Cbor) → Bytes → Outcome (List (Cbor × Cbor) × Bytes)
  | 0, m, bs => .ok (m, bs)
  | n + 1, m, bs => do
      let (k, r) ← item bs
      let (v, r) ← item r
      decodeEntries item n (mapSet m k v) r

/-- The body of an item, by its major type. -/
def decodeBody (item : Bytes → Outcome (Cbor × Bytes)) (major ai : Nat) (arg : Option Nat)
    (bs : Bytes) : Outcome (Cbor × Bytes) :=
  match major with
  | 0 => match arg with
    | none => .error (.error "indefinite uint")
    | some n => .ok (.int n, bs)
  | 1 => match arg with
    | none => .error (.error "indefinite nint")
    | some n => .ok (.int (-1 - n), bs)
  | 2 => do
      let (s, r) ← take (← readLength arg) bs
      return (.bytes s, r)
  | 3 => do
      let (s, r) ← take (← readLength arg) bs
      return (.text (String.ofList (utf8Decode s)), r)
  | 4 => match arg with
    | none => do
        let (xs, r) ← decodeToBreak item (bs.length + 1) bs
        return (.indef xs, r)
    | some n => do
        let (xs, r) ← decodeItems item n bs
        return (.array xs, r)
  | 5 => match arg with
    | none => .error (.error "indefinite map not supported")
    | some n => do
        let (kvs, r) ← decodeEntries item n [] bs
        return (.map kvs, r)
  | 7 =>
      if ai = 20 then .ok (.bool false, bs)
      else if ai = 21 then .ok (.bool true, bs)
      else if ai = 22 then .ok (.null, bs)
      else .error (.error s!"unsupported CBOR simple/float {ai}")
  | m => .error (.error s!"unsupported CBOR major type {m}")

/-- The nesting `decodeAt` allows: depths 0 to 32. -/
def maxLevels : Nat := 33

/-- One item, with `left` levels of nesting still allowed. -/
def decodeAt : (left : Nat) → Bytes → Outcome (Cbor × Bytes)
  | 0, _ => .error (.error "CBOR nesting too deep")
  | _ + 1, [] => .error (.error "CBOR truncated")
  | left + 1, ib :: bs => do
      let (arg, r) ← readArg (ib.toNat % 32) bs
      decodeBody (decodeAt left) (ib.toNat / 32) (ib.toNat % 32) arg r

def decode (buf : Bytes) : Outcome Cbor := do
  let (v, rest) ← decodeAt maxLevels buf
  if rest = [] then return v else .error (.error "trailing bytes after CBOR item")

example : (encode (.map [(.int 1, .int (-8))])).bind decode = .ok (.map [(.int 1, .int (-8))]) := rfl

end Cbor

end DtnCustody
