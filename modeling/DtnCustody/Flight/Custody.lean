/-
# DtnCustody.Flight.Custody — `flight/custody.c`: the records written on board.

A string is its bytes before the NUL, and a pointer to one may be NULL; the other pointers are not. Every record is written twice into
buffers of fixed size: without the credential fields, for its identifier, and with them. The writer
remembers its first failure to find room and the last string or number it would not write, and what the
functions give is the text, if nothing failed.

The parts of the library that are not this file's, SHA-256 and Ed25519, are the runtime's.
-/
import DtnCustody.Base.Text
import DtnCustody.Json.Value
import Mathlib.Data.List.Sort

namespace DtnCustody

open Base Js

namespace Flight

/-- `CK_E_STRING` and the others. -/
inductive CkError where
  | string
  | number
  | space
  | arg
  deriving DecidableEq, Repr

/-- The runtime, with the public key of a seed. -/
structure FlightHost extends Host where
  ed25519Public : Bytes → Bytes

/-- A literal. -/
def lit (s : String) : Bytes := bytesOf (js s)

/-! ## Encodings -/

/-- `B64[v >> shift & 63]`. -/
def b64Digit (v shift : Nat) : UInt8 :=
  (lit "ABCDEFGHIJKLMNOPQRSTUVWXYZabcdefghijklmnopqrstuvwxyz0123456789+/").getD (v >>> shift % 64) 0

def b64 : Bytes → Bytes
  | [] => []
  | [x] =>
      let v := x.toNat <<< 16
      [b64Digit v 18, b64Digit v 12, 61, 61]
  | [x, y] =>
      let v := x.toNat <<< 16 + y.toNat <<< 8
      [b64Digit v 18, b64Digit v 12, b64Digit v 6, 61]
  | x :: y :: z :: rest =>
      let v := x.toNat <<< 16 + y.toNat <<< 8 + z.toNat
      b64Digit v 18 :: b64Digit v 12 :: b64Digit v 6 :: b64Digit v 0 :: b64 rest

/-- `H[d]`. -/
def hexDigit (d : Nat) : UInt8 := (lit "0123456789abcdef").getD d 0

def ckHex (b : Bytes) : Bytes := b.flatMap fun x => [hexDigit (x.toNat >>> 4), hexDigit (x.toNat % 16)]

/-! ## Keys -/

structure CkKey where
  /-- The seed and the public key. -/
  sk : Bytes
  pubB64 : Bytes

def spki : Bytes := [0x30, 0x2a, 0x30, 0x05, 0x06, 0x03, 0x2b, 0x65, 0x70, 0x03, 0x21, 0x00]

section Program

variable (N : FlightHost)

/-- `ck_key_from_seed`. -/
def ckKeyFromSeed (seed : Bytes) : CkKey :=
  let pk := N.ed25519Public seed
  { sk := seed ++ pk, pubB64 := b64 (spki ++ pk) }

/-! ## Merkle primitives -/

def ckLeaf (bytes : Bytes) : Bytes := N.sha256 (0x00 :: bytes)

def ckNode (l r : Bytes) : Bytes := N.sha256 (0x01 :: (l ++ r))

/-- The node at `2k` and `2k + 1` of a layer of `w`, written over place `k`. -/
def layerStep (w : Nat) (s : List Bytes) (k : Nat) : List Bytes :=
  s.set k (ckNode N (s.getD (2 * k) [])
    (if 2 * k + 1 < w then s.getD (2 * k + 1) [] else s.getD (2 * k) []))

def foldLayer (w : Nat) (s : List Bytes) : List Bytes :=
  (List.range ((w + 1) / 2)).foldl (layerStep N w) s

/-- `for (w = n; w > 1; w = (w + 1) / 2)`, of at most `fuel` rounds. -/
def foldLayers : (fuel : Nat) → (w : Nat) → List Bytes → List Bytes
  | 0, _, s => s
  | fuel + 1, w, s => if 1 < w then foldLayers fuel ((w + 1) / 2) (foldLayer N w s) else s

end Program

/-! ## The writer -/

structure W where
  cap : Nat
  text : Bytes := []
  err : Option CkError := none

/-- `put(w, s)`; one byte is kept for the NUL. -/
def W.put (w : W) (s : Bytes) : W :=
  if w.err.isSome then w
  else if w.cap < w.text.length + s.length + 1 then { w with err := some .space }
  else { w with text := w.text ++ s }

/-- `safe(s)`: printable, and neither a quote nor a backslash. -/
def safe (s : Bytes) : Bool :=
  s.all fun x => decide (0x20 ≤ x.toNat ∧ x.toNat ≤ 0x7e) && x != 0x22 && x != 0x5c

/-- The quote before a key, and the comma where it is not the first. -/
def opening (first : Bool) : Bytes := if first then lit "\"" else lit ",\""

def W.kstr (w : W) (k : String) (v : Option Bytes) (first : Bool) : W :=
  match v with
  | none => { w with err := some .string }
  | some s =>
      if safe s then ((((w.put (opening first)).put (lit k)).put (lit "\":\"")).put s).put (lit "\"")
      else { w with err := some .string }

/-- `"%llu"`. -/
def decimal (v : Nat) : Bytes := lit (toString v)

def W.knum (w : W) (k : String) (v : Nat) (first : Bool) : W :=
  if 9007199254740991 < v then { w with err := some .number }
  else (((w.put (opening first)).put (lit k)).put (lit "\":")).put (decimal v)

/-- `snprintf(meta, …)`. -/
def metaText (chunkSize : Nat) : Bytes :=
  lit "\x7b\"chunkSize\":" ++ decimal chunkSize ++ lit "\x7d"

/-- One call of `kstr` or `knum`, or the two of `put` for `meta`. -/
inductive Field where
  | str (k : String) (v : Option Bytes)
  | num (k : String) (v : Nat)
  | chunkSize (v : Nat)

def W.field (w : W) (first : Bool) : Field → W
  | .str k v => w.kstr k v first
  | .num k v => w.knum k v first
  | .chunkSize v => (w.put (opening first ++ lit "meta\":")).put (metaText v)

/-- The calls in turn, the first one of them marked as the first. -/
def W.fields (w : W) : (first : Bool) → List Field → W
  | _, [] => w
  | first, f :: rest => (w.field first f).fields false rest

/-- A record in a buffer of `cap` bytes. -/
def writeRecord (cap : Nat) (fields : List Field) : Except CkError Bytes :=
  let w := ((W.put { cap } (lit "\x7b")).fields true fields).put (lit "\x7d")
  match w.err with
  | some e => .error e
  | none => .ok w.text

/-! ## Records -/

section Program

variable (N : FlightHost)

def contentId (canon : Bytes) : Bytes := lit "0x" ++ ckHex (N.sha256 canon)

/-- The signature over the identifier; the seed is the first half of the key. -/
def signId (k : CkKey) (id : Bytes) : Bytes := b64 (N.ed25519Sign (k.sk.take 32) id)

def ckBundleId (payloadId : Option Bytes) (index : UInt64) (leaf : Bytes) : Except CkError Bytes := do
  let buf ← writeRecord 512 [.num "index" index.toNat, .str "leafHex" (some (ckHex leaf)),
    .str "payloadId" payloadId]
  return contentId N buf

def ckManifest (k : CkKey) (payloadId : Option Bytes) (chunkCount : UInt64) (root : Bytes)
    (chunkSize : UInt64) (cap : Nat) : Except CkError Bytes :=
  let rh := ckHex root
  if 9007199254740991 < chunkSize.toNat then .error .number
  else do
    let c ← writeRecord 512 [.num "chunkCount" chunkCount.toNat, .str "kind" (some (lit "manifest/1")),
      .chunkSize chunkSize.toNat, .str "payloadId" payloadId, .str "root" (some rh)]
    let id := contentId N c
    let sig := signId N k id
    writeRecord cap [.num "chunkCount" chunkCount.toNat, .str "claimId" (some id),
      .str "kind" (some (lit "manifest/1")), .chunkSize chunkSize.toNat, .str "payloadId" payloadId,
      .str "root" (some rh), .str "sig" (some sig), .str "signerPub" (some k.pubB64)]

def ckCustody (k : CkKey) (payloadId bundleId prevHop thisHop : Option Bytes)
    (receivedAt forwardedAt : UInt64) (cap : Nat) : Except CkError Bytes := do
  let c ← writeRecord 1024 [.str "bundleId" bundleId, .num "forwardedAt" forwardedAt.toNat,
    .str "kind" (some (lit "custody/1")), .str "payloadId" payloadId, .str "prevHop" prevHop,
    .num "receivedAt" receivedAt.toNat, .str "thisHop" thisHop]
  let id := contentId N c
  let sig := signId N k id
  writeRecord cap [.str "bundleId" bundleId, .str "claimId" (some id),
    .num "forwardedAt" forwardedAt.toNat, .str "kind" (some (lit "custody/1")),
    .str "payloadId" payloadId, .str "prevHop" prevHop, .num "receivedAt" receivedAt.toNat,
    .str "sig" (some sig), .str "signerPub" (some k.pubB64), .str "thisHop" thisHop]

/-- The loop over the sorted identifiers: each is checked, and kept unless it is the one kept last. -/
def dedupe (kept : List Bytes) : List Bytes → Except CkError (List Bytes)
  | [] => .ok kept
  | id :: rest =>
      if safe id = false then .error .string
      else if kept.getLast? = some id then dedupe kept rest
      else dedupe (kept ++ [id]) rest

def ckBatch (k : CkKey) (prevHop thisHop contactId : Option Bytes) (fromTime toTime : UInt64)
    (ids : List Bytes) (cap : Nat) : Except CkError Bytes :=
  if ids = [] ∨ toTime < fromTime then .error .arg
  else do
    let kept ← dedupe [] (ids.insertionSort (· ≤ ·))
    let n := kept.length
    let rh := ckHex ((foldLayers N n n (kept.map (ckLeaf N))).getD 0 [])
    let c ← writeRecord 768 [.str "contactId" contactId, .num "count" n,
      .num "from" fromTime.toNat, .str "kind" (some (lit "custody-batch/1")), .str "prevHop" prevHop,
      .str "root" (some rh), .str "thisHop" thisHop, .num "to" toTime.toNat]
    let id := contentId N c
    let sig := signId N k id
    writeRecord cap [.str "claimId" (some id), .str "contactId" contactId, .num "count" n,
      .num "from" fromTime.toNat, .str "kind" (some (lit "custody-batch/1")), .str "prevHop" prevHop,
      .str "root" (some rh), .str "sig" (some sig), .str "signerPub" (some k.pubB64),
      .str "thisHop" thisHop, .num "to" toTime.toNat]

end Program

end Flight

end DtnCustody
