/-
# DtnCustody.Radio.Frame — `radio/lib/frame.mjs` and `radio/lib/payment.mjs`: frames, and the payments in them.

A frame is a header of thirteen bytes (`R`, version, type, eight bytes of message id, index, count) and
data. The reassembler keeps the frames of a message by index, under the message id in hexadecimal, and
forgets the message the moment the last one is in, whether or not it hashes to its id.

A payment is decoded by the transaction library, checked with what it carries along, handed to a
broadcaster when it checks, and answered with a signed receipt. The broadcast is awaited, so settling is
two halves: `judge` before it, `conclude` and `signReceipt` after.
-/
import DtnCustody.Base.Armor
import DtnCustody.Base.JsMap
import DtnCustody.Base.Text
import DtnCustody.Js.Operators

namespace DtnCustody.Radio

open Base Js

def header : Nat := 13

def defaultMtu : Nat := 200

/-- `TYPE`, as it stands in the third byte. -/
inductive FrameType where
  | payEf
  | payBeef
  | nack
  | receipt
  deriving DecidableEq, Repr

def FrameType.code : FrameType → UInt8
  | .payEf => 1
  | .payBeef => 2
  | .nack => 3
  | .receipt => 4

def frameType? (b : UInt8) : Option FrameType :=
  [FrameType.payEf, .payBeef, .nack, .receipt].find? fun t => t.code = b

def messageId (N : Node) (msg : Bytes) : Bytes := (N.sha256 msg).take 8

/-- The frame at an index of a message cut into `total` pieces of `room` bytes. -/
def frameAt (type : FrameType) (msg id : Bytes) (room total i : Nat) : Bytes :=
  [0x52, 1, type.code] ++ id ++ [UInt8.ofNat i, UInt8.ofNat total] ++ (msg.drop (i * room)).take room

/-- `split(type, msg, { mtu, id })`, with an id of eight bytes. -/
def split (type : FrameType) (msg : Bytes) (mtu : Nat) (id : Bytes) : Outcome (List Bytes) :=
  let room := mtu - header
  if room < 1 then .error (.error s!"mtu {mtu} leaves no room for data")
  else
    let total := max 1 ((msg.length + room - 1) / room)
    if 255 < total then
      .error (.error s!"message of {msg.length} bytes needs {total} frames; the limit is 255")
    else .ok ((List.range total).map (frameAt type msg id room total))

structure Frame where
  type : FrameType
  id : JsString
  index : Nat
  total : Nat
  data : Bytes
  deriving DecidableEq, Repr

/-- `parse(frame)`: `null` for anything that is not one of our frames. -/
def parse (f : Bytes) : Option Frame :=
  if f.length < header ∨ f.getD 0 0 ≠ 0x52 ∨ f.getD 1 0 ≠ 1 then none
  else
    let total := (f.getD 12 0).toNat
    let index := (f.getD 11 0).toNat
    match frameType? (f.getD 2 0) with
    | none => none
    | some type =>
        if total = 0 ∨ total ≤ index then none
        else some { type, id := Hex.encode ((f.drop 3).take 8), index, total, data := f.drop header }

/-! ## The reassembler -/

/-- What is in of one message. -/
structure Partial where
  type : FrameType
  total : Nat
  got : JsMap Nat Bytes
  last : Int

abbrev Parts := JsMap JsString Partial

/-- A message all of whose frames are in. -/
inductive Whole where
  | corrupt (type : FrameType) (id : JsString)
  | message (type : FrameType) (id : JsString) (msg : Bytes)
  deriving DecidableEq, Repr

def Whole.id : Whole → JsString
  | .corrupt _ id => id
  | .message _ id _ => id

/-- The data of every frame in turn; indices are below the count, so with as many as that none is
missing. -/
def Partial.joined (m : Partial) : Bytes :=
  (List.range m.total).flatMap fun i => (m.got.get? i).getD []

/-- `add(p)`, with hashes verified. -/
def Parts.add (N : Node) (parts : Parts) (p : Frame) (now : Int) : Option Whole × Parts :=
  let m := (parts.get? p.id).getD { type := p.type, total := p.total, got := JsMap.empty, last := now }
  if m.total ≠ p.total ∨ m.type ≠ p.type then (none, parts.set p.id m)
  else
    let m := { m with got := m.got.set p.index p.data, last := now }
    if m.got.size < m.total then (none, parts.set p.id m)
    else
      let msg := m.joined
      let whole := if Hex.encode (messageId N msg) ≠ p.id then Whole.corrupt m.type p.id
        else Whole.message m.type p.id msg
      (some whole, parts.delete p.id)

/-- `missing(id)`. -/
def Parts.missing (parts : Parts) (id : JsString) : List Nat :=
  match parts.get? id with
  | none => []
  | some m => (List.range m.total).filter fun i => !m.got.has i

/-- Only the message of the frame's own id is ever handed on. -/
theorem Parts.add_id {N : Node} {parts : Parts} {p : Frame} {now : Int} {whole : Whole}
    (h : (parts.add N p now).1 = some whole) : whole.id = p.id := by
  unfold Parts.add at h
  dsimp only at h
  split at h
  · cases h
  · split at h
    · cases h
    · cases h
      split
      · rfl
      · rfl

end DtnCustody.Radio

namespace DtnCustody.Radio

open Base Js

/-! ## Payments -/

/-- What an input spends, or an output pays. -/
structure Coin where
  satoshis : JsNum
  script : JsString

/-- The transaction library and the gateway's key; a thrown error is its message. -/
structure Sdk (Tx : Type) extends Node where
  fromEF : Bytes → Except JsString Tx
  fromBEEF : Bytes → Except JsString Tx
  txid : Tx → JsString
  /-- For each input the output it spends, where that is carried along. -/
  inputs : Tx → List (Option Coin)
  outputs : Tx → List Coin
  /-- `spend.validate()` of the input at an index. -/
  validate : Tx → Nat → Except JsString Bool
  /-- The gateway's compressed public key. -/
  gatewayPub : Bytes
  /-- The gateway's DER signature of a digest. -/
  signDER : Bytes → Bytes

variable {Tx : Type} (S : Sdk Tx)

def decodePayment (type : FrameType) (msg : Bytes) : Except JsString Tx :=
  match type with
  | .payEf => S.fromEF msg
  | .payBeef => S.fromBEEF msg
  | other => .error (js s!"not a payment frame type: {other.code.toNat}")

/-- `{ ok, txid, reason, fee }`. -/
structure Checked where
  ok : Bool
  txid : JsString
  reason : Option JsString := none
  fee : Option JsNum := none

/-- The inputs in turn, with the sum so far: the total, or why one does not check. -/
def checkInputs (tx : Tx) : (i : Nat) → (inSats : JsNum) → List (Option Coin) → Except JsString JsNum
  | _, inSats, [] => .ok inSats
  | i, _, none :: _ => .error (js s!"input {i}: amount and locking script are missing")
  | i, inSats, some src :: rest =>
      match S.validate tx i with
      | .error message => .error (message.takeWhile fun u => u ≠ 10)
      | .ok false => .error (js s!"input {i}: script did not validate")
      | .ok true => checkInputs tx (i + 1) (inSats.add src.satoshis) rest

def checkOffline (tx : Tx) : Checked :=
  let txid := S.txid tx
  let text := Prim.numToString S.toNode
  if (S.inputs tx).isEmpty || (S.outputs tx).isEmpty then
    { ok := false, txid, reason := some (js "no inputs or no outputs") }
  else
    match checkInputs S tx 0 (.fin 0) (S.inputs tx) with
    | .error reason => { ok := false, txid, reason := some reason }
    | .ok inSats =>
        let outSats := (S.outputs tx).foldl (fun s o => s.add o.satoshis) (.fin 0)
        if inSats.lt outSats = some true then
          { ok := false, txid, reason := some (js "outputs " ++ text outSats ++
              js " sat exceed inputs " ++ text inSats ++ js " sat") }
        else { ok := true, txid, fee := some (inSats.sub outSats) }

/-- `STATUS`. -/
inductive Status where
  | accepted
  | validNotSent
  | rejected
  | broadcastFailed
  deriving DecidableEq, Repr

def Status.code : Status → UInt8
  | .accepted => 1
  | .validNotSent => 2
  | .rejected => 3
  | .broadcastFailed => 4

/-- `NAME[status]`. -/
def Status.name : Status → JsString
  | .accepted => js "ACCEPTED"
  | .validNotSent => js "VALID_NOT_SENT"
  | .rejected => js "REJECTED"
  | .broadcastFailed => js "BROADCAST_FAILED"

def domain : Bytes := toUtf8 (js "bsvkey-radio-receipt/1")

/-- `signReceipt({ txid, status, id }, key)` at a time in milliseconds, the id being of eight bytes. A time
that does not fit four bytes throws. -/
def signReceipt (txid : JsString) (status : Status) (now : Int) (id : Bytes) : Outcome Bytes :=
  let time := now / 1000
  if time < 0 ∨ 4294967296 ≤ time then .error .rangeError
  else
    let txBytes := (Hex.decode txid).take 32
    let body := txBytes ++ List.replicate (32 - txBytes.length) 0 ++ [status.code] ++
      beBytes 4 time.toNat ++ id
    let digest := S.sha256 (domain ++ body ++ S.gatewayPub)
    .ok (body ++ S.gatewayPub ++ S.signDER digest)

/-! ## Settling -/

/-- The first half of `settlePayment`: decode and check. -/
def judge (type : FrameType) (msg : Bytes) : Option Tx × Checked :=
  match decodePayment S type msg with
  | .error message =>
      (none, { ok := false, txid := (List.replicate 64 48), reason := some message })
  | .ok tx => (some tx, checkOffline S tx)

/-- What a broadcaster answers. -/
structure Answer where
  ok : Bool
  sent : Bool
  detail : JsString
  deriving DecidableEq, Repr

/-- The status and the detail of a payment, after the broadcaster has answered, or rejected. -/
def conclude (check : Checked) (answer : Except JsString Answer) : Status × Option JsString :=
  if check.ok then
    let b := match answer with
      | .ok b => b
      | .error message => { ok := false, sent := true, detail := message }
    (if !b.ok then .broadcastFailed else if b.sent then .accepted else .validNotSent, some b.detail)
  else (.rejected, check.reason)

end DtnCustody.Radio
