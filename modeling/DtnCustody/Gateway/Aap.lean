/-
# DtnCustody.Gateway.Aap — `r2/aap.mjs`: the client of the application agent protocol.

A packet is one byte of version and type, and behind it the fields that its type calls for. The parser
finds a packet where it was written and waits on anything less (`framed_parse`), so it does not matter
where the stream is cut.

A reply names no request. The client keeps the resolvers of its promises in two queues, and a reply
takes the resolver in front; a resolver is written here as the number of the call that made it.
-/
import DtnCustody.Base.Text
import DtnCustody.Base.Framing
import DtnCustody.Js.Operators

namespace DtnCustody

open Base Js

namespace Aap

namespace T

def ACK : UInt8 := 0
def NACK : UInt8 := 1
def REGISTER : UInt8 := 2
def SENDBUNDLE : UInt8 := 3
def RECVBUNDLE : UInt8 := 4
def SENDCONFIRM : UInt8 := 5
def CANCELBUNDLE : UInt8 := 6
def WELCOME : UInt8 := 7
def PING : UInt8 := 8

end T

def NEED_EID : List UInt8 := [T.REGISTER, T.SENDBUNDLE, T.RECVBUNDLE, T.WELCOME]
def NEED_PL : List UInt8 := [T.SENDBUNDLE, T.RECVBUNDLE]
def NEED_BID : List UInt8 := [T.SENDCONFIRM, T.CANCELBUNDLE]

/-- `Buffer.from([0x10 | (type & 0xf)])`. -/
def header (type : UInt8) : UInt8 := 0x10 ||| (type &&& 0xf)

/-- The EID part. `Buffer.from(eid, "ascii")` keeps the low byte of each unit, and `writeUInt16BE` throws
on a length above 16 bits. -/
def serializeEid : Option JsString → Outcome Bytes
  | none => .ok []
  | some eid =>
      let e := bytesOf eid
      if e.length ≤ 0xffff then .ok (beBytes 2 e.length ++ e) else .error .rangeError

def serialize (type : UInt8) (eid : Option JsString) (payload : Option Bytes) : Outcome Bytes := do
  let e ← serializeEid eid
  return [header type] ++ e ++ payload.elim [] fun p => beBytes 8 p.length ++ p

/-! ## The parser -/

/-- A packet off the wire: its type, and the fields that the type calls for. -/
structure Packet where
  type : UInt8
  eid : Option JsString
  payload : Option Bytes
  bundleId : Option Nat
  deriving DecidableEq

/-- A length of some bytes, and as many bytes; `none` until they are there. -/
def takeSized (width : Nat) (b : Bytes) : Option (Bytes × Bytes) :=
  if b.length < width then none
  else
    let len := beNat (b.take width)
    if b.length < width + len then none
    else some ((b.drop width).take len, b.drop (width + len))

/-- `toString("ascii")`, which drops the high bit. -/
def ascii (b : Bytes) : JsString := unitsOf (b.map (· &&& 0x7f))

def takeEid (b : Bytes) : Option (JsString × Bytes) :=
  (takeSized 2 b).map fun r => (ascii r.1, r.2)

/-- `Number(readBigUInt64BE())` is exact on every length that a buffer can have. -/
def takePayload (b : Bytes) : Option (Bytes × Bytes) := takeSized 8 b

def takeBundleId (b : Bytes) : Option (Nat × Bytes) :=
  if b.length < 8 then none else some (beNat (b.take 8), b.drop 8)

/-- One round of `_parse`: the packet at the front of the buffer, and what is behind it. -/
def parse : Bytes → Option (Packet × Bytes)
  | [] => none
  | head :: b => do
      let type := head &&& 0xf
      let (eid, b) ← ifNeeded (NEED_EID.contains type) takeEid b
      let (payload, b) ← ifNeeded (NEED_PL.contains type) takePayload b
      let (bundleId, b) ← ifNeeded (NEED_BID.contains type) takeBundleId b
      some ({ type, eid, payload, bundleId }, b)

/-! ## The client -/

inductive Event where
  | welcome (eid : Option JsString)
  | nack
  | bundle (eid : Option JsString) (payload : Option Bytes)
  deriving DecidableEq

/-- One connection. `registered` and `confirmed` are the promises of `register` and of `send` that are
resolved, each with its value (`r()` gives `undefined`). -/
structure Client where
  buf : Bytes := []
  ackQ : List Nat := []
  confirmQ : List Nat := []
  nodeEid : Option JsString := none
  registered : List (Nat × Option Nat) := []
  confirmed : List (Nat × Option Nat) := []
  rejected : List Nat := []
  emitted : List Event := []
  /-- The buffers written to the socket. -/
  written : List Bytes := []
  deriving DecidableEq

namespace Client

def emit (c : Client) (e : Event) : Client := { c with emitted := c.emitted ++ [e] }

def write (c : Client) (bytes : Bytes) : Client := { c with written := c.written ++ [bytes] }

/-- `Buffer.from([0x10 | T.ACK])`. -/
def ackFrame : Bytes := [header T.ACK]

/-- `const r = this.ackQ.shift(); if (r) r();` -/
def shiftAck (c : Client) : Client :=
  match c.ackQ with
  | [] => c
  | r :: rest => { c with ackQ := rest, registered := c.registered ++ [(r, none)] }

/-- `const r = this.confirmQ.shift(); if (r) r(bundleId);` -/
def shiftConfirm (c : Client) (bundleId : Option Nat) : Client :=
  match c.confirmQ with
  | [] => c
  | r :: rest => { c with confirmQ := rest, confirmed := c.confirmed ++ [(r, bundleId)] }

def dispatch (c : Client) (p : Packet) : Client :=
  if p.type = T.WELCOME then { c with nodeEid := p.eid }.emit (.welcome p.eid)
  else if p.type = T.ACK then c.shiftAck
  else if p.type = T.NACK then c.emit .nack
  else if p.type = T.SENDCONFIRM then c.shiftConfirm p.bundleId
  else if p.type = T.RECVBUNDLE then (c.write ackFrame).emit (.bundle p.eid p.payload)
  else if p.type = T.PING then c.write ackFrame
  else c

/-- One turn of the loop of `_parse`. -/
def turn (c : Client) : Option Client :=
  (parse c.buf).map fun r => { c with buf := r.2 }.dispatch r.1

/-- The listener of `data`, before it goes on to `_parse`. -/
def data (c : Client) (d : Bytes) : Client := { c with buf := c.buf ++ d }

/-- What is written for a request; an executor that throws rejects its promise. -/
def request (c : Client) (k : Nat) (frame : Outcome Bytes) : Client :=
  match frame with
  | .ok bytes => c.write bytes
  | .error _ => { c with rejected := c.rejected ++ [k] }

/-- `register`, as call `k`. -/
def register (c : Client) (k : Nat) (agentId : JsString) : Client :=
  { c with ackQ := c.ackQ ++ [k] }.request k (serialize T.REGISTER (some agentId) none)

/-- `send`, as call `k`. -/
def send (c : Client) (k : Nat) (destEid : JsString) (payload : Bytes) : Client :=
  { c with confirmQ := c.confirmQ ++ [k] }.request k (serialize T.SENDBUNDLE (some destEid) (some payload))

end Client

/-! ## The wire -/

namespace Packet

/-- A packet as it is written: the header byte, and the fields that are there. -/
def bytes (p : Packet) : Bytes :=
  [header p.type] ++ p.eid.elim [] (fun e => beBytes 2 e.length ++ bytesOf e)
    ++ p.payload.elim [] (fun d => beBytes 8 d.length ++ d) ++ p.bundleId.elim [] (beBytes 8)

/-- A packet has the fields that its type calls for, each within the bounds of the format. -/
structure Fits (p : Packet) : Prop where
  type : p.type < 16
  eid : p.eid.isSome = NEED_EID.contains p.type ∧
    ∀ e, p.eid = some e → IsAscii e ∧ e.length < 256 ^ 2
  payload : p.payload.isSome = NEED_PL.contains p.type ∧
    ∀ d, p.payload = some d → d.length < 256 ^ 8
  bundleId : p.bundleId.isSome = NEED_BID.contains p.type ∧
    ∀ n, p.bundleId = some n → n < 256 ^ 8

end Packet

theorem field_takeSized (width : Nat) :
    Field (fun d => d.length < 256 ^ width) (fun d => beBytes width d.length ++ d)
      (takeSized width) where
  whole := by
    intro d hd rest
    have hlen : ((beBytes width d.length ++ d) ++ rest).length = width + d.length + rest.length := by
      simp only [List.length_append, length_beBytes]
    have hcount : beNat (((beBytes width d.length ++ d) ++ rest).take width) = d.length := by
      rw [List.append_assoc, List.take_left' (length_beBytes _ _), beNat_beBytes hd]
    have hdata : ((beBytes width d.length ++ d) ++ rest).drop width = d ++ rest := by
      rw [List.append_assoc, List.drop_left' (length_beBytes _ _)]
    rw [takeSized, if_neg (by omega)]
    simp only [hcount]
    rw [if_neg (by omega), ← List.drop_drop, hdata, List.take_left, List.drop_left]
  longer := by
    intro b d rest h c
    rw [takeSized] at h
    split at h
    · cases h
    · rename_i hwidth
      simp only at h
      split at h
      · cases h
      · rename_i hlen
        cases h
        have htake : (b ++ c).take width = b.take width :=
          List.take_append_of_le_length (by omega)
        rw [takeSized, if_neg (by rw [List.length_append]; omega)]
        simp only [htake]
        rw [if_neg (by rw [List.length_append]; omega), List.drop_append_of_le_length (by omega),
          List.drop_append_of_le_length (by omega),
          List.take_append_of_le_length (by rw [List.length_drop]; omega)]

theorem ascii_bytesOf {s : JsString} (h : IsAscii s) : ascii (bytesOf s) = s := by
  have hlow : (bytesOf s).map (· &&& 0x7f) = bytesOf s := by
    rw [bytesOf, List.map_map]
    refine List.map_congr_left fun u hu => ?_
    have hall : ∀ n < 128, (UInt8.ofNat n &&& 0x7f) = UInt8.ofNat n := by decide +kernel
    exact hall u.toNat (h u hu)
  rw [ascii, hlow, unitsOf_bytesOf h]

theorem field_takeEid :
    Field (fun e => IsAscii e ∧ e.length < 256 ^ 2) (fun e => beBytes 2 e.length ++ bytesOf e)
      takeEid where
  whole := by
    intro e he rest
    have hlen : (bytesOf e).length = e.length := List.length_map _
    have htake := (field_takeSized 2).whole (hlen.symm ▸ he.2) rest
    rw [hlen] at htake
    rw [takeEid, htake]
    exact congrArg (fun s => some (s, rest)) (ascii_bytesOf he.1)
  longer := by
    intro b e rest h c
    obtain ⟨r, hr, heq⟩ := Option.map_eq_some_iff.mp h
    cases heq
    rw [takeEid, (field_takeSized 2).longer hr c]
    rfl

theorem field_takePayload :
    Field (fun d => d.length < 256 ^ 8) (fun d => beBytes 8 d.length ++ d) takePayload :=
  field_takeSized 8

theorem field_takeBundleId : Field (fun n => n < 256 ^ 8) (beBytes 8) takeBundleId where
  whole := by
    intro n hn rest
    have hlen : (beBytes 8 n).length = 8 := length_beBytes 8 n
    rw [takeBundleId, if_neg (by rw [List.length_append]; omega), List.take_left' hlen,
      List.drop_left' hlen, beNat_beBytes hn]
  longer := by
    intro b n rest h c
    rw [takeBundleId] at h
    split at h
    · cases h
    · rename_i hlen
      cases h
      rw [takeBundleId, if_neg (by rw [List.length_append]; omega),
        List.take_append_of_le_length (by omega), List.drop_append_of_le_length (by omega)]

theorem header_low {t : UInt8} (h : t < 16) : header t &&& 0xf = t := by
  have hall : ∀ n < 16, header (UInt8.ofNat n) &&& 0xf = UInt8.ofNat n := by decide +kernel
  have ht := hall t.toNat (UInt8.lt_iff_toNat_lt.mp h)
  rwa [UInt8.ofNat_toNat] at ht

/-- A packet is read like a field. -/
theorem field_parse : Field Packet.Fits Packet.bytes parse where
  whole := by
    intro p hp rest
    have heid := (field_takeEid.ifNeeded _).whole hp.eid
    have hpayload := (field_takePayload.ifNeeded _).whole hp.payload
    have hid := (field_takeBundleId.ifNeeded _).whole hp.bundleId
    rw [Packet.bytes, List.append_assoc, List.append_assoc, List.append_assoc, List.singleton_append,
      parse]
    simp only [header_low hp.type, heid, hpayload, hid, Option.bind_eq_bind,
      Option.bind_some]
  longer := by
    intro b p rest h c
    cases b with
    | nil => cases h
    | cons head b =>
        obtain ⟨⟨eid, b₁⟩, heid, h⟩ := Option.bind_eq_some_iff.mp h
        obtain ⟨⟨payload, b₂⟩, hpayload, h⟩ := Option.bind_eq_some_iff.mp h
        obtain ⟨⟨bundleId, b₃⟩, hid, h⟩ := Option.bind_eq_some_iff.mp h
        cases h
        have heid' := (field_takeEid.ifNeeded _).longer heid c
        have hpayload' := (field_takePayload.ifNeeded _).longer hpayload c
        have hid' := (field_takeBundleId.ifNeeded _).longer hid c
        rw [List.cons_append, parse]
        simp only [heid', hpayload', hid', Option.bind_eq_bind, Option.bind_some]

/-- **A packet is found whole or waited for.** -/
theorem framed_parse : Framed Packet.Fits Packet.bytes parse := field_parse.framed rfl

/-! ## The loop ends -/

theorem Client.buf_shiftAck (c : Client) : c.shiftAck.buf = c.buf := by
  rcases c with ⟨buf, _ | ⟨r, rest⟩⟩ <;> rfl

theorem Client.buf_shiftConfirm (c : Client) (id : Option Nat) : (c.shiftConfirm id).buf = c.buf := by
  rcases c with ⟨buf, ackQ, _ | ⟨r, rest⟩⟩ <;> rfl

/-- What is done with a packet leaves the buffer alone. -/
theorem Client.buf_dispatch (c : Client) (p : Packet) : (c.dispatch p).buf = c.buf := by
  unfold Client.dispatch
  split_ifs
  · rfl
  · exact c.buf_shiftAck
  · rfl
  · exact c.buf_shiftConfirm _
  all_goals rfl

/-! ## Requests -/

theorem serializeEid_eq (eid : JsString) :
    serializeEid (some eid) =
      if eid.length ≤ 0xffff then .ok (beBytes 2 eid.length ++ bytesOf eid) else .error .rangeError := by
  have hlen : (bytesOf eid).length = eid.length := List.length_map _
  rw [serializeEid]
  simp only [hlen]

/-- **A request is written as its packet**, unless its EID is too long to be written. -/
theorem serialize_eq (type : UInt8) (eid : JsString) (payload : Option Bytes) :
    serialize type (some eid) payload =
      if eid.length ≤ 0xffff then .ok (Packet.bytes ⟨type, some eid, payload, none⟩)
      else .error .rangeError := by
  rw [serialize, serializeEid_eq]
  split
  · simp only [Outcome.ok_bind, Outcome.pure_eq_ok, Packet.bytes, Option.elim_some, Option.elim_none,
      List.append_nil]
  · rfl

end Aap

end DtnCustody
