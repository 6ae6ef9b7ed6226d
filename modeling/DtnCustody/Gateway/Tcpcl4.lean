/-
# DtnCustody.Gateway.Tcpcl4 — `gateway/tcpcl4.mjs`: one TCPCLv4 session.

A session is the state that the callbacks of one connection share, with the record of everything they
did: bytes handed to the socket, events emitted, promises settled. A callback is a function on that
state. Timers and TLS are events: a session can be told that a timer has fired, or that the TLS
handshake is over and which names the peer's certificate carries.

Numbers are exact. A Buffer has fewer than 2^53 bytes, so the rounding of `Number(...)` on larger
values changes no comparison with a length and no cut.

The loop over a chunk consumes the buffer, so it comes to its end (`settled_onData`).
-/
import DtnCustody.Base.Framing
import DtnCustody.Base.JsMap
import DtnCustody.Base.Text

namespace DtnCustody

open Base

namespace Tcpcl4

/-! ## Encoders -/

/-- `"dtn!"`. -/
def MAGIC : Bytes := [0x64, 0x74, 0x6e, 0x21]

def VERSION : UInt8 := 4

namespace MSG

def XFER_SEGMENT : UInt8 := 1
def XFER_ACK : UInt8 := 2
def XFER_REFUSE : UInt8 := 3
def KEEPALIVE : UInt8 := 4
def SESS_TERM : UInt8 := 5
def MSG_REJECT : UInt8 := 6
def SESS_INIT : UInt8 := 7

end MSG

namespace SEG

def END : UInt8 := 0x01
def START : UInt8 := 0x02

end SEG

def CAN_TLS : UInt8 := 0x01

namespace TERM

def UNKNOWN : UInt8 := 0
def IDLE_TIMEOUT : UInt8 := 1
def VERSION_MISMATCH : UInt8 := 2
def CONTACT_FAILURE : UInt8 := 4
def RESOURCE_EXHAUSTION : UInt8 := 5

end TERM

def REJECT_TYPE_UNKNOWN : UInt8 := 1
def REJECT_UNEXPECTED : UInt8 := 3
def REPLY : UInt8 := 0x01

/-- `flags & mask`, as a condition. -/
def hasBit (flags mask : UInt8) : Bool := flags &&& mask != 0

def u64 (n : Nat) : Bytes := beBytes 8 n

def encodeContactHeader (canTls : Bool) : Bytes := MAGIC ++ [VERSION, if canTls then 1 else 0]

def encodeSessInit (keepalive segmentMru transferMru : Nat) (nodeId : JsString) : Bytes :=
  let id := toUtf8 nodeId
  [MSG.SESS_INIT] ++ beBytes 2 keepalive ++ u64 segmentMru ++ u64 transferMru ++
    beBytes 2 id.length ++ id ++ List.replicate 4 0

def encodeSegment (flags : UInt8) (transferId : Nat) (data : Bytes) : Bytes :=
  [MSG.XFER_SEGMENT, flags] ++ u64 transferId ++
    (if hasBit flags SEG.START then List.replicate 4 0 else []) ++ u64 data.length ++ data

def encodeAck (flags : UInt8) (transferId acked : Nat) : Bytes :=
  [MSG.XFER_ACK, flags] ++ u64 transferId ++ u64 acked

def encodeTerm (flags reason : UInt8) : Bytes := [MSG.SESS_TERM, flags, reason]

/-! ## The parser -/

/-- What `parse` returns. -/
inductive Message where
  | bad_magic
  | contact (version flags : UInt8)
  | sess_init (keepalive segmentMru transferMru : Nat) (nodeId : JsString)
  | segment (flags : UInt8) (transferId : Nat) (data : Bytes)
  | ack (flags : UInt8) (transferId acked : Nat)
  | refuse (reason : UInt8) (transferId : Nat)
  | keepalive
  | sess_term (flags reason : UInt8)
  | reject (reason header : UInt8)
  | too_big (what : String) (len : Nat)
  | unknown (type : UInt8)
  deriving DecidableEq, Repr

/-- `subarray(off, off + n)`. -/
def slice (b : Bytes) (off n : Nat) : Bytes := (b.drop off).take n

/-- `readUInt16BE`, `readUInt32BE` and `readBigUInt64BE`, for `width` 2, 4 and 8. -/
def readBE (b : Bytes) (off width : Nat) : Nat := beNat (slice b off width)

/-- The contact header. -/
def parseHeader (b : Bytes) : Option (Message × Bytes) :=
  if b.length < 6 then none
  else if slice b 0 4 ≠ MAGIC then some (.bad_magic, b.drop 6)
  else some (.contact (b.getD 4 0) (b.getD 5 0), b.drop 6)

/-- `case MSG.SESS_INIT` of `parse`. -/
def parseSessInit (b : Bytes) : Option (Message × Bytes) :=
  if b.length < 21 then none
  else
    let idLen := readBE b 19 2
    if b.length < 21 + idLen + 4 then none
    else
      let extLen := readBE b (21 + idLen) 4
      let total := 21 + idLen + 4 + extLen
      if b.length < total then none
      else some (.sess_init (readBE b 1 2) (readBE b 3 8) (readBE b 11 8) (ofUtf8 (slice b 21 idLen)),
        b.drop total)

/-- Where a segment has its data length; `none` when the length of its extensions is not there yet. -/
def segmentOffset (b : Bytes) : Option Nat :=
  if hasBit (b.getD 1 0) SEG.START then
    if b.length < 14 then none else some (14 + readBE b 10 4)
  else some 10

/-- `case MSG.XFER_SEGMENT` of `parse`. A segment above the limit stays in the buffer. -/
def parseSegment (maxSegment : Nat) (b : Bytes) : Option (Message × Bytes) :=
  if b.length < 10 then none
  else match segmentOffset b with
    | none => none
    | some off =>
        if b.length < off + 8 then none
        else
          let len := readBE b off 8
          if len > maxSegment then some (.too_big "segment" len, b)
          else if b.length < off + 8 + len then none
          else some (.segment (b.getD 1 0) (readBE b 2 8) (slice b (off + 8) len),
            b.drop (off + 8 + len))

/-- What follows the contact header. -/
def parseMessage (maxSegment : Nat) (b : Bytes) : Option (Message × Bytes) :=
  match b with
  | [] => none
  | type :: rest =>
      if type = MSG.SESS_INIT then parseSessInit b
      else if type = MSG.XFER_SEGMENT then parseSegment maxSegment b
      else if type = MSG.XFER_ACK then
        if b.length < 18 then none
        else some (.ack (b.getD 1 0) (readBE b 2 8) (readBE b 10 8), b.drop 18)
      else if type = MSG.XFER_REFUSE then
        if b.length < 10 then none
        else some (.refuse (b.getD 1 0) (readBE b 2 8), b.drop 10)
      else if type = MSG.KEEPALIVE then some (.keepalive, rest)
      else if type = MSG.SESS_TERM then
        if b.length < 3 then none else some (.sess_term (b.getD 1 0) (b.getD 2 0), b.drop 3)
      else if type = MSG.MSG_REJECT then
        if b.length < 3 then none else some (.reject (b.getD 1 0) (b.getD 2 0), b.drop 3)
      else some (.unknown type, rest)

/-- The parser: `maxTransfer` is stored beside `maxSegment` and never read. -/
structure Parser where
  buf : Bytes := []
  headerDone : Bool := false
  maxSegment : Nat

def Parser.push (p : Parser) (chunk : Bytes) : Parser := { p with buf := p.buf ++ chunk }

def Parser.parse (p : Parser) : Option (Message × Parser) :=
  if p.headerDone then (parseMessage p.maxSegment p.buf).map fun r => (r.1, { p with buf := r.2 })
  else (parseHeader p.buf).map fun r => (r.1, { p with buf := r.2, headerDone := true })

/-! ## The session -/

/-- What a session is made with. The bounds are those within which `encodeSessInit` can write its
fields; outside them it throws, and no session comes about. -/
structure Options where
  active : Bool
  nodeId : JsString
  keepalive : Nat := 15
  segmentMru : Nat := 200000
  transferMru : Nat := 16 * 1024 * 1024
  /-- `tlsOpts`, with a key and a certificate: whether it asks for `verifyNodeId`. -/
  tlsOpts : Option Bool := none
  requireTls : Bool := false
  allowedPeers : Option (List JsString) := none
  keepalive_lt : keepalive < 256 ^ 2
  segmentMru_lt : segmentMru < 256 ^ 8
  transferMru_lt : transferMru < 256 ^ 8
  nodeId_lt : (toUtf8 nodeId).length < 256 ^ 2

theorem default_keepalive_lt : 15 < 256 ^ 2 := by decide

theorem sampleNodeId_lt : (toUtf8 (js "ipn:1.0")).length < 256 ^ 2 := by decide +kernel

inductive State where
  | contact
  | init
  | established
  | ending
  | closed
  deriving DecidableEq, Repr

/-- The peer, as its SESS_INIT describes it. -/
structure Peer where
  nodeId : JsString
  segmentMru : Nat
  transferMru : Nat
  keepalive : Nat
  tls : Bool
  deriving DecidableEq, Repr

/-- What a session does to the world. -/
inductive Output where
  /-- `socket.write`. -/
  | write (bytes : Bytes)
  /-- `_ready(this)`, and with it the promise of `connect` or the callback of `listen`. -/
  | ready
  /-- `_fail`. -/
  | fail (error : JsString)
  /-- `emit("established")`. -/
  | established
  /-- `emit("bundle")`. -/
  | bundle (data : Bytes)
  /-- `emit("term")`. -/
  | term (reason : UInt8)
  /-- `emit("close")`. -/
  | close (error : Option JsString)
  /-- `socket.end()`. -/
  | ended
  /-- `socket.destroy()`. -/
  | destroyed
  /-- The promise of a transfer. -/
  | resolve (transferId : Nat)
  | rejected (transferId : Nat) (error : JsString)
  /-- `send` that starts no transfer. -/
  | refused (error : JsString)
  deriving DecidableEq, Repr

def Output.written : Output → Bytes
  | .write bytes => bytes
  | _ => []

def Output.emitted : Output → Option Bytes
  | .bundle data => some data
  | _ => none

structure Session where
  opts : Options
  parser : Parser
  state : State := .contact
  peer : Option Peer := none
  secure : Bool := false
  /-- Between `_startTls` and the event that ends the TLS handshake. -/
  securing : Bool := false
  /-- What `_peerNodeIds` reads from the peer's certificate. -/
  peerNodeIds : List JsString := []
  kaTimer : Bool := false
  nextTransferId : Nat := 0
  /-- `transferId -> total`, for the transfers whose promise is open. -/
  pending : JsMap Nat Nat := .empty
  rx : JsMap Nat (List Bytes) := .empty
  rxBytes : JsMap Nat Nat := .empty
  closed : Bool := false
  /-- Everything done so far. -/
  log : List Output := []

namespace Session

def out (s : Session) (o : Output) : Session := { s with log := s.log ++ [o] }

/-- `_write`. -/
def write (s : Session) (bytes : Bytes) : Session := if s.closed then s else s.out (.write bytes)

/-- `_sendInit`. -/
def sendInit (s : Session) : Session :=
  s.write (encodeSessInit s.opts.keepalive s.opts.segmentMru s.opts.transferMru s.opts.nodeId)

/-- `_reject`. -/
def reject (s : Session) (type : UInt8) (reason : UInt8 := REJECT_UNEXPECTED) : Session :=
  s.write [MSG.MSG_REJECT, reason, type]

/-- `_teardown`. -/
def teardown (s : Session) (err : Option JsString) : Session :=
  if s.closed then s
  else
    let reason := err.getD (js "session closed")
    { s with
      closed := true
      state := .closed
      kaTimer := false
      pending := .empty
      log := s.log ++ s.pending.keys.map (fun id => .rejected id reason) ++
        [.fail reason, .destroyed, .close err] }

/-- `_startTls`: what is in the buffer goes back to the socket, as a part of the TLS handshake. -/
def startTls (s : Session) : Session :=
  { s with parser := { s.parser with buf := [] }, securing := true }

/-- `_startKeepalive`. -/
def startKeepalive (s : Session) (seconds : Nat) : Session :=
  if seconds = 0 then s else { s with kaTimer := true }

/-- The constructor. -/
def new (opts : Options) : Session :=
  let s : Session := { opts := opts, parser := { maxSegment := opts.segmentMru } }
  if opts.active then s.out (.write (encodeContactHeader opts.tlsOpts.isSome)) else s

/-! ## `_onMessage` -/

/-- Both sides offer TLS. -/
def both (s : Session) (flags : UInt8) : Bool := s.opts.tlsOpts.isSome && hasBit flags CAN_TLS

/-- The passive side answers a contact header with its own. -/
def answer (s : Session) : Session :=
  if s.opts.active then s else s.write (encodeContactHeader s.opts.tlsOpts.isSome)

def onContact (s : Session) (version flags : UInt8) : Session :=
  if version ≠ VERSION then
    (s.write (encodeTerm 0 TERM.VERSION_MISMATCH)).teardown
      (some (js s!"peer TCPCL version {version}, need 4"))
  else if !s.both flags && s.opts.requireTls then
    (s.answer.write (encodeTerm 0 TERM.CONTACT_FAILURE)).teardown
      (some (js "TLS is required and the peer did not offer it"))
  else
    let t := { s.answer with state := .init }
    if s.both flags then t.startTls
    else if s.opts.active then t.sendInit
    else t

/-- Why a SESS_INIT is turned down: the certificate, or the allowed list. -/
def unwelcome (s : Session) (nodeId : JsString) : Option JsString :=
  if s.opts.tlsOpts = some true && (!s.secure || !s.peerNodeIds.contains nodeId) then
    some (js "peer claims " ++ nodeId ++ js " but its certificate does not name it")
  else if s.opts.allowedPeers.any fun allowed => !allowed.contains nodeId then
    some (js "peer " ++ nodeId ++ js " is not on the allowed list")
  else none

def onSessInit (s : Session) (keepalive segmentMru transferMru : Nat) (nodeId : JsString) : Session :=
  if s.state ≠ .init then s.reject MSG.SESS_INIT
  else match s.unwelcome nodeId with
    | some err => (s.write (encodeTerm 0 TERM.CONTACT_FAILURE)).teardown (some err)
    | none =>
        let t := if s.opts.active then s else s.sendInit
        let keepalive := min s.opts.keepalive keepalive
        let t := { t with
          peer := some { nodeId, segmentMru, transferMru, keepalive, tls := s.secure }
          state := .established }
        ((t.startKeepalive keepalive).out .ready).out .established

/-- The entries of a transfer in `rx` and `rxBytes`. -/
def hold (s : Session) (key : Nat) (parts : List Bytes) (got : Nat) : Session :=
  { s with rx := s.rx.set key parts, rxBytes := s.rxBytes.set key got }

def forget (s : Session) (key : Nat) : Session :=
  { s with rx := s.rx.delete key, rxBytes := s.rxBytes.delete key }

/-- The segment of a transfer that has been started, `parts` of which are there. -/
def onPart (s : Session) (flags : UInt8) (key : Nat) (data : Bytes) (parts : List Bytes) : Session :=
  let parts := parts ++ [data]
  let got := (s.rxBytes.get? key).getD 0 + data.length
  if got > s.opts.transferMru then (s.write ([MSG.XFER_REFUSE, 0x02] ++ u64 key)).forget key
  else
    let t := (s.hold key parts got).write (encodeAck flags key got)
    if hasBit flags SEG.END then (t.forget key).out (.bundle parts.flatten) else t

def onSegment (s : Session) (flags : UInt8) (key : Nat) (data : Bytes) : Session :=
  if s.state ≠ .established then s.reject MSG.XFER_SEGMENT
  else
    let s := if hasBit flags SEG.START then s.hold key [] 0 else s
    match s.rx.get? key with
    | none => s.reject MSG.XFER_SEGMENT
    | some parts => s.onPart flags key data parts

def onAck (s : Session) (flags : UInt8) (transferId acked : Nat) : Session :=
  if (s.pending.get? transferId = some acked) && hasBit flags SEG.END then
    { s with pending := s.pending.delete transferId }.out (.resolve transferId)
  else s

def onRefuse (s : Session) (reason : UInt8) (transferId : Nat) : Session :=
  if s.pending.has transferId then
    { s with pending := s.pending.delete transferId }.out
      (.rejected transferId (js s!"peer refused transfer (reason {reason})"))
  else s

def onTerm (s : Session) (flags reason : UInt8) : Session :=
  let s := if hasBit flags REPLY then s else s.write (encodeTerm REPLY reason)
  ({ s with state := .ending }.out (.term reason)).out .ended

/-- `_onMessage`. -/
def onMessage (s : Session) : Message → Session
  | .bad_magic => s.teardown (some (js "peer is not speaking TCPCL (bad magic)"))
  | .contact version flags => s.onContact version flags
  | .sess_init keepalive segmentMru transferMru nodeId =>
      s.onSessInit keepalive segmentMru transferMru nodeId
  | .segment flags transferId data => s.onSegment flags transferId data
  | .ack flags transferId acked => s.onAck flags transferId acked
  | .refuse reason transferId => s.onRefuse reason transferId
  | .keepalive => s
  | .sess_term flags reason => s.onTerm flags reason
  | .too_big what len =>
      (s.write (encodeTerm 0 TERM.RESOURCE_EXHAUSTION)).teardown
        (some (js s!"peer sent a {what} of {len} bytes, above our MRU"))
  | .unknown type => s.reject type REJECT_TYPE_UNKNOWN
  | .reject _ _ => s

/-! ## Callbacks and calls -/

/-- One turn of the loop in `_onData`. -/
def turn (s : Session) : Option Session :=
  if s.closed then none
  else s.parser.parse.map fun r => { s with parser := r.2 }.onMessage r.1

def push (s : Session) (d : Bytes) : Session := { s with parser := s.parser.push d }

/-- `_onData`. -/
def onData (s : Session) (d : Bytes) : Session :=
  drain turn (s.parser.buf.length + d.length + 2) (s.push d)

/-- The TLS handshake is over: `secureConnect`, or `secure`. -/
def onSecure (s : Session) (peerNodeIds : List JsString) : Session :=
  if s.securing then
    let s := { s with secure := true, securing := false, peerNodeIds := peerNodeIds }
    if s.opts.active then s.sendInit else s
  else s

/-- The keepalive timer, when this side has been quiet for the interval. -/
def onQuiet (s : Session) : Session := if s.kaTimer then s.write [MSG.KEEPALIVE] else s

/-- The keepalive timer, when the peer has been silent for twice the interval. -/
def onSilence (s : Session) : Session :=
  if s.kaTimer then
    (s.write (encodeTerm 0 TERM.IDLE_TIMEOUT)).teardown
      (some (js "peer silent for twice the keepalive interval"))
  else s

/-- The timer of a transfer. -/
def onAckTimeout (s : Session) (id : Nat) : Session :=
  if s.pending.has id then
    { s with pending := s.pending.delete id }.out
      (.rejected id (js "timed out waiting for the final XFER_ACK"))
  else s

/-- The segments of a bundle from `off` on, with their flags. Each pass moves `off` by at least one,
so the length of the bundle bounds their number. -/
def cutFrom (seg : Nat) (bundle : Bytes) : Nat → Nat → List (UInt8 × Bytes)
  | 0, _ => []
  | fuel + 1, off =>
      let stop := min (off + seg) bundle.length
      let flags := (if off = 0 then SEG.START else 0) ||| (if stop = bundle.length then SEG.END else 0)
      (flags, slice bundle off (stop - off)) ::
        (if stop = bundle.length then [] else cutFrom seg bundle fuel (off + seg))

def cut (seg : Nat) (bundle : Bytes) : List (UInt8 × Bytes) := cutFrom seg bundle (bundle.length + 1) 0

/-- The next transfer, with its promise. -/
def begin (s : Session) (total : Nat) : Session :=
  { s with nextTransferId := s.nextTransferId + 1, pending := s.pending.set s.nextTransferId total }

/-- `send`. A transfer id that does not fit into 64 bits makes the first write throw, after the
transfer has been recorded. -/
def send (s : Session) (bundle : Bytes) : Session :=
  match s.state, s.peer with
  | .established, some peer =>
      if bundle.length > peer.transferMru then
        s.out (.refused (js s!"bundle of {bundle.length} bytes exceeds the peer's transfer MRU"))
      else
        let id := s.nextTransferId
        if 256 ^ 8 ≤ id then (s.begin bundle.length).out (.rejected id (js "ERR_OUT_OF_RANGE"))
        else (cut (max 1 peer.segmentMru) bundle).foldl
          (fun t c => t.write (encodeSegment c.1 id c.2)) (s.begin bundle.length)
  | _, _ => s.out (.refused (js "session not established"))

/-- `close`, up to the wait for the reply. -/
def close (s : Session) (reason : UInt8 := TERM.UNKNOWN) : Session := s.write (encodeTerm 0 reason)

/-- The bytes handed to the socket. -/
def written (s : Session) : Bytes := s.log.flatMap Output.written

/-- The bundles that have been emitted. -/
def bundles (s : Session) : List Bytes := s.log.filterMap Output.emitted

end Session

end Tcpcl4

end DtnCustody
