/-
# DtnCustody.Gateway.Tcpcl3 — `gateway/tcpcl3.mjs`: one TCPCLv3 session.

Version 3 has one exchange, the contact headers, and no transfer ids: bundles go out one at a time, and
an acknowledgement is matched to the bundle that is waiting for one by its length alone (`onAck`).

The promises of `send` are numbered in the order of the calls. `queue` is the chain of promises: a bundle
is written when the promise before its own is settled, which is an event of its own here (`runNext`), as
it happens in a later turn of the event loop.
-/
import DtnCustody.Base.Framing
import DtnCustody.Base.Text

namespace DtnCustody

open Base

namespace Tcpcl3

/-- `"dtn!"`. -/
def MAGIC : Bytes := [0x64, 0x74, 0x6e, 0x21]

def VERSION : UInt8 := 3

namespace T

def DATA_SEGMENT : UInt8 := 0x1
def ACK_SEGMENT : UInt8 := 0x2
def REFUSE_BUNDLE : UInt8 := 0x3
def KEEPALIVE : UInt8 := 0x4
def SHUTDOWN : UInt8 := 0x5
def LENGTH : UInt8 := 0x6

end T

namespace SEG

def END : UInt8 := 0x01
def START : UInt8 := 0x02

end SEG

namespace FLAG

def REQUEST_ACK : UInt8 := 0x01

end FLAG

def hasBit (flags mask : UInt8) : Bool := flags &&& mask != 0

/-! ## Self-delimiting numeric values -/

/-- The bytes before the last, most significant first. -/
def sdnvFront : Nat → Nat → Bytes
  | 0, _ => []
  | fuel + 1, v => if v = 0 then [] else sdnvFront fuel (v / 128) ++ [UInt8.ofNat (v % 128 + 128)]

def sdnv (n : Nat) : Bytes := sdnvFront n (n / 128) ++ [UInt8.ofNat (n % 128)]

/-- The loop of `readSdnv`: the value, and where it ends. -/
def sdnvLoop : Bytes → Nat → Nat → Option (Nat × Nat)
  | [], _, _ => none
  | c :: cs, v, i =>
      let v := v * 128 + (c &&& 0x7f).toNat
      if hasBit c 0x80 then sdnvLoop cs v (i + 1) else some (v, i + 1)

def readSdnv (b : Bytes) (off : Nat) : Except JsString (Option (Nat × Nat)) :=
  match sdnvLoop ((b.drop off).take 10) 0 off with
  | some r => .ok (some r)
  | none => if off + 10 ≤ b.length then .error (js "SDNV longer than 64 bits") else .ok none

def encodeContactHeader (flags : UInt8) (keepalive : Nat) (eid : JsString) : Bytes :=
  let id := toUtf8 eid
  MAGIC ++ [VERSION, flags] ++ beBytes 2 keepalive ++ sdnv id.length ++ id

/-- `Buffer.from([(type << 4) | flags])`. -/
def typeByte (type flags : UInt8) : UInt8 := type <<< 4 ||| flags

def encodeSegment (flags : UInt8) (data : Bytes) : Bytes :=
  [typeByte T.DATA_SEGMENT flags] ++ sdnv data.length ++ data

def encodeAck (acked : Nat) : Bytes := [typeByte T.ACK_SEGMENT 0] ++ sdnv acked

/-! ## The parser -/

inductive Message where
  | bad_magic
  | bad_header
  | contact (version flags : UInt8) (interval : Nat) (eid : JsString)
  | segment (flags : UInt8) (data : Bytes)
  | too_big (len : Nat)
  | ack (value : Nat)
  | length (value : Nat)
  | refuse (reason : UInt8)
  | keepalive
  | shutdown
  | unknown (type : UInt8)
  deriving DecidableEq, Repr

/-- `subarray(off, off + n)`. -/
def slice (b : Bytes) (off n : Nat) : Bytes := (b.drop off).take n

structure Parser where
  buf : Bytes := []
  headerDone : Bool := false
  maxSegment : Nat

def Parser.push (p : Parser) (c : Bytes) : Parser := { p with buf := p.buf ++ c }

/-- The contact header. A header that is wrong stays in the buffer. -/
def parseHeader (b : Bytes) : Except JsString (Option (Message × Bytes)) :=
  if b.length < 8 then .ok none
  else if slice b 0 4 ≠ MAGIC then .ok (some (.bad_magic, b))
  else do
    match ← readSdnv b 8 with
    | none => return none
    | some (n, stop) =>
        if n > 1024 then return some (.bad_header, b)
        else if b.length < stop + n then return none
        else return some (.contact (b.getD 4 0) (b.getD 5 0) (beNat (slice b 6 2))
          (ofUtf8 (slice b stop n)), b.drop (stop + n))

/-- Where a SHUTDOWN ends; `none` when it is not there yet. -/
def shutdownEnd (flags : UInt8) (b : Bytes) : Except JsString (Option Nat) :=
  let off := if hasBit flags 0x02 then 2 else 1
  if hasBit flags 0x01 then
    if b.length < off + 1 then .ok none
    else do return (← readSdnv b off).map Prod.snd
  else .ok (some off)

/-- What follows the contact header. A segment above the limit stays in the buffer. -/
def parseMessage (maxSegment : Nat) (b : Bytes) : Except JsString (Option (Message × Bytes)) :=
  match b with
  | [] => .ok none
  | head :: rest =>
      let type := head >>> 4
      let flags := head &&& 0x0f
      if type = T.DATA_SEGMENT then do
        match ← readSdnv b 1 with
        | none => return none
        | some (n, stop) =>
            if n > maxSegment then return some (.too_big n, b)
            else if b.length < stop + n then return none
            else return some (.segment flags (slice b stop n), b.drop (stop + n))
      else if type = T.ACK_SEGMENT ∨ type = T.LENGTH then do
        match ← readSdnv b 1 with
        | none => return none
        | some (value, stop) =>
            return some (if type = T.ACK_SEGMENT then .ack value else .length value, b.drop stop)
      else if type = T.REFUSE_BUNDLE then .ok (some (.refuse flags, rest))
      else if type = T.KEEPALIVE then .ok (some (.keepalive, rest))
      else if type = T.SHUTDOWN then do
        match ← shutdownEnd flags b with
        | none => return none
        | some off => if b.length < off then return none else return some (.shutdown, b.drop off)
      else .ok (some (.unknown type, rest))

def Parser.parse (p : Parser) : Except JsString (Option (Message × Parser)) :=
  if p.headerDone then
    (parseMessage p.maxSegment p.buf).map (Option.map fun r => (r.1, { p with buf := r.2 }))
  else
    (parseHeader p.buf).map (Option.map fun r => (r.1, { p with buf := r.2, headerDone := true }))

/-! ## The session -/

/-- What a session is made with, within the bounds that `encodeContactHeader` can write. -/
structure Options where
  active : Bool
  nodeId : JsString
  keepalive : Nat := 15
  segmentMru : Nat := 200000
  transferMru : Nat := 16 * 1024 * 1024
  requestAck : Bool := true
  allowedPeers : Option (List JsString) := none
  keepalive_lt : keepalive < 256 ^ 2

theorem default_keepalive_lt : 15 < 256 ^ 2 := by decide

inductive State where
  | contact
  | established
  | closed
  deriving DecidableEq, Repr

structure Peer where
  nodeId : JsString
  keepalive : Nat
  acks : Bool
  segmentMru : Nat
  transferMru : Nat
  deriving DecidableEq, Repr

/-- What a session does to the world. -/
inductive Output where
  /-- `socket.write`. -/
  | write (bytes : Bytes)
  /-- `_ready(this)`, and with it the promise of `connect` or the callback of `listen`. -/
  | ready
  /-- `_fail`. -/
  | fail (error : JsString)
  /-- `emit("established")`. -/
  | established
  /-- `emit("bundle")`. -/
  | bundle (data : Bytes)
  /-- `emit("term")`. -/
  | term
  /-- `emit("close")`. -/
  | close (error : Option JsString)
  /-- `socket.end()`. -/
  | ended
  /-- `socket.destroy()`. -/
  | destroyed
  /-- The promise of a `send`. -/
  | resolve (send : Nat)
  | rejected (send : Nat) (error : JsString)
  /-- `send` on a session that is not established. -/
  | refused (error : JsString)
  deriving DecidableEq, Repr

/-- `cur`: the bundle that waits for acknowledgements. -/
structure Transfer where
  send : Nat
  total : Nat
  deriving DecidableEq, Repr

structure Session where
  opts : Options
  parser : Parser
  state : State := .contact
  peer : Option Peer := none
  acks : Bool := false
  peerAcks : Bool := false
  kaTimer : Bool := false
  /-- The sends whose turn has not come. -/
  queue : List (Nat × Bytes) := []
  /-- The send whose turn it is, until its promise is settled. -/
  running : Option Nat := none
  /-- Its last segment was written with a callback. -/
  writing : Bool := false
  cur : Option Transfer := none
  sends : Nat := 0
  rx : Option (List Bytes) := none
  rxBytes : Nat := 0
  closed : Bool := false
  /-- Everything done so far. -/
  log : List Output := []

namespace Session

def out (s : Session) (o : Output) : Session := { s with log := s.log ++ [o] }

/-- `_write`. -/
def write (s : Session) (bytes : Bytes) : Session := if s.closed then s else s.out (.write bytes)

/-- `_sendHeader`. -/
def sendHeader (s : Session) : Session :=
  s.write (encodeContactHeader (if s.opts.requestAck then FLAG.REQUEST_ACK else 0) s.opts.keepalive
    s.opts.nodeId)

/-- `cur = null`, with its promise settled. -/
def settle (s : Session) (o : Output) : Session := { s with cur := none, running := none }.out o

/-- `_teardown`. -/
def teardown (s : Session) (err : Option JsString) : Session :=
  if s.closed then s
  else
    let reason := err.getD (js "session closed")
    let t := { s with closed := true, state := .closed, kaTimer := false }
    let t := match t.cur with
      | some c => t.settle (.rejected c.send reason)
      | none => t
    { t with log := t.log ++ [.fail reason, .destroyed, .close err] }

/-- `_startKeepalive`. -/
def startKeepalive (s : Session) (seconds : Nat) : Session :=
  if seconds = 0 then s else { s with kaTimer := true }

/-- The constructor. -/
def new (opts : Options) : Session :=
  let s : Session := { opts := opts, parser := { maxSegment := opts.transferMru } }
  if opts.active then s.sendHeader else s

/-! ## `_onMessage` -/

def onContact (s : Session) (version flags : UInt8) (interval : Nat) (eid : JsString) : Session :=
  if version ≠ VERSION then s.teardown (some (js s!"peer TCPCL version {version}, need 3"))
  else if s.opts.allowedPeers.any fun allowed => !allowed.contains eid then
    s.teardown (some (js "peer " ++ eid ++ js " is not on the allowed list"))
  else
    let t := if s.opts.active then s else s.sendHeader
    let keepalive := min s.opts.keepalive interval
    let peerAcks := hasBit flags FLAG.REQUEST_ACK
    let acks := s.opts.requestAck && peerAcks
    let t := { t with
      acks := acks
      peerAcks := peerAcks
      peer := some { nodeId := eid, keepalive, acks, segmentMru := s.opts.segmentMru,
                     transferMru := s.opts.transferMru }
      state := .established }
    ((t.startKeepalive keepalive).out .ready).out .established

/-- The segment of a transfer that has been started, `parts` of which are there. -/
def onPart (s : Session) (flags : UInt8) (data : Bytes) (parts : List Bytes) : Session :=
  let parts := parts ++ [data]
  let got := s.rxBytes + data.length
  let t := { s with rx := some parts, rxBytes := got }
  if got > s.opts.transferMru then { t.write [typeByte T.REFUSE_BUNDLE 0x2] with rx := none }
  else
    let t := if s.peerAcks then t.write (encodeAck got) else t
    if hasBit flags SEG.END then { t with rx := none }.out (.bundle parts.flatten) else t

def onSegment (s : Session) (flags : UInt8) (data : Bytes) : Session :=
  if s.state ≠ .established then s
  else
    let t := if hasBit flags SEG.START then { s with rx := some [], rxBytes := 0 } else s
    match t.rx with
    | none => t
    | some parts => t.onPart flags data parts

/-- An acknowledgement is for the bundle that waits if it names its length. -/
def onAck (s : Session) (value : Nat) : Session :=
  match s.cur with
  | some c => if value = c.total then s.settle (.resolve c.send) else s
  | none => s

def onRefuse (s : Session) (reason : UInt8) : Session :=
  match s.cur with
  | some c => s.settle (.rejected c.send (js s!"peer refused the bundle (reason {reason})"))
  | none => s

/-- `_onMessage`. -/
def onMessage (s : Session) : Message → Session
  | .bad_magic => s.teardown (some (js "peer is not speaking TCPCL"))
  | .bad_header => s.teardown (some (js "peer is not speaking TCPCL"))
  | .contact version flags interval eid => s.onContact version flags interval eid
  | .segment flags data => s.onSegment flags data
  | .ack value => s.onAck value
  | .refuse reason => s.onRefuse reason
  | .shutdown => (s.out .term).out .ended
  | .too_big len => s.teardown (some (js s!"peer sent a segment of {len} bytes, above our limit"))
  | .length _ => s
  | .keepalive => s
  | .unknown _ => s

/-! ## Callbacks and calls -/

/-- One turn of the loop in `_onData`; what the parser throws ends the session. -/
def turn (s : Session) : Option Session :=
  if s.closed then none
  else match s.parser.parse with
    | .error e => some (s.teardown (some e))
    | .ok none => none
    | .ok (some (m, p)) => some ({ s with parser := p }.onMessage m)

def push (s : Session) (d : Bytes) : Session := { s with parser := s.parser.push d }

/-- `_onData`. -/
def onData (s : Session) (d : Bytes) : Session :=
  drain turn (s.parser.buf.length + d.length + 2) (s.push d)

/-- The keepalive timer, when this side has been quiet for the interval. -/
def onQuiet (s : Session) : Session :=
  if s.kaTimer then s.write [typeByte T.KEEPALIVE 0] else s

/-- The keepalive timer, when the peer has been silent for twice the interval. -/
def onSilence (s : Session) : Session :=
  if s.kaTimer then s.teardown (some (js "peer silent for twice the keepalive interval")) else s

/-- The timer of the bundle that waits for acknowledgements. -/
def onAckTimeout (s : Session) : Session :=
  match s.cur with
  | some c => s.settle (.rejected c.send (js "timed out waiting for the final ACK_SEGMENT"))
  | none => s

/-- The segments of a bundle from `off` on, with their flags; an empty bundle has none. Each pass moves
`off` by at least one, so the length of the bundle bounds their number. -/
def cutFrom (seg : Nat) (bundle : Bytes) : Nat → Nat → List (UInt8 × Bytes)
  | 0, _ => []
  | fuel + 1, off =>
      if off < bundle.length then
        let stop := min (off + seg) bundle.length
        let flags := (if off = 0 then SEG.START else 0) |||
          (if stop = bundle.length then SEG.END else 0)
        (flags, slice bundle off (stop - off)) :: cutFrom seg bundle fuel (off + seg)
      else []

def cut (seg : Nat) (bundle : Bytes) : List (UInt8 × Bytes) := cutFrom seg bundle bundle.length 0

/-- `send`: the bundle is put at the end of the queue. -/
def send (s : Session) (bundle : Bytes) : Session :=
  if s.state ≠ .established then s.out (.refused (js "session not established"))
  else { s with queue := s.queue ++ [(s.sends, bundle)], sends := s.sends + 1 }

/-- The turn of the next send, once the promise before it is settled. -/
def runNext (s : Session) : Session :=
  match s.running, s.queue with
  | none, (n, bundle) :: later =>
      let t := { s with queue := later }
      if s.closed then t.out (.rejected n (js "session closed"))
      else
        let t := { t with running := some n, writing := !s.acks && bundle ≠ [] }
        let t := if s.acks then { t with cur := some { send := n, total := bundle.length } } else t
        (cut (max 1 s.opts.segmentMru) bundle).foldl (fun t c => t.write (encodeSegment c.1 c.2)) t
  | _, _ => s

/-- The write callback of the last segment, when no acknowledgements are used. -/
def onWritten (s : Session) (err : Option JsString) : Session :=
  match s.running, s.writing with
  | some n, true =>
      { s with running := none, writing := false }.out
        (match err with
         | none => .resolve n
         | some e => .rejected n e)
  | _, _ => s

/-- `close`, up to the wait. -/
def close (s : Session) : Session := s.write [typeByte T.SHUTDOWN 0]

/-! ## What is written -/

theorem write_open {s : Session} (h : s.closed = false) (bytes : Bytes) :
    s.write bytes = { s with log := s.log ++ [.write bytes] } := by
  unfold write
  rw [if_neg (by simp [h])]
  rfl

/-- Writes one after another. -/
theorem foldl_write {α : Type} (f : α → Bytes) (xs : List α) {s : Session} (h : s.closed = false) :
    xs.foldl (fun s x => s.write (f x)) s = { s with log := s.log ++ xs.map fun x => .write (f x) } := by
  induction xs generalizing s with
  | nil => simp
  | cons x xs ih =>
      rw [List.foldl_cons, write_open h, ih (s := { s with log := s.log ++ [.write (f x)] }) h]
      simp [List.append_assoc]

end Session

/-- What happens to a session: bytes from the peer, calls, timers, the loss of the connection. -/
inductive Event where
  | data (d : Bytes)
  | send (bundle : Bytes)
  /-- The promise before the next send is settled. -/
  | runNext
  | written (err : Option JsString)
  | quiet
  | silence
  | ackTimeout
  | close
  | lost (err : Option JsString)

namespace Session

/-- A destroyed socket hands over nothing. -/
def handle (s : Session) : Event → Session
  | .data d => if s.closed then s else s.onData d
  | .send bundle => s.send bundle
  | .runNext => s.runNext
  | .written err => s.onWritten err
  | .quiet => s.onQuiet
  | .silence => s.onSilence
  | .ackTimeout => s.onAckTimeout
  | .close => s.close
  | .lost err => s.teardown err

def run (s : Session) (es : List Event) : Session := es.foldl handle s

/-- The points of the loop over a chunk. -/
def within (s : Session) : Event → List Session
  | .data d =>
      if s.closed then []
      else (List.range (s.parser.buf.length + d.length + 3)).map fun n => drain turn n (s.push d)
  | _ => []

end Session

end Tcpcl3

end DtnCustody
