/-
# DtnCustody.Gateway.Tcpcl4Link — two TCPCLv4 sessions and the bytes between them.

Two sessions share a connection: what one has written arrives at the other in order, cut in any way.
At each end the program sends bundles, timers fire, and the loop over the buffer takes its turns, in any
order; a run in which every chunk is handled at once is one of these (`onData_run`).

What one side has written and the other not yet read is, at every moment, the rest of the handshake and
then segments, acks and keepalives (`Flow`): the segments are the rest of what was sent, and an ack that
ends a transfer was written by a side that had emitted its bundle.
-/
import DtnCustody.Gateway.Tcpcl4Transfer

namespace DtnCustody

open Base

namespace Tcpcl4

/-! ## The system -/

/-- One end: its session, how much of what the other side wrote has arrived, and the bundles it was
given to send. -/
structure End where
  session : Session
  arrived : Nat := 0
  sent : List Bytes := []

inductive Act where
  /-- The next `n` bytes arrive, or as many as there are. -/
  | arrive (n : Nat)
  /-- The loop over the buffer handles one message. -/
  | turn
  | send (bundle : Bytes)
  /-- The keepalive timer finds this side quiet. -/
  | quiet
  | ackTimeout (transferId : Nat)
  | secure (peerNodeIds : List JsString)

/-- A bundle that is sent: on an established session, within the transfer MRU of the receiver, with a
transfer id left. -/
def End.Sends (e : End) (far : Options) (bundle : Bytes) : Prop :=
  e.session.state = .established ∧ bundle.length ≤ far.transferMru ∧ e.session.nextTransferId < 256 ^ 8

instance (e : End) (far : Options) (bundle : Bytes) : Decidable (e.Sends far bundle) :=
  inferInstanceAs (Decidable (_ ∧ _ ∧ _))

def End.act (e : End) (far : Session) : Act → End
  | .arrive n =>
      let chunk := (far.written.drop e.arrived).take n
      { e with session := e.session.push chunk, arrived := e.arrived + chunk.length }
  | .turn => { e with session := e.session.turn.getD e.session }
  | .send bundle =>
      { e with
        session := e.session.send bundle
        sent := if e.Sends far.opts bundle then e.sent ++ [bundle] else e.sent }
  | .quiet => { e with session := e.session.onQuiet }
  | .ackTimeout transferId => { e with session := e.session.onAckTimeout transferId }
  | .secure peerNodeIds => { e with session := e.session.onSecure peerNodeIds }

structure Link where
  near : End
  far : End

inductive Side where
  | near
  | far

namespace Link

/-- The same connection, seen from the other side. -/
def swap (l : Link) : Link := { near := l.far, far := l.near }

def step (l : Link) : Side × Act → Link
  | (.near, a) => { l with near := l.near.act l.far.session a }
  | (.far, a) => { l with far := l.far.act l.near.session a }

def run (l : Link) (acts : List (Side × Act)) : Link := acts.foldl step l

theorem run_append (l : Link) (acts more : List (Side × Act)) :
    l.run (acts ++ more) = (l.run acts).run more :=
  List.foldl_append

/-- Two sessions that have just been made. -/
def new (x y : Options) : Link :=
  { near := { session := .new x }, far := { session := .new y } }

/-- Both sessions are established. -/
def Established (l : Link) : Prop :=
  l.near.session.state = .established ∧ l.far.session.state = .established

instance (l : Link) : Decidable l.Established := inferInstanceAs (Decidable (_ ∧ _))

end Link

/-! ## The handshake on the wire -/

/-- The SESS_INIT that a session writes, as it is read. -/
def initMessage (o : Options) : Message :=
  .sess_init o.keepalive o.segmentMru o.transferMru (ofUtf8 (toUtf8 o.nodeId))

def contactMessage (o : Options) : Message :=
  .contact VERSION (if o.tlsOpts.isSome then 1 else 0)

theorem toUtf8_ofUtf8_toUtf8 (s : JsString) : toUtf8 (ofUtf8 (toUtf8 s)) = toUtf8 s := by
  have hdecode : utf8Decode (toUtf8 s) = scalars s := utf8Decode_utf8Encode _
  rw [toUtf8, ofUtf8, hdecode, scalars_utf16]
  rfl

theorem bytes_initMessage (o : Options) :
    (initMessage o).bytes = encodeSessInit o.keepalive o.segmentMru o.transferMru o.nodeId := by
  show encodeSessInit _ _ _ (ofUtf8 (toUtf8 o.nodeId)) = _
  rw [encodeSessInit, encodeSessInit, toUtf8_ofUtf8_toUtf8]

theorem bytes_contactMessage (o : Options) :
    (contactMessage o).bytes = encodeContactHeader o.tlsOpts.isSome := rfl

theorem fits_initMessage (o : Options) (maxSegment : Nat) : (initMessage o).Fits maxSegment := by
  refine ⟨o.keepalive_lt, o.segmentMru_lt, o.transferMru_lt, ?_, wellFormed_ofUtf8 _⟩
  rw [toUtf8_ofUtf8_toUtf8]
  exact o.nodeId_lt

/-- The handshake messages that a session has written. -/
def hello (s : Session) : List Message :=
  (if s.opts.active ∨ s.state ≠ .contact then [contactMessage s.opts] else []) ++
    if s.state = .established ∨ s.opts.active ∧ s.state = .init ∧ s.securing = false then
      [initMessage s.opts]
    else []

/-- How many handshake messages of the peer a session has read. -/
def seen : State → Nat
  | .contact => 0
  | .init => 1
  | _ => 2

theorem hello_contact {s : Session} (h : s.state = .contact) :
    hello s = if s.opts.active then [contactMessage s.opts] else [] := by
  simp [hello, h]

theorem hello_init {s : Session} (h : s.state = .init) :
    hello s = contactMessage s.opts ::
      if s.opts.active ∧ s.securing = false then [initMessage s.opts] else [] := by
  simp [hello, h]

theorem hello_established {s : Session} (h : s.state = .established) :
    hello s = [contactMessage s.opts, initMessage s.opts] := by
  simp [hello, h]

/-! ## The invariant -/

/-- What an end knows of itself and of the options of its peer. -/
structure Sound (e : End) (peer : Options) : Prop where
  closed : e.session.closed = false
  state : e.session.state = .contact ∨ e.session.state = .init ∨ e.session.state = .established
  limit : e.session.parser.maxSegment = e.session.opts.segmentMru
  header : e.session.parser.headerDone = true ↔ e.session.state ≠ .contact
  not_securing : e.session.state = .contact → e.session.securing = false
  securing : e.session.opts.active = true → e.session.securing = true → e.session.state = .init
  mrus : e.session.state = .established → ∃ p, e.session.peer = some p ∧
    p.segmentMru = peer.segmentMru ∧ p.transferMru = peer.transferMru
  timer : e.session.kaTimer = true → e.session.state = .established
  fresh : e.session.state ≠ .established → e.sent = [] ∧ e.session.nextTransferId = 0
  count : e.sent.length = min e.session.nextTransferId (256 ^ 8)
  sizes : ∀ b ∈ e.sent, b.length ≤ peer.transferMru
  pending : ∀ id total, e.session.pending.get? id = some total → id < 256 ^ 8 →
    ∃ b, e.sent[id]? = some b ∧ b.length = total

/-- The transfer has been emitted by the receiver and acknowledged with its END and full length. -/
def Acknowledged (x y : End) (id : Nat) : Prop :=
  ∃ bundle flags, x.sent[id]? = some bundle ∧ hasBit flags SEG.END = true ∧
    .write (encodeAck flags id bundle.length) ∈ y.session.log ∧ id < y.session.bundles.length

/-- A message that an established session writes, from `x` to `y`. -/
def Carried (x y : End) : Message → Prop
  | .segment flags id data => (Message.segment flags id data).Fits y.session.opts.segmentMru
  | .ack flags id acked =>
      id < 256 ^ 8 ∧ acked < 256 ^ 8 ∧
        (hasBit flags SEG.END = true → ∃ bundle, y.sent[id]? = some bundle ∧ bundle.length = acked ∧
          .write (encodeAck flags id acked) ∈ x.session.log ∧ id < x.session.bundles.length)
  | .keepalive => True
  | _ => False

/-- What `x` has written and `y` has not read: the rest of the handshake, then `body`. -/
structure Flow (x y : End) (body : List Message) : Prop where
  arrived : y.arrived ≤ x.session.written.length
  stream : y.session.parser.buf ++ x.session.written.drop y.arrived =
    ((hello x.session).drop (seen y.session.state) ++ body).flatMap Message.bytes
  seen_le : seen y.session.state ≤ (hello x.session).length
  body_nil : x.session.state ≠ .established → body = []
  carried : ∀ m ∈ body, Carried x y m
  receiving : Receiving y.session.opts.segmentMru x.sent y.session (body.filter Message.isSegment)
  resolved : ∀ id, .resolve id ∈ x.session.log → Acknowledged x y id

/-- A connection whose two sessions are both open. -/
structure Good (x y : Options) (l : Link) : Prop where
  near : l.near.session.opts = x
  far : l.far.session.opts = y
  sound_near : Sound l.near y
  sound_far : Sound l.far x
  out : ∃ body, Flow l.near l.far body
  back : ∃ body, Flow l.far l.near body

theorem Good.swap {x y : Options} {l : Link} (h : Good x y l) : Good y x l.swap where
  near := h.far
  far := h.near
  sound_near := h.sound_far
  sound_far := h.sound_near
  out := h.back
  back := h.out

/-! ## The two roles -/

theorem sent_kept {xs ys : List Bytes} (h : xs <+: ys) {i : Nat} {b : Bytes} (hb : xs[i]? = some b) :
    ys[i]? = some b := by
  obtain ⟨more, rfl⟩ := h
  rw [List.getElem?_append_left (List.getElem?_eq_some_iff.mp hb).1, hb]

theorem Acknowledged.mono {x x' y y' : End} {id : Nat} (h : Acknowledged x y id)
    (hsent : x.sent <+: x'.sent)
    (hlog : ∀ o ∈ y.session.log, o ∈ y'.session.log)
    (hbundles : y.session.bundles.length ≤ y'.session.bundles.length) : Acknowledged x' y' id := by
  obtain ⟨bundle, flags, hbundle, hend, hack, hid⟩ := h
  exact ⟨bundle, flags, sent_kept hsent hbundle, hend, hlog _ hack, by omega⟩

theorem Carried.mono {x x' y y' : End} {m : Message} (h : Carried x y m)
    (hopts : y'.session.opts = y.session.opts)
    (hsent : y.sent <+: y'.sent)
    (hlog : ∀ o ∈ x.session.log, o ∈ x'.session.log)
    (hbundles : x.session.bundles.length ≤ x'.session.bundles.length) : Carried x' y' m := by
  cases m with
  | segment flags id data =>
      show (Message.segment flags id data).Fits _
      rw [hopts]
      exact h
  | ack flags id acked =>
      refine ⟨h.1, h.2.1, fun hend => ?_⟩
      obtain ⟨bundle, hbundle, hlen, hack, hid⟩ := h.2.2 hend
      exact ⟨bundle, sent_kept hsent hbundle, hlen, hlog _ hack, by omega⟩
  | keepalive => trivial
  | _ => exact h.elim

theorem Carried.fits {x y : End} {m : Message} (h : Carried x y m) :
    m.Fits y.session.opts.segmentMru := by
  cases m with
  | segment flags id data => exact h
  | ack flags id acked => exact ⟨h.1, h.2.1⟩
  | keepalive => trivial
  | _ => exact h.elim

section Roles

variable {x x' y y' : End} {body : List Message}

/-- **The sender writes more**: messages of the handshake or, once it is established, of the body. -/
theorem Flow.write (h : Flow x y body) (greeting more : List Message) {outs : List Output}
    (hhello : hello x'.session = hello x.session ++ greeting) (hbody : greeting ≠ [] → body = [])
    (hlog : x'.session.log = x.session.log ++ outs)
    (hwritten : outs.flatMap Output.written = (greeting ++ more).flatMap Message.bytes)
    (hnil : x'.session.state ≠ .established → body ++ more = [])
    (hcarried : ∀ m ∈ more, Carried x' y m)
    (hreceiving : Receiving y.session.opts.segmentMru x'.sent y.session
      ((body ++ more).filter Message.isSegment))
    (hsent : x.sent <+: x'.sent) (hresolved : ∀ id, .resolve id ∈ outs → Acknowledged x' y id) :
    Flow x' y (body ++ more) where
  arrived := by
    have := h.arrived
    rw [Session.written_of_log hlog, List.length_append]
    omega
  stream := by
    have hbytes : body ++ (greeting ++ more) = greeting ++ (body ++ more) := by
      by_cases hgreeting : greeting = []
      · rw [hgreeting, List.nil_append, List.nil_append]
      · rw [hbody hgreeting, List.nil_append, List.nil_append]
    rw [Session.written_of_log hlog, hwritten, List.drop_append_of_le_length h.arrived,
      ← List.append_assoc, h.stream, hhello,
      List.drop_append_of_le_length h.seen_le, ← List.flatMap_append, List.append_assoc, hbytes,
      List.append_assoc]
  seen_le := by
    have := h.seen_le
    rw [hhello, List.length_append]
    omega
  body_nil := hnil
  carried := by
    intro m hm
    rcases List.mem_append.mp hm with hm | hm
    · exact Carried.mono (h.carried m hm) rfl (List.prefix_refl _)
        (Session.mem_of_log hlog) (Session.bundles_le_of_log hlog)
    · exact hcarried m hm
  receiving := hreceiving
  resolved := by
    intro id hid
    rw [hlog, List.mem_append] at hid
    rcases hid with hid | hid
    · exact (h.resolved id hid).mono hsent (fun _ ho => ho) le_rfl
    · exact hresolved id hid

/-- **The receiver goes on**: bytes arrive, messages are read, or neither. -/
theorem Flow.read (h : Flow x y body) {later : List Message}
    (hopts : y'.session.opts = y.session.opts) (harrived : y'.arrived ≤ x.session.written.length)
    (hstream : y'.session.parser.buf ++ x.session.written.drop y'.arrived =
      ((hello x.session).drop (seen y'.session.state) ++ later).flatMap Message.bytes)
    (hseen : seen y'.session.state ≤ (hello x.session).length)
    (hlater : ∀ m ∈ later, m ∈ body)
    (hsent : y.sent <+: y'.sent) {outs : List Output}
    (hlog : y'.session.log = y.session.log ++ outs)
    (hreceiving : Receiving y.session.opts.segmentMru x.sent y'.session
      (later.filter Message.isSegment)) :
    Flow x y' later where
  arrived := harrived
  stream := hstream
  seen_le := hseen
  body_nil := fun hne => List.eq_nil_iff_forall_not_mem.mpr fun m hm => by
    have hmem := hlater m hm
    rw [h.body_nil hne] at hmem
    cases hmem
  carried := fun m hm =>
    Carried.mono (h.carried m (hlater m hm)) hopts hsent (fun _ ho => ho) le_rfl
  receiving := by
    rw [hopts]
    exact hreceiving
  resolved := fun id hid =>
    (h.resolved id hid).mono (List.prefix_refl _) (Session.mem_of_log hlog) (Session.bundles_le_of_log hlog)

/-- The receiver does something that has nothing to do with this direction. -/
theorem Flow.aside (h : Flow x y body) (hopts : y'.session.opts = y.session.opts)
    (harrived : y'.arrived = y.arrived) (hparser : y'.session.parser = y.session.parser)
    (hstate : y'.session.state = y.session.state)
    (hsent : y.sent <+: y'.sent) {outs : List Output}
    (hlog : y'.session.log = y.session.log ++ outs)
    (hemitted : outs.filterMap Output.emitted = []) (hrx : y'.session.rx = y.session.rx)
    (hrxBytes : y'.session.rxBytes = y.session.rxBytes) : Flow x y' body :=
  h.read hopts (harrived ▸ h.arrived) (by rw [hparser, harrived, hstate]; exact h.stream)
    (hstate ▸ h.seen_le) (fun _ hm => hm) hsent hlog
    (h.receiving.congr (by rw [Session.bundles_of_log hlog, hemitted, List.append_nil]) hrx hrxBytes)

end Roles

end Tcpcl4

end DtnCustody
