/-
# DtnCustody.Gateway.AapReplies — one connection of `r2/aap.mjs` with an agent that keeps to the protocol.

The agent answers the requests in the order in which it was sent them, and puts pings and bundles between
its answers as it likes. Its messages carry here the call that they answer, which the wire does not; so
it can be said which promise a reply is for.

A refusal is a `NACK`, and `_dispatch` takes no resolver off a queue for it; nor does `send` take its own
back when the frame could not be written. The resolver stays in front and takes the next reply of its
kind. So every promise is resolved with its own reply exactly when no reply of that kind has come in for
a call behind one that was refused or not written (`replies_iff`). Bundles do not pass through the
queues, and each is emitted and acknowledged once in any case.
-/
import DtnCustody.Base.InOrder
import DtnCustody.Gateway.Aap
import Mathlib.Data.List.Nodup
import Mathlib.Data.List.Pairwise

namespace DtnCustody

open Base Js

namespace Aap

/-! ## The client's calls -/

inductive Kind where
  | register
  | send
  deriving DecidableEq

inductive Request where
  | register (agentId : JsString)
  | send (destEid : JsString) (payload : Bytes)
  deriving DecidableEq

namespace Request

def kind : Request → Kind
  | .register _ => .register
  | .send _ _ => .send

def eid : Request → JsString
  | .register agentId => agentId
  | .send destEid _ => destEid

/-- Whether `serialize` returns for the request. -/
def writable (r : Request) : Bool := decide (r.eid.length ≤ 0xffff)

end Request

/-- A call of `register` or `send`. The calls of a connection are numbered from 0. -/
structure Call where
  id : Nat
  request : Request
  deriving DecidableEq

namespace Call

def kind (c : Call) : Kind := c.request.kind

def writable (c : Call) : Bool := c.request.writable

end Call

namespace Client

def ask (c : Client) (k : Nat) : Request → Client
  | .register agentId => c.register k agentId
  | .send destEid payload => c.send k destEid payload

/-- The resolvers of a kind that wait, and those that were called. -/
def line (c : Client) : Kind → Line Nat (Option Nat)
  | .register => ⟨c.ackQ, c.registered⟩
  | .send => ⟨c.confirmQ, c.confirmed⟩

/-- The promises of a kind that are resolved, each with its value. -/
def resolved (c : Client) (kind : Kind) : List (Nat × Option Nat) := (c.line kind).served

end Client

/-! ## The agent's messages -/

/-- An EID that the format can carry. -/
structure Eid where
  text : JsString
  ascii : IsAscii text
  fits : text.length < 256 ^ 2
  deriving DecidableEq

/-- A bundle for the application; its payload is no longer than a buffer can be. -/
structure Incoming where
  eid : Eid
  payload : Bytes
  fits : payload.length < 2 ^ 53
  deriving DecidableEq

inductive Msg where
  | welcome (eid : Eid)
  | ack (call : Call)
  | nack (call : Call)
  | confirmed (call : Call) (id : UInt64)
  | bundle (b : Incoming)
  | ping
  deriving DecidableEq

namespace Msg

def packet : Msg → Packet
  | .welcome eid => ⟨T.WELCOME, some eid.text, none, none⟩
  | .ack _ => ⟨T.ACK, none, none, none⟩
  | .nack _ => ⟨T.NACK, none, none, none⟩
  | .confirmed _ id => ⟨T.SENDCONFIRM, none, none, some id.toNat⟩
  | .bundle b => ⟨T.RECVBUNDLE, some b.eid.text, some b.payload, none⟩
  | .ping => ⟨T.PING, none, none, none⟩

def bytes (m : Msg) : Bytes := m.packet.bytes

/-- The call that a message answers. -/
def answers : Msg → Option Call
  | .ack call | .nack call | .confirmed call _ => some call
  | _ => none

/-- The acceptance of a request: the promise that it is for, and the value that the promise is to have. -/
def replyOf : Kind → Msg → Option (Nat × Option Nat)
  | .register, .ack call => some (call.id, none)
  | .send, .confirmed call id => some (call.id, some id.toNat)
  | _, _ => none

/-- What the application is to see of a message. -/
def event : Msg → Option Event
  | .welcome eid => some (.welcome (some eid.text))
  | .nack _ => some .nack
  | .bundle b => some (.bundle (some b.eid.text) (some b.payload))
  | _ => none

/-- Bundles and pings are acknowledged. -/
def wantsAck : Msg → Bool
  | .bundle _ | .ping => true
  | _ => false

/-- An `ACK` is for a `register`, a `SENDCONFIRM` for a `send`. -/
def Proper : Msg → Prop
  | .ack call => call.kind = .register
  | .confirmed call _ => call.kind = .send
  | _ => True

end Msg

/-- What the agent sends when it accepts a call, or does not. A bundle is given its id. -/
def Call.answer (c : Call) : Option UInt64 → Msg
  | none => .nack c
  | some id =>
      match c.request with
      | .register _ => .ack c
      | .send _ _ => .confirmed c id

/-- The acceptances of a kind. -/
def replies (kind : Kind) (ms : List Msg) : List (Nat × Option Nat) := ms.filterMap (Msg.replyOf kind)

/-! ## The connection -/

/-- `waiting` are the requests that the agent has still to answer, `sent` all that it has sent, and
`delivered` how many of the bytes of that the client has been handed. -/
structure State where
  client : Client := {}
  calls : List Call := []
  waiting : List Call := []
  sent : List Msg := []
  delivered : Nat := 0

namespace State

/-- The bytes that are on their way to the client. -/
def flight (s : State) : Bytes := (s.sent.flatMap Msg.bytes).drop s.delivered

/-- The messages that the client has been handed all of. -/
def arrived (s : State) : List Msg := Base.arrived Msg.bytes s.sent s.delivered

def call (s : State) (r : Request) : State :=
  let c : Call := ⟨s.calls.length, r⟩
  { s with
    client := s.client.ask c.id r
    calls := s.calls ++ [c]
    waiting := if c.writable then s.waiting ++ [c] else s.waiting }

def send (s : State) (m : Msg) : State := { s with sent := s.sent ++ [m] }

end State

/-- The application calls, also from within a listener; the agent answers the request it has had
longest, or sends something else; a chunk comes in when the loop of the last one has ended; the loop
takes a turn. -/
inductive Step : State → State → Prop
  | call (s : State) (r : Request) : Step s (s.call r)
  | answer (s : State) (c : Call) (rest : List Call) (verdict : Option UInt64) :
      s.waiting = c :: rest → Step s { s.send (c.answer verdict) with waiting := rest }
  | other (s : State) (m : Msg) : m.answers = none → Step s (s.send m)
  | chunk (s : State) (n : Nat) : parse s.client.buf = none → n ≤ s.flight.length →
      Step s { s with client := s.client.data (s.flight.take n), delivered := s.delivered + n }
  | turn (s : State) (c : Client) : s.client.turn = some c → Step s { s with client := c }

/-- The states of a connection. -/
def Reachable (s : State) : Prop := Relation.ReflTransGen Step {} s

/-! ## One packet, one call -/

namespace Client

theorem line_shiftAck (c : Client) (kind : Kind) :
    c.shiftAck.line kind = if kind = .register then (c.line kind).reply none else c.line kind := by
  rcases c with ⟨buf, _ | ⟨r, rest⟩⟩ <;> cases kind <;> rfl

theorem line_shiftConfirm (c : Client) (id : Option Nat) (kind : Kind) :
    (c.shiftConfirm id).line kind =
      if kind = .send then (c.line kind).reply id else c.line kind := by
  rcases c with ⟨buf, ackQ, _ | ⟨r, rest⟩⟩ <;> cases kind <;> rfl

/-- The queue of a kind is touched by the acceptances of that kind, and by nothing else. -/
theorem line_dispatch (c : Client) (m : Msg) (kind : Kind) :
    (c.dispatch m.packet).line kind =
      (m.replyOf kind).elim (c.line kind) fun x => (c.line kind).reply x.2 := by
  cases m with
  | ack call =>
      have hshift := c.line_shiftAck kind
      cases kind <;> exact hshift
  | confirmed call id =>
      have hshift := c.line_shiftConfirm (some id.toNat) kind
      cases kind <;> exact hshift
  | _ => cases kind <;> rfl

theorem emitted_dispatch (c : Client) (m : Msg) :
    (c.dispatch m.packet).emitted = c.emitted ++ m.event.toList := by
  cases m with
  | ack call =>
      rcases c with ⟨buf, _ | ⟨r, rest⟩⟩ <;> exact (List.append_nil _).symm
  | confirmed call id =>
      rcases c with ⟨buf, ackQ, _ | ⟨r, rest⟩⟩ <;> exact (List.append_nil _).symm
  | ping => exact (List.append_nil _).symm
  | _ => rfl

/-- How many acknowledgements a client has written. -/
def acks (c : Client) : Nat := c.written.count ackFrame

theorem acks_write (c : Client) (frame : Bytes) :
    (c.write frame).acks = c.acks + if frame = ackFrame then 1 else 0 := by
  rw [acks, write, List.count_append, List.count_singleton]
  simp only [acks, beq_iff_eq]

theorem acks_dispatch (c : Client) (m : Msg) :
    (c.dispatch m.packet).acks = c.acks + if m.wantsAck then 1 else 0 := by
  cases m with
  | ack call => rcases c with ⟨buf, _ | ⟨r, rest⟩⟩ <;> rfl
  | confirmed call id => rcases c with ⟨buf, ackQ, _ | ⟨r, rest⟩⟩ <;> rfl
  | bundle b => exact c.acks_write ackFrame
  | ping => exact c.acks_write ackFrame
  | _ => rfl

/-! What a call changes. -/

section Request

variable (c : Client) (k : Nat) (frame : Outcome Bytes)

theorem line_request (kind : Kind) : (c.request k frame).line kind = c.line kind := by
  cases frame <;> cases kind <;> rfl

theorem emitted_request : (c.request k frame).emitted = c.emitted := by
  cases frame <;> rfl

theorem buf_request : (c.request k frame).buf = c.buf := by
  cases frame <;> rfl

theorem acks_request (hframe : ∀ bytes, frame = .ok bytes → bytes ≠ ackFrame) :
    (c.request k frame).acks = c.acks := by
  cases frame with
  | error e => rfl
  | ok bytes =>
      show (c.write bytes).acks = _
      rw [acks_write, if_neg (hframe bytes rfl), Nat.add_zero]

end Request

/-- No request looks like an acknowledgement. -/
theorem serialize_ne_ack {type : UInt8} (htype : header type ≠ header T.ACK) {eid : JsString}
    {payload : Option Bytes} {bytes : Bytes} (h : serialize type (some eid) payload = .ok bytes) :
    bytes ≠ ackFrame := by
  rw [serialize_eq] at h
  split at h
  · cases h
    intro heq
    exact htype (List.head_eq_of_cons_eq heq)
  · cases h

theorem line_ask (c : Client) (k : Nat) (r : Request) (kind : Kind) :
    (c.ask k r).line kind = if r.kind = kind then (c.line kind).ask k else c.line kind := by
  cases r <;> cases kind <;> exact line_request _ _ _ _

theorem emitted_ask (c : Client) (k : Nat) (r : Request) : (c.ask k r).emitted = c.emitted := by
  cases r <;> exact emitted_request _ _ _

theorem buf_ask (c : Client) (k : Nat) (r : Request) : (c.ask k r).buf = c.buf := by
  cases r <;> exact buf_request _ _ _

theorem acks_ask (c : Client) (k : Nat) (r : Request) : (c.ask k r).acks = c.acks := by
  cases r with
  | register agentId => exact acks_request _ _ _ fun _ => serialize_ne_ack (by decide)
  | send destEid payload => exact acks_request _ _ _ fun _ => serialize_ne_ack (by decide)

end Client

/-! ## Messages -/

/-- Each message has the fields that its type calls for. -/
theorem Msg.shape (m : Msg) :
    m.packet.type < 16 ∧ m.packet.eid.isSome = NEED_EID.contains m.packet.type ∧
      m.packet.payload.isSome = NEED_PL.contains m.packet.type ∧
      m.packet.bundleId.isSome = NEED_BID.contains m.packet.type := by
  refine ⟨?_, ?_⟩
  · cases m <;> exact of_decide_eq_true rfl
  · cases m <;> exact ⟨rfl, rfl, rfl⟩

theorem Msg.fits (m : Msg) : m.packet.Fits := by
  obtain ⟨htype, heid, hpayload, hid⟩ := m.shape
  refine ⟨htype, ⟨heid, fun e he => ?_⟩, ⟨hpayload, fun d hd => ?_⟩, ⟨hid, fun n hn => ?_⟩⟩
  · cases m with
    | welcome eid =>
        cases he
        exact ⟨eid.ascii, eid.fits⟩
    | bundle b =>
        cases he
        exact ⟨b.eid.ascii, b.eid.fits⟩
    | _ => cases he
  · cases m with
    | bundle b =>
        cases hd
        exact lt_trans b.fits (by decide)
    | _ => cases hd
  · cases m with
    | confirmed call id =>
        cases hn
        exact id.toNat_lt
    | _ => cases hn

theorem bytes_eq (ms : List Msg) :
    ms.flatMap Msg.bytes = (ms.map Msg.packet).flatMap Packet.bytes := by
  rw [List.flatMap_map]
  rfl

/-- **What the parser takes is the agent's next message.** -/
theorem next_message {later : List Msg} {buf flight rest : Bytes} {p : Packet}
    (hstream : buf ++ flight = later.flatMap Msg.bytes) (hread : parse buf = some (p, rest)) :
    ∃ m later', later = m :: later' ∧ p = m.packet ∧ rest ++ flight = later'.flatMap Msg.bytes := by
  rw [bytes_eq] at hstream
  have hfits : ∀ q ∈ later.map Msg.packet, q.Fits := by
    intro q hq
    obtain ⟨m, -, rfl⟩ := List.mem_map.mp hq
    exact m.fits
  obtain ⟨packets, hlater, hrest⟩ := framed_parse.next hfits hstream hread
  obtain ⟨m, later', rfl, rfl, rfl⟩ := List.map_eq_cons_iff.mp hlater
  exact ⟨m, later', rfl, rfl, by rw [hrest, bytes_eq]⟩

/-! ## What holds of every connection -/

/-- The numbers of the calls of a kind. -/
def requests (kind : Kind) (calls : List Call) : List Nat :=
  (calls.filter fun c => c.kind = kind).map Call.id

theorem requests_append (kind : Kind) (calls : List Call) (c : Call) :
    requests kind (calls ++ [c]) =
      if c.kind = kind then requests kind calls ++ [c.id] else requests kind calls := by
  rw [requests, List.filter_append, List.map_append]
  by_cases hkind : c.kind = kind
  · simp [requests, hkind]
  · simp [requests, hkind]

/-- What accepts a call of a kind answers a call of that kind. -/
theorem Msg.answers_of_reply {m : Msg} (hm : m.Proper) {kind : Kind} {x : Nat × Option Nat}
    (h : m.replyOf kind = some x) : ∃ c, m.answers = some c ∧ c.kind = kind ∧ x.1 = c.id := by
  cases m with
  | ack c =>
      cases kind with
      | register =>
          cases h
          exact ⟨c, rfl, hm, rfl⟩
      | send => cases h
  | confirmed c id =>
      cases kind with
      | register => cases h
      | send =>
          cases h
          exact ⟨c, rfl, hm, rfl⟩
  | _ => cases kind <;> cases h

/-- What answers a call refuses it or accepts it. -/
theorem Msg.reply_of_answers {m : Msg} (hm : m.Proper) {c : Call} (h : m.answers = some c) :
    m = .nack c ∨ ∃ v, m.replyOf c.kind = some (c.id, v) := by
  cases m with
  | ack c' =>
      cases h
      exact .inr ⟨none, by rw [show c.kind = _ from hm]; rfl⟩
  | nack c' =>
      cases h
      exact .inl rfl
  | confirmed c' id =>
      cases h
      exact .inr ⟨some id.toNat, by rw [show c.kind = _ from hm]; rfl⟩
  | _ => cases h

theorem replies_answers (kind : Kind) {ms : List Msg} (hms : ∀ m ∈ ms, m.Proper) :
    ((replies kind ms).map Prod.fst).Sublist
      (requests kind (ms.filterMap Msg.answers)) := by
  induction ms with
  | nil => exact .slnil
  | cons m ms ih =>
      have hrest := ih fun m' hm' => hms m' (List.mem_cons_of_mem _ hm')
      cases hreply : m.replyOf kind with
      | some x =>
          obtain ⟨c, hanswers, hkind, hid⟩ := Msg.answers_of_reply (hms m List.mem_cons_self) hreply
          rw [replies, List.filterMap_cons, hreply, List.filterMap_cons, hanswers, requests,
            List.filter_cons, if_pos (decide_eq_true hkind), List.map_cons, List.map_cons, hid]
          exact hrest.cons_cons _
      | none =>
          rw [replies, List.filterMap_cons, hreply, List.filterMap_cons]
          refine hrest.trans ?_
          cases m.answers with
          | none => exact List.Sublist.refl _
          | some c => exact ((List.sublist_cons_self c _).filter _).map _

/-- What holds in every state: the agent's answers are those of the requests that were written, in their
order, and the client has done what the messages that it has read call for. -/
structure Inv (s : State) (read later : List Msg) : Prop where
  sent : s.sent = read ++ later
  stream : s.client.buf ++ s.flight = later.flatMap Msg.bytes
  delivered : s.delivered ≤ (s.sent.flatMap Msg.bytes).length
  numbered : s.calls.map Call.id = List.range s.calls.length
  answered : s.sent.filterMap Msg.answers ++ s.waiting = s.calls.filter Call.writable
  proper : ∀ m ∈ s.sent, m.Proper
  line : ∀ kind, (s.client.line kind).Follows (requests kind s.calls) (replies kind read)
  emitted : s.client.emitted = read.filterMap Msg.event
  acks : s.client.acks = (read.filter Msg.wantsAck).length

namespace Inv

variable {s : State} {read later : List Msg}

theorem start : Inv {} [] [] where
  sent := rfl
  stream := rfl
  delivered := Nat.le_refl 0
  numbered := rfl
  answered := rfl
  proper := by
    intro m hm
    cases hm
  line := by
    intro kind
    cases kind <;> exact Line.Follows.start
  emitted := rfl
  acks := rfl

theorem id_lt (h : Inv s read later) {c : Call} (hc : c ∈ s.calls) : c.id < s.calls.length := by
  have hmem : c.id ∈ s.calls.map Call.id := List.mem_map_of_mem hc
  rwa [h.numbered, List.mem_range] at hmem

theorem sorted (h : Inv s read later) : s.calls.Pairwise fun a b => a.id < b.id := by
  have hids : (s.calls.map Call.id).Pairwise (· < ·) := h.numbered ▸ List.pairwise_lt_range
  exact List.pairwise_map.mp hids

/-- Calls of one number are one call. -/
theorem eq_of_id (h : Inv s read later) {c d : Call} (hc : c ∈ s.calls) (hd : d ∈ s.calls)
    (hid : c.id = d.id) : c = d := by
  have hnodup : (s.calls.map Call.id).Nodup := h.numbered ▸ List.nodup_range
  exact List.inj_on_of_nodup_map hnodup hc hd hid

theorem call (h : Inv s read later) (r : Request) : Inv (s.call r) read later where
  sent := h.sent
  stream := by
    show (s.client.ask _ r).buf ++ _ = _
    rw [Client.buf_ask]
    exact h.stream
  delivered := h.delivered
  numbered := by
    show (s.calls ++ [_]).map Call.id = List.range (s.calls ++ [_]).length
    rw [List.map_append, h.numbered, List.length_append, List.length_singleton, List.range_succ]
    rfl
  answered := by
    let c : Call := ⟨s.calls.length, r⟩
    show _ ++ (if c.writable then s.waiting ++ [c] else s.waiting) = (s.calls ++ [c]).filter Call.writable
    rw [List.filter_append, ← h.answered, List.append_assoc, List.filter_singleton]
    cases c.writable with
    | true => rfl
    | false => exact congrArg (_ ++ ·) (List.append_nil _).symm
  proper := h.proper
  line := by
    intro kind
    have hask : (s.client.ask s.calls.length r).line kind =
        if r.kind = kind then (s.client.line kind).ask s.calls.length else s.client.line kind :=
      s.client.line_ask _ r kind
    have hrequests : requests kind (s.calls ++ [⟨s.calls.length, r⟩]) =
        if r.kind = kind then requests kind s.calls ++ [s.calls.length] else requests kind s.calls :=
      requests_append _ _ _
    show ((s.client.ask _ r).line kind).Follows (requests kind (s.calls ++ [_])) _
    rw [hask, hrequests]
    split
    · refine (h.line kind).ask fun j hj => ?_
      obtain ⟨c, hc, rfl⟩ := List.mem_map.mp hj
      exact h.id_lt (List.mem_filter.mp hc).1
    · exact h.line kind
  emitted := by
    show (s.client.ask _ r).emitted = _
    rw [Client.emitted_ask]
    exact h.emitted
  acks := by
    show (s.client.ask _ r).acks = _
    rw [Client.acks_ask]
    exact h.acks

/-- The agent sends a message. -/
theorem send (h : Inv s read later) {m : Msg} (hm : m.Proper) {waiting : List Call}
    (hwaiting : m.answers.toList ++ waiting = s.waiting) :
    Inv { s.send m with waiting := waiting } read (later ++ [m]) where
  sent := by
    show s.sent ++ [m] = _
    rw [h.sent, List.append_assoc]
  stream := by
    show s.client.buf ++ ((s.sent ++ [m]).flatMap Msg.bytes).drop s.delivered = _
    rw [List.flatMap_append, List.drop_append_of_le_length h.delivered, ← List.append_assoc,
      List.flatMap_append]
    exact congrArg (· ++ _) h.stream
  delivered := by
    show s.delivered ≤ ((s.sent ++ [m]).flatMap Msg.bytes).length
    rw [List.flatMap_append, List.length_append]
    exact Nat.le_add_right_of_le h.delivered
  numbered := h.numbered
  answered := by
    show (s.sent ++ [m]).filterMap Msg.answers ++ waiting = s.calls.filter Call.writable
    rw [← h.answered, ← hwaiting, List.filterMap_append, List.append_assoc]
    cases hanswers : m.answers <;> simp only [List.filterMap_cons, List.filterMap_nil, hanswers] <;> rfl
  proper := by
    intro m' hm'
    rcases List.mem_append.mp hm' with hm' | hm'
    · exact h.proper m' hm'
    · rw [List.mem_singleton] at hm'
      exact hm' ▸ hm
  line := h.line
  emitted := h.emitted
  acks := h.acks

theorem chunk (h : Inv s read later) {n : Nat} (hn : n ≤ s.flight.length) :
    Inv { s with client := s.client.data (s.flight.take n), delivered := s.delivered + n } read
      later where
  sent := h.sent
  stream := by
    show (s.client.buf ++ s.flight.take n) ++ (s.sent.flatMap Msg.bytes).drop (s.delivered + n) = _
    rw [← List.drop_drop, List.append_assoc]
    show s.client.buf ++ (s.flight.take n ++ s.flight.drop n) = _
    rw [List.take_append_drop]
    exact h.stream
  delivered := by
    have hdelivered := h.delivered
    rw [State.flight, List.length_drop] at hn
    show s.delivered + n ≤ (s.sent.flatMap Msg.bytes).length
    omega
  numbered := h.numbered
  answered := h.answered
  proper := h.proper
  line := by
    intro kind
    have hline := h.line kind
    cases kind <;> exact hline
  emitted := h.emitted
  acks := h.acks

/-- The acceptances of a kind come in the order of the requests. -/
theorem replies_sublist (h : Inv s read later) (kind : Kind) {ms : List Msg} (hms : ms <+: s.sent) :
    ((replies kind ms).map Prod.fst).Sublist (requests kind s.calls) := by
  have hanswers : (ms.filterMap Msg.answers).Sublist (s.calls.filter Call.writable) := by
    rw [← h.answered]
    exact (hms.sublist.filterMap _).trans (List.sublist_append_left _ _)
  have hcalls : (ms.filterMap Msg.answers).Sublist s.calls :=
    hanswers.trans List.filter_sublist
  exact (replies_answers kind fun m hm => h.proper m (hms.subset hm)).trans
    ((hcalls.filter _).map _)

/-- The loop takes a turn: the next message is read, and done with. -/
theorem turn (h : Inv s read later) {c : Client} (hturn : s.client.turn = some c) :
    ∃ m later', Inv { s with client := c } (read ++ [m]) later' := by
  obtain ⟨⟨p, rest⟩, hparse, hc⟩ := Option.map_eq_some_iff.mp hturn
  obtain ⟨m, later', rfl, rfl, hrest⟩ := next_message h.stream hparse
  subst hc
  refine ⟨m, later', ?_⟩
  exact
    { sent := by
        rw [List.append_assoc]
        exact h.sent
      stream := by
        show (Client.dispatch _ m.packet).buf ++ _ = _
        rw [Client.buf_dispatch]
        exact hrest
      delivered := h.delivered
      numbered := h.numbered
      answered := h.answered
      proper := h.proper
      line := by
        intro kind
        have hline : ({ s.client with buf := rest } : Client).line kind = s.client.line kind := by
          cases kind <;> rfl
        show ((Client.dispatch _ m.packet).line kind).Follows (requests kind s.calls) _
        rw [Client.line_dispatch, hline, replies, List.filterMap_append]
        cases hreply : m.replyOf kind with
        | none =>
            rw [List.filterMap_cons, hreply, List.filterMap_nil, List.append_nil]
            exact h.line kind
        | some x =>
            rw [List.filterMap_cons, hreply, List.filterMap_nil]
            have hprefix : read ++ [m] <+: s.sent := by
              rw [h.sent]
              exact ⟨later', List.append_assoc _ _ _⟩
            have hsub := h.replies_sublist kind hprefix
            rw [replies, List.filterMap_append, List.filterMap_cons, hreply] at hsub
            exact (h.line kind).reply hsub
      emitted := by
        show (Client.dispatch _ m.packet).emitted = _
        rw [Client.emitted_dispatch, List.filterMap_append, ← h.emitted]
        cases hevent : m.event <;>
          simp only [List.filterMap_cons, List.filterMap_nil, hevent] <;> rfl
      acks := by
        have hacks : ({ s.client with buf := rest } : Client).acks = s.client.acks := rfl
        show (Client.dispatch _ m.packet).acks = _
        rw [Client.acks_dispatch, hacks, h.acks, List.filter_append, List.length_append]
        cases hwants : m.wantsAck <;> simp only [List.filter_cons, List.filter_nil, hwants] <;> rfl }

end Inv

theorem Call.answer_spec (c : Call) (verdict : Option UInt64) :
    (c.answer verdict).Proper ∧ (c.answer verdict).answers = some c := by
  rcases c with ⟨id, agentId | ⟨destEid, payload⟩⟩ <;> cases verdict <;> exact ⟨by constructor, rfl⟩

theorem Reachable.inv {s : State} (h : Reachable s) : ∃ read later, Inv s read later := by
  induction h with
  | refl => exact ⟨[], [], .start⟩
  | tail _ hstep ih =>
      obtain ⟨read, later, hinv⟩ := ih
      cases hstep with
      | call r => exact ⟨read, later, hinv.call r⟩
      | answer c rest verdict hwaiting =>
          obtain ⟨hproper, hanswers⟩ := c.answer_spec verdict
          refine ⟨read, _, hinv.send hproper ?_⟩
          rw [hanswers, hwaiting]
          rfl
      | other m hm =>
          have hproper : m.Proper := by
            cases m <;> first | exact trivial | cases hm
          exact ⟨read, _, hinv.send hproper (by rw [hm]; rfl)⟩
      | chunk n _ hn => exact ⟨read, later, hinv.chunk hn⟩
      | turn c hturn =>
          obtain ⟨m, later', hinv'⟩ := hinv.turn hturn
          exact ⟨read ++ [m], later', hinv'⟩

namespace Inv

variable {s : State} {read later : List Msg}

/-- What the client has read is what has come in, once the loop has ended. -/
theorem arrived_eq (h : Inv s read later) (hrest : parse s.client.buf = none) : s.arrived = read := by
  have hfront : ∀ m ∈ later, ¬ m.bytes <+: s.client.buf := by
    rintro m - ⟨rest, hbuf⟩
    have hwhole := framed_parse.whole m.fits rest
    rw [show m.packet.bytes ++ rest = s.client.buf from hbuf, hrest] at hwhole
    cases hwhole
  have hdelivered : s.delivered = (read.flatMap Msg.bytes).length + s.client.buf.length := by
    have hlen := congrArg List.length h.stream
    have htotal := h.delivered
    rw [h.sent, List.flatMap_append, List.length_append] at htotal
    rw [List.length_append, State.flight, List.length_drop, h.sent, List.flatMap_append,
      List.length_append] at hlen
    omega
  rw [State.arrived, h.sent, hdelivered]
  exact Base.arrived_eq h.stream hfront

theorem answered_writable (h : Inv s read later) {m : Msg} {c : Call} (hm : m ∈ s.sent)
    (hanswers : m.answers = some c) : c ∈ s.calls ∧ c.writable = true := by
  have hmem : c ∈ s.calls.filter Call.writable := by
    rw [← h.answered]
    exact List.mem_append_left _ (List.mem_filterMap.mpr ⟨m, hm, hanswers⟩)
  exact List.mem_filter.mp hmem

/-- The agent answers a call once. -/
theorem answers_once (h : Inv s read later) {m m' : Msg} {c : Call} (hm : m ∈ s.sent)
    (hm' : m' ∈ s.sent) (hc : m.answers = some c) (hc' : m'.answers = some c) : m = m' := by
  have hwritten : (s.sent.filterMap Msg.answers ++ s.waiting).Nodup := by
    rw [h.answered]
    exact (h.sorted.imp fun hlt heq => absurd (heq ▸ hlt) (Nat.lt_irrefl _)).filter _
  have hsent := List.pairwise_filterMap.mp (List.nodup_append.mp hwritten).1
  by_contra hne
  have hsymm : Std.Symm fun a b : Msg =>
      ∀ x, a.answers = some x → ∀ y, b.answers = some y → x ≠ y :=
    ⟨fun a b hab x hx y hy => (hab y hy x hx).symm⟩
  exact hsent.forall hm hm' hne c hc c hc' rfl

end Inv

/-! ## Whose reply is whose -/

/-- The agent refused the call, or `serialize` threw. -/
def State.Refused (s : State) (c : Call) : Prop := c.writable = false ∨ Msg.nack c ∈ s.sent

/-- Every promise is resolved with the acceptance of its own request once that has come in, and with
nothing else; and every message of the agent is handed on once, as it was sent, and every bundle and
every ping acknowledged once. -/
structure Faithful (s : State) : Prop where
  resolved : ∀ kind x, x ∈ s.client.resolved kind ↔ x ∈ replies kind s.arrived
  emitted : s.client.emitted = s.arrived.filterMap Msg.event
  acks : s.client.written.count Client.ackFrame = (s.arrived.filter Msg.wantsAck).length

/-- No acceptance has come in for a call behind a refused one of its kind. -/
def NoneBehindRefused (s : State) : Prop :=
  ∀ c ∈ s.calls, s.Refused c → ∀ x ∈ replies c.kind s.arrived, x.1 < c.id

namespace Inv

variable {s : State} {read later : List Msg}

/-- Behind each acceptance there is the call that it accepts. -/
theorem call_of_reply (h : Inv s read later) {kind : Kind} {x : Nat × Option Nat}
    (hx : x ∈ replies kind read) :
    ∃ m ∈ read, ∃ c ∈ s.calls, m.replyOf kind = some x ∧ m.answers = some c ∧ x.1 = c.id := by
  obtain ⟨m, hm, hreply⟩ := List.mem_filterMap.mp hx
  have hsent : m ∈ s.sent := h.sent ▸ List.mem_append_left _ hm
  obtain ⟨c, hanswers, -, hid⟩ := Msg.answers_of_reply (h.proper m hsent) hreply
  exact ⟨m, hm, c, (h.answered_writable hsent hanswers).1, hreply, hanswers, hid⟩

/-- A call whose acceptance has come in was not refused. -/
theorem not_refused (h : Inv s read later) {c : Call} (hc : c ∈ s.calls)
    (haccepted : c.id ∈ (replies c.kind read).map Prod.fst) : ¬ s.Refused c := by
  obtain ⟨x, hx, hxid⟩ := List.mem_map.mp haccepted
  obtain ⟨m, hm, d, hd, hreply, hanswers, hdid⟩ := h.call_of_reply hx
  obtain rfl : d = c := h.eq_of_id hd hc (hdid.symm.trans hxid)
  have hsent : m ∈ s.sent := h.sent ▸ List.mem_append_left _ hm
  rintro (hwritable | hnack)
  · rw [(h.answered_writable hsent hanswers).2] at hwritable
    cases hwritable
  · have hsame := h.answers_once hsent hnack hanswers rfl
    subst hsame
    cases hkind : d.kind <;> rw [hkind] at hreply <;> cases hreply

/-- A call that was not refused has its acceptance read before that of any later call. -/
theorem accepted_before (h : Inv s read later) {c : Call} (hc : c ∈ s.calls)
    (hrefused : ¬ s.Refused c) {x : Nat × Option Nat} (hx : x ∈ replies c.kind read)
    (hlt : c.id < x.1) : c.id ∈ (replies c.kind read).map Prod.fst := by
  obtain ⟨m, hm, d, hd, -, hanswers, hdid⟩ := h.call_of_reply hx
  have hwritable : c.writable = true := by
    by_contra hw
    exact hrefused (.inl (Bool.not_eq_true _ ▸ hw))
  have hmem : c ∈ s.sent.filterMap Msg.answers ++ s.waiting := by
    rw [h.answered]
    exact List.mem_filter.mpr ⟨hc, hwritable⟩
  have horder : (s.sent.filterMap Msg.answers ++ s.waiting).Pairwise fun a b => a.id < b.id := by
    rw [h.answered]
    exact h.sorted.filter _
  rw [h.sent, List.filterMap_append, List.append_assoc] at hmem horder
  have hd' : d ∈ read.filterMap Msg.answers := List.mem_filterMap.mpr ⟨m, hm, hanswers⟩
  rcases List.mem_append.mp hmem with hread | hlater
  · obtain ⟨m', hm', hanswers'⟩ := List.mem_filterMap.mp hread
    have hsent : m' ∈ s.sent := h.sent ▸ List.mem_append_left _ hm'
    rcases Msg.reply_of_answers (h.proper m' hsent) hanswers' with rfl | ⟨v, hreply⟩
    · exact absurd (.inr hsent) hrefused
    · exact List.mem_map.mpr ⟨_, List.mem_filterMap.mpr ⟨m', hm', hreply⟩, rfl⟩
  · have hafter := (List.pairwise_append.mp horder).2.2 d hd' c hlater
    omega

end Inv

/-! A connection on which two bundles are sent. -/

def sampleFirst : Call := ⟨0, .send (js "dtn://hub/a") [1]⟩

def sampleSecond : Call := ⟨1, .send (js "dtn://hub/b") [2]⟩

/-- The agent has answered both. -/
def sampleAnswered (first second : Option UInt64) : State :=
  let asked := (State.call {} sampleFirst.request).call sampleSecond.request
  let once := { asked.send (sampleFirst.answer first) with waiting := [sampleSecond] }
  { once.send (sampleSecond.answer second) with waiting := [] }

/-- All that is on its way comes in at once. -/
def State.hand (s : State) : State :=
  { s with
    client := s.client.data (s.flight.take s.flight.length)
    delivered := s.delivered + s.flight.length }

/-- The loop takes a turn, if there is a packet for it. -/
def State.tick (s : State) : State := { s with client := s.client.turn.getD s.client }

theorem State.step_tick {s : State} (h : s.client.turn.isSome) : Step s s.tick := by
  refine .turn s _ ?_
  rw [← Option.some_get h, Option.getD_some]

/-- Both answers are read. -/
def sampleRun (first second : Option UInt64) : State := (sampleAnswered first second).hand.tick.tick

theorem sampleRun_reachable {first second : Option UInt64}
    (hfirst : (sampleAnswered first second).hand.client.turn.isSome)
    (hsecond : (sampleAnswered first second).hand.tick.client.turn.isSome) :
    Reachable (sampleRun first second) := by
  have hasked : Reachable ((State.call {} sampleFirst.request).call sampleSecond.request) :=
    .tail (.tail .refl (.call _ _)) (.call _ _)
  have hanswered : Reachable (sampleAnswered first second) :=
    .tail (.tail hasked (.answer _ sampleFirst [sampleSecond] first (by decide +kernel)))
      (.answer _ sampleSecond [] second rfl)
  have hhanded : Reachable (sampleAnswered first second).hand :=
    .tail hanswered (.chunk _ _ rfl (Nat.le_refl _))
  exact .tail (.tail hhanded (State.step_tick hfirst)) (State.step_tick hsecond)

/-- **Replies resolve their own requests exactly when none has come in for a call behind one of its kind
that was refused or not written.** -/
theorem replies_iff {s : State} (h : Reachable s) (hrest : parse s.client.buf = none) :
    Faithful s ↔ NoneBehindRefused s := by
  obtain ⟨read, later, hinv⟩ := h.inv
  have hread : s.arrived = read := hinv.arrived_eq hrest
  have hserved := fun kind => (hinv.line kind).served_iff
  constructor
  · intro hfaithful c hc hrefused x hx
    rw [hread] at hx
    by_contra hge
    -- The acceptance is at this call or behind it; then this call was accepted itself.
    refine hinv.not_refused hc ?_ hrefused
    rcases Nat.eq_or_lt_of_le (Nat.le_of_not_lt hge) with heq | hlt
    · exact List.mem_map.mpr ⟨x, hx, heq.symm⟩
    · refine (hserved c.kind).mp (fun y => ?_) c.id ?_ x hx hlt
      · have hy := hfaithful.resolved c.kind y
        rwa [hread] at hy
      · exact List.mem_map.mpr ⟨c, List.mem_filter.mpr ⟨hc, decide_eq_true rfl⟩, rfl⟩
  · intro hnone
    refine ⟨fun kind => ?_, ?_, ?_⟩
    · rw [hread]
      refine (hserved kind).mpr fun k hk x hx hlt => ?_
      obtain ⟨c, hc, rfl⟩ := List.mem_map.mp hk
      obtain ⟨hcalls, hkind⟩ := List.mem_filter.mp hc
      obtain rfl : c.kind = kind := of_decide_eq_true hkind
      refine hinv.accepted_before hcalls (fun hrefused => ?_) hx hlt
      have hless := hnone c hcalls hrefused x (hread ▸ hx)
      omega
    · rw [hread]
      exact hinv.emitted
    · rw [hread]
      exact hinv.acks

theorem replies_iff_sample :
    Faithful (sampleRun (some 7) none) ↔ NoneBehindRefused (sampleRun (some 7) none) :=
  replies_iff (sampleRun_reachable (by decide +kernel) (by decide +kernel)) (by decide +kernel)

/-- The first bundle was refused, and its promise has the id of the second. -/
theorem replies_shifted :
    Reachable (sampleRun none (some 7)) ∧ parse (sampleRun none (some 7)).client.buf = none ∧
      (sampleRun none (some 7)).client.resolved .send = [(0, some 7)] ∧
      ¬ Faithful (sampleRun none (some 7)) := by
  have hresolved : (sampleRun none (some 7)).client.resolved .send = [(0, some 7)] := by
    decide +kernel
  have hreplies : replies .send (sampleRun none (some 7)).arrived = [(1, some 7)] := by
    decide +kernel
  refine ⟨sampleRun_reachable (by decide +kernel) (by decide +kernel), by decide +kernel, hresolved,
    fun hfaithful => ?_⟩
  have hown := (hfaithful.resolved .send (0, some 7)).mp (hresolved ▸ List.mem_singleton_self _)
  rw [hreplies, List.mem_singleton] at hown
  cases hown

end Aap

end DtnCustody
