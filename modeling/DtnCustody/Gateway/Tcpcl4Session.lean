/-
# DtnCustody.Gateway.Tcpcl4Session — what each callback of a TCPCLv4 session does.

One lemma a function: from an open session, the fields that change and what is added to the record.
Everything that is proved of sessions later is proved from these.
-/
import DtnCustody.Gateway.Tcpcl4Frames

namespace DtnCustody

open Base

namespace Tcpcl4

namespace Session

/-! ## The record -/

section Record

variable {s s' : Session} {outs : List Output}

theorem written_of_log (h : s'.log = s.log ++ outs) :
    s'.written = s.written ++ outs.flatMap Output.written := by
  rw [Session.written, h, List.flatMap_append]
  rfl

theorem bundles_of_log (h : s'.log = s.log ++ outs) :
    s'.bundles = s.bundles ++ outs.filterMap Output.emitted := by
  rw [Session.bundles, h, List.filterMap_append]
  rfl

theorem bundles_le_of_log (h : s'.log = s.log ++ outs) : s.bundles.length ≤ s'.bundles.length := by
  rw [bundles_of_log h, List.length_append]
  omega

theorem mem_of_log (h : s'.log = s.log ++ outs) : ∀ o ∈ s.log, o ∈ s'.log := by
  intro o ho
  rw [h]
  exact List.mem_append_left outs ho

end Record

theorem write_open {s : Session} (h : s.closed = false) (bytes : Bytes) :
    s.write bytes = { s with log := s.log ++ [.write bytes] } := by
  unfold write
  rw [if_neg (by simp [h])]
  rfl

theorem write_closed {s : Session} (h : s.closed = true) (bytes : Bytes) : s.write bytes = s := by
  unfold write
  rw [if_pos h]

@[simp] theorem closed_write (s : Session) (bytes : Bytes) : (s.write bytes).closed = s.closed := by
  unfold write
  split <;> rfl

/-- A session that has been torn down. -/
def Dead (s : Session) : Prop := s.closed = true ∧ s.state = .closed

theorem dead_teardown {s : Session} (h : s.closed = false) (err : Option JsString) :
    (s.teardown err).Dead := by
  unfold teardown
  rw [if_neg (by simp [h])]
  exact ⟨rfl, rfl⟩

theorem dead_too_big {s : Session} (h : s.closed = false) (what : String) (len : Nat) :
    (s.onMessage (.too_big what len)).Dead :=
  dead_teardown (by rw [closed_write]; exact h) _

/-! ## The parser in place -/

@[simp] theorem parser_write (s : Session) (bytes : Bytes) : (s.write bytes).parser = s.parser := by
  unfold write
  split <;> rfl

@[simp] theorem parser_teardown (s : Session) (err : Option JsString) :
    (s.teardown err).parser = s.parser := by
  unfold teardown
  split <;> rfl

/-- A message leaves the buffer as it is, or hands it over to TLS. -/
theorem parser_onMessage (s : Session) (m : Message) :
    (s.onMessage m).parser = s.parser ∨ (s.onMessage m).parser = { s.parser with buf := [] } := by
  cases m with
  | contact version flags =>
      have hanswer : s.answer.parser = s.parser := by
        unfold answer
        split <;> simp
      show (s.onContact version flags).parser = _ ∨ (s.onContact version flags).parser = _
      unfold onContact startTls sendInit
      split
      · simp
      · split
        · simp [hanswer]
        · dsimp only
          split
          · simp [hanswer]
          · split <;> simp [hanswer]
  | sess_init interval segmentMru transferMru nodeId =>
      left
      show (s.onSessInit interval segmentMru transferMru nodeId).parser = _
      unfold onSessInit reject startKeepalive sendInit
      split
      · simp
      · split
        · simp
        · dsimp only
          split <;> split <;> simp [out]
  | segment flags transferId data =>
      left
      have hpart : ∀ (s : Session) parts, (s.onPart flags transferId data parts).parser = s.parser := by
        intro s parts
        unfold onPart hold forget
        dsimp only
        split
        · simp
        · split <;> simp [out]
      show (s.onSegment flags transferId data).parser = _
      unfold onSegment reject
      split
      · simp
      · dsimp only
        split
        · split <;> simp [hold]
        · rw [hpart]
          split <;> rfl
  | ack flags transferId acked =>
      left
      show (s.onAck flags transferId acked).parser = _
      unfold onAck
      split <;> rfl
  | refuse reason transferId =>
      left
      show (s.onRefuse reason transferId).parser = _
      unfold onRefuse
      split <;> rfl
  | sess_term flags reason =>
      left
      show (s.onTerm flags reason).parser = _
      unfold onTerm
      dsimp only
      split <;> simp [out]
  | _ => simp [onMessage, reject]

/-- What a turn uses up. -/
def room (s : Session) : Nat := if s.closed then 0 else s.parser.buf.length + 1

theorem turn_room {s s' : Session} (h : s.turn = some s') : s'.room < s.room := by
  unfold turn at h
  split at h
  · cases h
  rename_i hopen
  obtain ⟨⟨m, p⟩, hparse, rfl⟩ := Option.map_eq_some_iff.mp h
  rw [room.eq_def s, if_neg hopen]
  show ({ s with parser := p }.onMessage m).room < _
  rcases parse_shorter hparse with hless | ⟨-, len, rfl⟩
  · have hbuf : ({ s with parser := p }.onMessage m).parser.buf.length ≤ p.buf.length := by
      rcases parser_onMessage { s with parser := p } m with hsame | hempty
      · rw [hsame]
      · rw [hempty]
        exact Nat.zero_le _
    unfold room
    split <;> omega
  · -- A segment above the limit ends the session.
    have hdead := dead_too_big (s := { s with parser := p }) (by simpa using hopen) "segment" len
    rw [room, if_pos hdead.1]
    omega

/-- **The loop over a chunk comes to its end.** -/
theorem settled_onData (s : Session) (d : Bytes) : (s.onData d).turn = none := by
  refine drain_settles turn (fun _ _ => turn_room) ?_
  unfold room
  split
  · omega
  · show (s.parser.buf ++ d).length + 1 < _
    rw [List.length_append]
    omega

/-! ## The handshake -/

/-- What a session writes when the contact header of the peer is there. -/
def contactAnswer (s : Session) (both : Bool) : List Output :=
  (if s.opts.active then [] else [.write (encodeContactHeader s.opts.tlsOpts.isSome)]) ++
    if s.opts.active && !both then
      [.write (encodeSessInit s.opts.keepalive s.opts.segmentMru s.opts.transferMru s.opts.nodeId)]
    else []

/-- A contact header of this version opens the exchange of SESS_INITs, or ends the session. -/
theorem onContact_cases {s : Session} (h : s.closed = false) (flags : UInt8) :
    (s.onContact VERSION flags).Dead ∨
      s.onContact VERSION flags = { s with
        state := .init
        securing := s.securing || s.both flags
        parser := if s.both flags then { s.parser with buf := [] } else s.parser
        log := s.log ++ s.contactAnswer (s.both flags) } := by
  unfold onContact
  rw [if_neg (by simp)]
  by_cases hrequire : (!s.both flags && s.opts.requireTls) = true
  · left
    rw [if_pos hrequire]
    refine dead_teardown ?_ _
    rw [closed_write, answer]
    split
    · exact h
    · rw [closed_write]
      exact h
  · right
    rw [if_neg hrequire]
    cases hactive : s.opts.active <;> cases hboth : s.both flags <;>
      simp [answer, hactive, h, write, sendInit, startTls, out, contactAnswer]

/-- What a session writes when the SESS_INIT of the peer is there. -/
def initAnswer (s : Session) : List Output :=
  if s.opts.active then []
  else [.write (encodeSessInit s.opts.keepalive s.opts.segmentMru s.opts.transferMru s.opts.nodeId)]

/-- A SESS_INIT in its place establishes the session, or ends it. -/
theorem onSessInit_cases {s : Session} (h : s.closed = false) (hinit : s.state = .init)
    (keepalive segmentMru transferMru : Nat) (nodeId : JsString) :
    (s.onSessInit keepalive segmentMru transferMru nodeId).Dead ∨
      ∃ timer, s.onSessInit keepalive segmentMru transferMru nodeId = { s with
        peer := some { nodeId, segmentMru, transferMru,
                       keepalive := min s.opts.keepalive keepalive, tls := s.secure }
        state := .established
        kaTimer := timer
        log := s.log ++ (s.initAnswer ++ [.ready, .established]) } := by
  unfold onSessInit
  rw [if_neg (by simp [hinit])]
  cases hwelcome : s.unwelcome nodeId with
  | some err => exact .inl (dead_teardown (by rw [closed_write]; exact h) _)
  | none =>
      right
      cases hactive : s.opts.active <;>
        by_cases hkeep : min s.opts.keepalive keepalive = 0 <;>
        simp [startKeepalive, hkeep, hactive, h, write, sendInit, out, initAnswer]

/-! ## Transfers -/

/-- What a segment adds to the record. -/
def segmentAnswer (flags : UInt8) (key got : Nat) (parts : List Bytes) : List Output :=
  .write (encodeAck flags key got) :: if hasBit flags SEG.END then [.bundle parts.flatten] else []

/-- A segment with what has come before it within the limit: acknowledged, and the last one emitted. -/
theorem onPart_within {s : Session} (h : s.closed = false) (flags : UInt8) (key : Nat) (data : Bytes)
    (parts : List Bytes) (hfits : (s.rxBytes.get? key).getD 0 + data.length ≤ s.opts.transferMru) :
    ∃ rx rxBytes, s.onPart flags key data parts = { s with
        rx := rx
        rxBytes := rxBytes
        log := s.log ++ segmentAnswer flags key ((s.rxBytes.get? key).getD 0 + data.length)
          (parts ++ [data]) } ∧
      (hasBit flags SEG.END = false →
        rx.get? key = some (parts ++ [data]) ∧
          rxBytes.get? key = some ((s.rxBytes.get? key).getD 0 + data.length)) := by
  have hnot : ¬ (s.rxBytes.get? key).getD 0 + data.length > s.opts.transferMru := by omega
  have hack := write_open (s := s.hold key (parts ++ [data]) ((s.rxBytes.get? key).getD 0 + data.length))
    h (encodeAck flags key ((s.rxBytes.get? key).getD 0 + data.length))
  cases hend : hasBit flags SEG.END with
  | true =>
      refine ⟨(s.rx.set key (parts ++ [data])).delete key,
        (s.rxBytes.set key ((s.rxBytes.get? key).getD 0 + data.length)).delete key, ?_, by simp⟩
      simp only [onPart, hnot, if_false, hend, if_true, segmentAnswer]
      rw [hack]
      simp [out, forget, hold]
  | false =>
      refine ⟨s.rx.set key (parts ++ [data]),
        s.rxBytes.set key ((s.rxBytes.get? key).getD 0 + data.length), ?_,
        fun _ => ⟨JsMap.get?_set_self .., JsMap.get?_set_self ..⟩⟩
      simp only [onPart, hnot, if_false, hend, segmentAnswer]
      exact hack

/-- The next segment of a transfer: the first one, or one that goes on with what is held. -/
theorem onSegment_next {s : Session} (h : s.closed = false) (hstate : s.state = .established)
    {flags : UInt8} {key got : Nat} {data : Bytes} {parts : List Bytes}
    (hheld : hasBit flags SEG.START = true ∧ parts = [] ∧ got = 0 ∨
      hasBit flags SEG.START = false ∧ s.rx.get? key = some parts ∧ s.rxBytes.get? key = some got)
    (hfits : got + data.length ≤ s.opts.transferMru) :
    ∃ rx rxBytes, s.onSegment flags key data = { s with
        rx := rx
        rxBytes := rxBytes
        log := s.log ++ segmentAnswer flags key (got + data.length) (parts ++ [data]) } ∧
      (hasBit flags SEG.END = false →
        rx.get? key = some (parts ++ [data]) ∧ rxBytes.get? key = some (got + data.length)) := by
  unfold onSegment
  rw [if_neg (by simp [hstate])]
  rcases hheld with ⟨hstart, rfl, rfl⟩ | ⟨hstart, hrx, hbytes⟩
  · have hpart := onPart_within (s := s.hold key [] 0) h flags key data []
    simp only [hold, JsMap.get?_set_self, Option.getD_some] at hpart
    simp only [hstart, if_true, hold, JsMap.get?_set_self]
    exact hpart hfits
  · simp only [hstart, Bool.false_eq_true, if_false, hrx]
    have hpart := onPart_within h flags key data parts
    simp only [hbytes, Option.getD_some] at hpart
    exact hpart hfits

/-- An ack either says nothing about an open promise or resolves the one it completes. -/
theorem onAck_cases (s : Session) (flags : UInt8) (transferId acked : Nat) :
    s.onAck flags transferId acked = s ∨
      s.pending.get? transferId = some acked ∧ hasBit flags SEG.END = true ∧
        s.onAck flags transferId acked = { s with
          pending := s.pending.delete transferId
          log := s.log ++ [.resolve transferId] } := by
  unfold onAck
  split
  · rename_i hdone
    rw [Bool.and_eq_true, decide_eq_true_eq] at hdone
    exact .inr ⟨hdone.1, hdone.2, rfl⟩
  · exact .inl rfl

/-- Writes one after another. -/
theorem foldl_write {α : Type} (f : α → Bytes) (xs : List α) {s : Session} (h : s.closed = false) :
    xs.foldl (fun s x => s.write (f x)) s = { s with log := s.log ++ xs.map fun x => .write (f x) } := by
  induction xs generalizing s with
  | nil => simp
  | cons x xs ih =>
      rw [List.foldl_cons, write_open h, ih (s := { s with log := s.log ++ [.write (f x)] }) h]
      simp [List.append_assoc]

/-- `send` refuses, or starts a transfer and writes all of it. -/
theorem send_cases {s : Session} (h : s.closed = false) (bundle : Bytes) :
    (∃ o, Output.written o = [] ∧ Output.emitted o = none ∧ (∀ id, o ≠ .resolve id) ∧
      s.send bundle = s.out o ∧
      ¬ (s.state = .established ∧ ∃ p, s.peer = some p ∧ bundle.length ≤ p.transferMru)) ∨
    ∃ p, s.state = .established ∧ s.peer = some p ∧ bundle.length ≤ p.transferMru ∧
      (256 ^ 8 ≤ s.nextTransferId ∧
        s.send bundle = { s with
          nextTransferId := s.nextTransferId + 1
          pending := s.pending.set s.nextTransferId bundle.length
          log := s.log ++ [.rejected s.nextTransferId (js "ERR_OUT_OF_RANGE")] } ∨
       s.nextTransferId < 256 ^ 8 ∧
        s.send bundle = { s with
          nextTransferId := s.nextTransferId + 1
          pending := s.pending.set s.nextTransferId bundle.length
          log := s.log ++ (cut (max 1 p.segmentMru) bundle).map fun c =>
            .write (encodeSegment c.1 s.nextTransferId c.2) }) := by
  by_cases hest : s.state = .established
  · cases hpeer : s.peer with
    | none =>
        left
        refine ⟨.refused (js "session not established"), rfl, rfl, by simp, ?_, ?_⟩
        · simp [send, hest, hpeer]
        · simp
    | some p =>
        by_cases hlong : bundle.length > p.transferMru
        · left
          refine ⟨.refused (js s!"bundle of {bundle.length} bytes exceeds the peer's transfer MRU"),
            rfl, rfl, by simp, by simp only [send, hest, hpeer, hlong, if_true], ?_⟩
          · rintro ⟨-, q, hq, hle⟩
            cases hq
            omega
        · right
          refine ⟨p, hest, rfl, by omega, ?_⟩
          by_cases hid : 256 ^ 8 ≤ s.nextTransferId
          · left
            refine ⟨hid, ?_⟩
            simp only [send, hest, hpeer, hlong, if_false, hid, if_true]
            simp [begin, out, hest, hpeer]
          · right
            refine ⟨by omega, ?_⟩
            have hwrites := foldl_write (fun c : UInt8 × Bytes => encodeSegment c.1 s.nextTransferId c.2)
              (cut (max 1 p.segmentMru) bundle) (s := s.begin bundle.length) h
            simp only [send, hest, hpeer, hlong, if_false, hid]
            rw [hwrites]
            simp [begin, hest, hpeer]
  · left
    refine ⟨.refused (js "session not established"), rfl, rfl, by simp, ?_, fun hs => hest hs.1⟩
    unfold send
    split
    · rename_i hs _
      exact absurd hs hest
    · rfl

end Session

end Tcpcl4

end DtnCustody
