/-
# DtnCustody.Gateway.Tcpcl4Memory — what a peer can make a TCPCLv4 session hold.

A session holds bytes in two places: in the buffer of its parser and in the transfers that have begun
and not ended. A turn of the loop only moves bytes from the one to the other (`held_turn`). A parser that
waits has less than one message in its buffer (`waiting_buffer`), and no transfer grows beyond the
transfer MRU (`Measured`).

So the memory is bounded by the number of unfinished transfers and by the extension lengths that the
peer announces (`memory_bounded`). The code limits neither: with both MRUs at one byte, every transfer
that is begun adds a byte, for as long as transfer ids last (`memory_unbounded`).
-/
import DtnCustody.Gateway.Tcpcl4Session

namespace DtnCustody

open Base

namespace Tcpcl4

/-! ## What is held -/

namespace Session

/-- The bytes of a transfer, so far. -/
def partsLength (parts : List Bytes) : Int := (parts.flatten.length : Int)

theorem partsLength_nonneg (parts : List Bytes) : 0 ≤ partsLength parts := Int.natCast_nonneg _

theorem partsLength_snoc (parts : List Bytes) (data : Bytes) :
    partsLength (parts ++ [data]) = partsLength parts + data.length := by
  simp [partsLength]

/-- The bytes held in unfinished transfers. -/
def unfinished (s : Session) : Int := s.rx.total partsLength

/-- **The bytes a session holds.** -/
def held (s : Session) : Int := s.parser.buf.length + s.unfinished

/-- `rxBytes` is what `rx` holds, and no transfer is above the MRU. -/
def Measured (s : Session) : Prop :=
  ∀ key parts, s.rx.get? key = some parts →
    s.rxBytes.get? key = some parts.flatten.length ∧ parts.flatten.length ≤ s.opts.transferMru

theorem Measured.of_same {s s' : Session} (h : s.Measured) (hrx : s'.rx = s.rx)
    (hbytes : s'.rxBytes = s.rxBytes) (hopts : s'.opts = s.opts) : s'.Measured := by
  intro key parts hget
  rw [hrx] at hget
  rw [hbytes, hopts]
  exact h key parts hget

theorem Measured.hold {s : Session} (h : s.Measured) (key : Nat) {parts : List Bytes} {got : Nat}
    (hgot : got = parts.flatten.length) (hle : got ≤ s.opts.transferMru) :
    (s.hold key parts got).Measured := by
  intro key' parts' hget
  show (s.rxBytes.set key got).get? key' = _ ∧ _
  replace hget : (s.rx.set key parts).get? key' = some parts' := hget
  by_cases hkey : key' = key
  · rw [hkey, JsMap.get?_set_self] at hget ⊢
    cases hget
    exact ⟨congrArg some hgot, hgot ▸ hle⟩
  · rw [JsMap.get?_set_ne _ hkey] at hget ⊢
    exact h key' parts' hget

theorem Measured.forget {s : Session} (h : s.Measured) (key : Nat) : (s.forget key).Measured := by
  intro key' parts hget
  replace hget : (s.rx.delete key).get? key' = some parts := hget
  show (s.rxBytes.delete key).get? key' = _ ∧ _
  by_cases hkey : key' = key
  · rw [hkey, JsMap.get?_delete_self] at hget
    cases hget
  · rw [JsMap.get?_delete_ne _ hkey] at hget ⊢
    exact h key' parts hget

theorem elim_nonneg (o : Option (List Bytes)) : 0 ≤ o.elim 0 partsLength := by
  cases o with
  | none => exact le_rfl
  | some parts => exact partsLength_nonneg parts

theorem unfinished_forget (s : Session) (key : Nat) : (s.forget key).unfinished ≤ s.unfinished := by
  show (s.rx.delete key).total partsLength ≤ s.rx.total partsLength
  rw [JsMap.total_delete]
  have := elim_nonneg (s.rx.get? key)
  omega

theorem unfinished_hold (s : Session) (key : Nat) (parts : List Bytes) (got : Nat) :
    (s.hold key parts got).unfinished
      = s.unfinished + partsLength parts - (s.rx.get? key).elim 0 partsLength :=
  JsMap.total_set _ _ _ _

/-- **A segment adds no more than its data.** -/
theorem onSegment_held {s : Session} (h : s.Measured) (flags : UInt8) (key : Nat) (data : Bytes) :
    (s.onSegment flags key data).Measured ∧
      (s.onSegment flags key data).unfinished ≤ s.unfinished + data.length := by
  have written : ∀ {s : Session} (bytes : Bytes), s.Measured → (s.write bytes).Measured ∧
      (s.write bytes).unfinished = s.unfinished := by
    intro s bytes hs
    unfold write
    split
    · exact ⟨hs, rfl⟩
    · exact ⟨hs.of_same rfl rfl rfl, rfl⟩
  have part : ∀ {s : Session} {parts}, s.Measured → s.rx.get? key = some parts →
      (s.onPart flags key data parts).Measured ∧
        (s.onPart flags key data parts).unfinished ≤ s.unfinished + data.length := by
    intro s parts hs hget
    obtain ⟨hbytes, hle⟩ := hs key parts hget
    have hgot : (s.rxBytes.get? key).getD 0 = parts.flatten.length := by rw [hbytes]; rfl
    have hsum : parts.flatten.length + data.length = (parts ++ [data]).flatten.length := by simp
    unfold onPart
    dsimp only
    rw [hgot]
    split
    · obtain ⟨hmeasured, hsame⟩ := written ([MSG.XFER_REFUSE, 0x02] ++ u64 key) hs
      refine ⟨hmeasured.forget key, ?_⟩
      have := unfinished_forget (s.write ([MSG.XFER_REFUSE, 0x02] ++ u64 key)) key
      omega
    · rename_i hfits
      have hheld := hs.hold key hsum (by omega)
      have hmore := unfinished_hold s key (parts ++ [data]) (parts.flatten.length + data.length)
      rw [hget, partsLength_snoc] at hmore
      simp only [Option.elim_some] at hmore
      obtain ⟨hmeasured, hsame⟩ := written
        (encodeAck flags key (parts.flatten.length + data.length)) hheld
      split
      · refine ⟨(hmeasured.forget key).of_same rfl rfl rfl, ?_⟩
        have := unfinished_forget ((s.hold key (parts ++ [data])
          (parts.flatten.length + data.length)).write
            (encodeAck flags key (parts.flatten.length + data.length))) key
        show (forget _ key).unfinished ≤ _
        omega
      · exact ⟨hmeasured, by omega⟩
  unfold onSegment reject
  split
  · obtain ⟨hmeasured, hsame⟩ := written [MSG.MSG_REJECT, REJECT_UNEXPECTED, MSG.XFER_SEGMENT] h
    exact ⟨hmeasured, by omega⟩
  · -- A first segment starts its transfer afresh.
    have hstarted : ∀ {b : Bool}, (if b then s.hold key [] 0 else s).Measured ∧
        (if b then s.hold key [] 0 else s).unfinished ≤ s.unfinished := by
      intro b
      cases b with
      | false => exact ⟨h, le_rfl⟩
      | true =>
          refine ⟨h.hold key rfl (Nat.zero_le _), ?_⟩
          rw [if_pos rfl, unfinished_hold]
          have := elim_nonneg (s.rx.get? key)
          simp only [partsLength, List.flatten_nil, List.length_nil]
          omega
    dsimp only
    generalize hs' : (if hasBit flags SEG.START then s.hold key [] 0 else s) = s'
    have hboth := hstarted (b := hasBit flags SEG.START)
    rw [hs'] at hboth
    obtain ⟨hmeasured, hle⟩ := hboth
    cases hget : s'.rx.get? key with
    | none =>
        obtain ⟨hrejected, hsame⟩ :=
          written [MSG.MSG_REJECT, REJECT_UNEXPECTED, MSG.XFER_SEGMENT] hmeasured
        refine ⟨hrejected, ?_⟩
        show (s'.write _).unfinished ≤ _
        omega
    | some parts =>
        obtain ⟨hpart, hadded⟩ := part hmeasured hget
        refine ⟨hpart, ?_⟩
        show (s'.onPart flags key data parts).unfinished ≤ _
        omega

/-- What a session has of transfers, and the limit they have. -/
def Same (s s' : Session) : Prop := s'.rx = s.rx ∧ s'.rxBytes = s.rxBytes ∧ s'.opts = s.opts

theorem same_write (s : Session) (bytes : Bytes) : Same s (s.write bytes) := by
  unfold write
  split <;> exact ⟨rfl, rfl, rfl⟩

theorem same_teardown (s : Session) (err : Option JsString) : Same s (s.teardown err) := by
  unfold teardown
  split <;> exact ⟨rfl, rfl, rfl⟩

theorem Same.trans {s s' s'' : Session} (h : Same s s') (h' : Same s' s'') : Same s s'' :=
  ⟨h'.1.trans h.1, h'.2.1.trans h.2.1, h'.2.2.trans h.2.2⟩

/-- A message that is not a segment leaves the transfers alone. -/
theorem same_onMessage (s : Session) {m : Message} (h : m.isSegment = false) :
    Same s (s.onMessage m) := by
  cases m with
  | segment flags id data => cases h
  | contact version flags =>
      have hanswer : Same s s.answer := by
        unfold answer
        split
        · exact ⟨rfl, rfl, rfl⟩
        · exact same_write _ _
      show Same s (s.onContact version flags)
      unfold onContact
      split
      · exact (same_write _ _).trans (same_teardown _ _)
      · split
        · exact hanswer.trans ((same_write _ _).trans (same_teardown _ _))
        · dsimp only
          split
          · exact hanswer
          · split
            · exact hanswer.trans (same_write { s.answer with state := .init } _)
            · exact hanswer
  | sess_init interval segmentMru transferMru nodeId =>
      show Same s (s.onSessInit interval segmentMru transferMru nodeId)
      unfold onSessInit startKeepalive
      split
      · exact same_write _ _
      · split
        · exact (same_write _ _).trans (same_teardown _ _)
        · have hinit : Same s (if s.opts.active then s else s.sendInit) := by
            split
            · exact ⟨rfl, rfl, rfl⟩
            · exact same_write _ _
          dsimp only
          generalize (if s.opts.active then s else s.sendInit) = t at hinit
          split <;> exact hinit
  | ack flags transferId acked =>
      show Same s (s.onAck flags transferId acked)
      unfold onAck
      split <;> exact ⟨rfl, rfl, rfl⟩
  | refuse reason transferId =>
      show Same s (s.onRefuse reason transferId)
      unfold onRefuse
      split <;> exact ⟨rfl, rfl, rfl⟩
  | sess_term flags reason =>
      show Same s (s.onTerm flags reason)
      unfold onTerm
      dsimp only
      split
      · exact ⟨rfl, rfl, rfl⟩
      · exact same_write _ _
  | bad_magic => exact same_teardown _ _
  | too_big what len => exact (same_write _ _).trans (same_teardown _ _)
  | unknown type => exact same_write _ _
  | keepalive => exact ⟨rfl, rfl, rfl⟩
  | reject reason header => exact ⟨rfl, rfl, rfl⟩

end Session

/-! ## Where the bytes come from -/

/-- The data of a segment is taken out of the buffer. -/
theorem parseMessage_data {maxSegment : Nat} {b rest : Bytes} {flags : UInt8} {id : Nat} {data : Bytes}
    (h : parseMessage maxSegment b = some (.segment flags id data, rest)) :
    data.length + rest.length ≤ b.length := by
  cases b with
  | nil => cases h
  | cons type more =>
      simp only [parseMessage] at h
      split at h
      · unfold parseSessInit at h
        dsimp only at h
        repeat' split at h
        all_goals cases h
      split at h
      · unfold parseSegment at h
        split at h
        · cases h
        · split at h
          · cases h
          · dsimp only at h
            repeat' split at h
            all_goals cases h
            rw [slice, List.length_take, List.length_drop, List.length_drop]
            omega
      repeat' split at h
      all_goals cases h

theorem parse_data {p q : Parser} {flags : UInt8} {id : Nat} {data : Bytes}
    (h : p.parse = some (.segment flags id data, q)) : data.length + q.buf.length ≤ p.buf.length := by
  unfold Parser.parse at h
  split at h
  · obtain ⟨⟨m', rest⟩, hread, hq⟩ := Option.map_eq_some_iff.mp h
    cases hq
    exact parseMessage_data hread
  · obtain ⟨⟨m', rest⟩, hread, hq⟩ := Option.map_eq_some_iff.mp h
    cases hq
    unfold parseHeader at hread
    split at hread
    · cases hread
    · split at hread <;> cases hread

/-- The extension length that the message at the front announces, once it can be read. -/
def announced (b : Bytes) : Nat :=
  match b with
  | [] => 0
  | type :: _ =>
      if type = MSG.SESS_INIT then
        if b.length < 21 + readBE b 19 2 + 4 then 0 else readBE b (21 + readBE b 19 2) 4
      else if type = MSG.XFER_SEGMENT ∧ hasBit (b.getD 1 0) SEG.START then
        if b.length < 14 then 0 else readBE b 10 4
      else 0

theorem readBE_lt (b : Bytes) (off w : Nat) : readBE b off w < 256 ^ w := by
  have hlen : (slice b off w).length ≤ w := by
    rw [slice, List.length_take]
    omega
  have hfold : ∀ (bs : Bytes) (acc : Nat), bs.foldl (fun acc b => acc * 256 + b.toNat) acc
      < (acc + 1) * 256 ^ bs.length := by
    intro bs
    induction bs with
    | nil => intro acc; simp
    | cons c bs ih =>
        intro acc
        refine lt_of_lt_of_le (ih _) ?_
        rw [List.length_cons, pow_succ, ← mul_assoc, mul_right_comm]
        refine Nat.mul_le_mul_right _ ?_
        have := c.toNat_lt
        show acc * 256 + c.toNat + 1 ≤ (acc + 1) * 256
        omega
  calc readBE b off w < (0 + 1) * 256 ^ (slice b off w).length := hfold _ 0
    _ ≤ 256 ^ w := by
      rw [zero_add, one_mul]
      exact Nat.pow_le_pow_right (by norm_num) hlen

/-- The fixed parts of a message, with the longest node id. -/
def headerBytes : Nat := 65560

/-- **A parser that waits has less than one message.** -/
theorem waiting_message {maxSegment : Nat} {b : Bytes} (h : parseMessage maxSegment b = none) :
    b.length ≤ maxSegment + announced b + headerBytes := by
  unfold headerBytes
  cases b with
  | nil => simp
  | cons type more =>
      simp only [parseMessage] at h
      split at h
      · rename_i htype
        have hid := readBE_lt (type :: more) 19 2
        simp only [announced, htype, if_true] at *
        unfold parseSessInit at h
        dsimp only at h
        split at h
        · omega
        split at h
        · omega
        rename_i hnot
        rw [if_neg hnot]
        split at h
        · omega
        · cases h
      rename_i hinit
      split at h
      · rename_i htype
        unfold parseSegment at h
        split at h
        · omega
        split at h
        · rename_i hoff
          unfold segmentOffset at hoff
          split at hoff
          · split at hoff
            · omega
            · cases hoff
          · cases hoff
        · rename_i off hoff
          have hplace : off ≤ 14 + announced (type :: more) := by
            unfold segmentOffset at hoff
            simp only [announced, hinit, if_false]
            split at hoff
            · rename_i hstart
              split at hoff
              · cases hoff
              · rename_i hlen
                cases hoff
                rw [if_pos ⟨htype, hstart⟩, if_neg hlen]
            · cases hoff
              omega
          dsimp only at h
          repeat' split at h
          · omega
          · cases h
          · omega
          · cases h
      repeat' split at h
      all_goals first | omega | cases h

theorem waiting_buffer {p : Parser} (h : p.parse = none) :
    p.buf.length ≤ p.maxSegment + announced p.buf + headerBytes := by
  unfold Parser.parse at h
  split at h
  · exact waiting_message (Option.map_eq_none_iff.mp h)
  · have hread := Option.map_eq_none_iff.mp h
    unfold parseHeader at hread
    unfold headerBytes
    split at hread
    · omega
    · split at hread <;> cases hread

/-! ## A session and its peer -/

/-- What happens to a session: bytes from the peer, calls, timers, the loss of the connection. -/
inductive Event where
  | data (d : Bytes)
  | send (bundle : Bytes)
  | quiet
  | silence
  | ackTimeout (transferId : Nat)
  | secure (peerNodeIds : List JsString)
  | close (reason : UInt8)
  | lost (err : Option JsString)

/-- A chunk is no longer than `c`. -/
def Event.Within (c : Nat) : Event → Prop
  | .data d => d.length ≤ c
  | _ => True

instance (c : Nat) : ∀ e : Event, Decidable (e.Within c)
  | .data d => inferInstanceAs (Decidable (d.length ≤ c))
  | .send _ | .quiet | .silence | .ackTimeout _ | .secure _ | .close _ | .lost _ => isTrue trivial

namespace Session

/-- A destroyed socket hands over nothing. -/
def handle (s : Session) : Event → Session
  | .data d => if s.closed then s else s.onData d
  | .send bundle => s.send bundle
  | .quiet => s.onQuiet
  | .silence => s.onSilence
  | .ackTimeout transferId => s.onAckTimeout transferId
  | .secure peerNodeIds => s.onSecure peerNodeIds
  | .close reason => s.close reason
  | .lost err => s.teardown err

def run (s : Session) (es : List Event) : Session := es.foldl handle s

/-- **A turn of the loop adds nothing to what is held.** -/
theorem held_turn {s s' : Session} (h : s.Measured) (hturn : s.turn = some s') :
    s'.Measured ∧ s'.held ≤ s.held := by
  unfold turn at hturn
  split at hturn
  · cases hturn
  obtain ⟨⟨m, p⟩, hparse, rfl⟩ := Option.map_eq_some_iff.mp hturn
  have hpushed : ({ s with parser := p } : Session).Measured := h
  have hbuf : ({ s with parser := p }.onMessage m).parser.buf.length ≤ p.buf.length := by
    rcases parser_onMessage { s with parser := p } m with hsame | hempty
    · rw [hsame]
    · rw [hempty]
      exact Nat.zero_le _
  have hshort : p.buf.length ≤ s.parser.buf.length := by
    rcases parse_shorter hparse with hless | ⟨hsame, -⟩
    · omega
    · rw [hsame]
  show ({ s with parser := p }.onMessage m).Measured ∧
    (({ s with parser := p }.onMessage m).parser.buf.length : Int) +
      ({ s with parser := p }.onMessage m).unfinished ≤ s.parser.buf.length + s.unfinished
  cases hsegment : m.isSegment with
  | true =>
      cases m with
      | segment flags id data =>
          obtain ⟨hmeasured, hle⟩ := onSegment_held hpushed flags id data
          have htaken := parse_data hparse
          refine ⟨hmeasured, ?_⟩
          have hle' : ({ s with parser := p }.onMessage (.segment flags id data)).unfinished
              ≤ s.unfinished + data.length := hle
          omega
      | _ => cases hsegment
  | false =>
      obtain ⟨hrx, hbytes, hopts⟩ := same_onMessage { s with parser := p } hsegment
      refine ⟨hpushed.of_same hrx hbytes hopts, ?_⟩
      have hsame : ({ s with parser := p }.onMessage m).unfinished = s.unfinished := by
        show JsMap.total _ _ = _
        rw [hrx]
        rfl
      omega

/-- **At every point of the loop over a chunk**, a session holds at most what it held and the chunk. -/
theorem held_drain {s : Session} (h : s.Measured) (d : Bytes) (n : Nat) :
    (drain turn n (s.push d)).Measured ∧ (drain turn n (s.push d)).held ≤ s.held + d.length := by
  refine drain_keeps turn (P := fun t => t.Measured ∧ t.held ≤ s.held + d.length) ?_ n ⟨h, ?_⟩
  · rintro t t' ⟨hmeasured, hle⟩ hturn
    obtain ⟨hmeasured', hle'⟩ := held_turn hmeasured hturn
    exact ⟨hmeasured', hle'.trans hle⟩
  · show ((s.parser.buf ++ d).length : Int) + s.unfinished ≤ _
    unfold held
    rw [List.length_append]
    push_cast
    omega

/-- What a session has of the peer's bytes is the same, and it has not been opened again. -/
structure SameBytes (s s' : Session) : Prop where
  same : Same s s'
  parser : s'.parser = s.parser
  closed : s.closed = true → s'.closed = true

theorem sameBytes_write (s : Session) (bytes : Bytes) : SameBytes s (s.write bytes) :=
  ⟨same_write s bytes, parser_write s bytes, fun h => by rw [closed_write, h]⟩

theorem sameBytes_teardown (s : Session) (err : Option JsString) : SameBytes s (s.teardown err) := by
  refine ⟨same_teardown s err, parser_teardown s err, fun h => ?_⟩
  rw [teardown, if_pos h]
  exact h

theorem SameBytes.trans {s s' s'' : Session} (h : SameBytes s s') (h' : SameBytes s' s'') :
    SameBytes s s'' :=
  ⟨h.same.trans h'.same, h'.parser.trans h.parser, h'.closed ∘ h.closed⟩

/-- Only the peer's bytes change what is held of them. -/
theorem sameBytes_handle (s : Session) {e : Event} (h : ∀ d, e ≠ .data d) :
    SameBytes s (s.handle e) := by
  have refl : SameBytes s s := ⟨⟨rfl, rfl, rfl⟩, rfl, id⟩
  cases e with
  | data d => exact absurd rfl (h d)
  | send bundle =>
      have hwrites : ∀ (f : UInt8 × Bytes → Bytes) (cs : List (UInt8 × Bytes)) (t : Session),
          SameBytes s t → SameBytes s (cs.foldl (fun t c => t.write (f c)) t) := by
        intro f cs
        induction cs with
        | nil => exact fun t ht => ht
        | cons c cs ih => exact fun t ht => ih _ (ht.trans (sameBytes_write t _))
      show SameBytes s (s.send bundle)
      unfold send
      have hbegin : ∀ n, SameBytes s (s.begin n) := fun n => ⟨⟨rfl, rfl, rfl⟩, rfl, id⟩
      have hout : ∀ o, SameBytes s (s.out o) := fun o => ⟨⟨rfl, rfl, rfl⟩, rfl, id⟩
      split
      · split
        · exact hout _
        · dsimp only
          split
          · exact ⟨⟨rfl, rfl, rfl⟩, rfl, id⟩
          · exact hwrites _ _ _ (hbegin _)
      · exact hout _
  | quiet =>
      show SameBytes s s.onQuiet
      unfold onQuiet
      split
      · exact sameBytes_write s _
      · exact refl
  | silence =>
      show SameBytes s s.onSilence
      unfold onSilence
      split
      · exact (sameBytes_write s _).trans (sameBytes_teardown _ _)
      · exact refl
  | ackTimeout transferId =>
      show SameBytes s (s.onAckTimeout transferId)
      unfold onAckTimeout
      split <;> exact ⟨⟨rfl, rfl, rfl⟩, rfl, id⟩
  | secure peerNodeIds =>
      show SameBytes s (s.onSecure peerNodeIds)
      unfold onSecure
      split
      · dsimp only
        have hsecure : SameBytes s { s with secure := true, securing := false, peerNodeIds } :=
          ⟨⟨rfl, rfl, rfl⟩, rfl, id⟩
        split
        · exact hsecure.trans (sameBytes_write _ _)
        · exact hsecure
      · exact refl
  | close reason => exact sameBytes_write s _
  | lost err => exact sameBytes_teardown s err

/-! ## Every run -/

theorem opts_onSegment (s : Session) (flags : UInt8) (key : Nat) (data : Bytes) :
    (s.onSegment flags key data).opts = s.opts := by
  have hwrite : ∀ (s : Session) bytes, (s.write bytes).opts = s.opts :=
    fun s bytes => (same_write s bytes).2.2
  have hpart : ∀ (s : Session) parts, (s.onPart flags key data parts).opts = s.opts := by
    intro s parts
    unfold onPart forget
    dsimp only
    split
    · exact hwrite _ _
    · split
      · exact hwrite (s.hold _ _ _) _
      · exact hwrite (s.hold _ _ _) _
  unfold onSegment
  split
  · exact hwrite _ _
  · dsimp only
    split
    · refine (hwrite _ _).trans ?_
      split <;> rfl
    · rw [hpart]
      split <;> rfl

/-- The points of the loop over a chunk. -/
def within (s : Session) : Event → List Session
  | .data d =>
      if s.closed then []
      else (List.range (s.parser.buf.length + d.length + 3)).map fun n => drain turn n (s.push d)
  | _ => []

/-- **Every point of a run**: before each event, within the loop over each chunk, and at the end. -/
def points (s : Session) : List Event → List Session
  | [] => [s]
  | e :: es => s :: (s.within e ++ (s.handle e).points es)

/-- A session between two events: its parser waits, or it is closed. -/
structure Resting (o : Options) (s : Session) : Prop where
  opts : s.opts = o
  limit : s.parser.maxSegment = o.segmentMru
  measured : s.Measured
  waits : s.closed = false → s.parser.parse = none

theorem turn_opts {s s' : Session} (hturn : s.turn = some s') :
    s'.opts = s.opts ∧ s'.parser.maxSegment = s.parser.maxSegment := by
  unfold turn at hturn
  split at hturn
  · cases hturn
  obtain ⟨⟨m, p⟩, hparse, rfl⟩ := Option.map_eq_some_iff.mp hturn
  have hlimit : p.maxSegment = s.parser.maxSegment := by
    unfold Parser.parse at hparse
    split at hparse <;>
      obtain ⟨r, -, hr⟩ := Option.map_eq_some_iff.mp hparse <;> cases hr <;> rfl
  show ({ s with parser := p }.onMessage m).opts = s.opts ∧
    ({ s with parser := p }.onMessage m).parser.maxSegment = _
  constructor
  · cases hsegment : m.isSegment with
    | false => exact (same_onMessage { s with parser := p } hsegment).2.2
    | true =>
        cases m with
        | segment flags id data => exact opts_onSegment _ flags id data
        | _ => cases hsegment
  · rcases parser_onMessage { s with parser := p } m with hsame | hempty
    · rw [hsame, ← hlimit]
    · rw [hempty, ← hlimit]

theorem resting_new (o : Options) : Resting o (.new o) := by
  have hfields : (Session.new o).opts = o ∧ (Session.new o).parser = { maxSegment := o.segmentMru } ∧
      (Session.new o).rx = .empty := by
    unfold new
    dsimp only
    split <;> exact ⟨rfl, rfl, rfl⟩
  obtain ⟨hopts, hparser, hrx⟩ := hfields
  refine ⟨hopts, by rw [hparser], ?_, fun _ => by rw [hparser]; rfl⟩
  intro key parts hget
  rw [hrx, JsMap.get?_empty] at hget
  cases hget

theorem Resting.handle {o : Options} {s : Session} (h : Resting o s) (e : Event) :
    Resting o (s.handle e) := by
  by_cases hdata : ∃ d, e = .data d
  · obtain ⟨d, rfl⟩ := hdata
    show Resting o (if s.closed then s else s.onData d)
    split
    · exact h
    · have hopts := drain_keeps turn
        (P := fun t => t.opts = s.opts ∧ t.parser.maxSegment = s.parser.maxSegment)
        (fun t t' ht hturn => ⟨(turn_opts hturn).1.trans ht.1, (turn_opts hturn).2.trans ht.2⟩)
        (s.parser.buf.length + d.length + 2) (s := s.push d) ⟨rfl, rfl⟩
      refine ⟨hopts.1.trans h.opts, hopts.2.trans h.limit,
        (held_drain h.measured d (s.parser.buf.length + d.length + 2)).1, fun hopen => ?_⟩
      have hsettled := settled_onData s d
      rw [turn, if_neg (by rw [hopen]; simp)] at hsettled
      exact Option.map_eq_none_iff.mp hsettled
  · obtain ⟨⟨hrx, hbytes, hopts⟩, hparser, hstays⟩ := sameBytes_handle s fun d hd => hdata ⟨d, hd⟩
    refine ⟨hopts.trans h.opts, by rw [hparser]; exact h.limit, h.measured.of_same hrx hbytes hopts,
      fun hopen => ?_⟩
    rw [hparser]
    refine h.waits ?_
    cases hclosed : s.closed with
    | false => rfl
    | true =>
        rw [hstays hclosed] at hopen
        cases hopen

/-- **What a session holds between two events**: its unfinished transfers, each within the transfer
MRU, and less than one message. -/
theorem Resting.held_le {o : Options} {s : Session} (h : Resting o s) (hopen : s.closed = false) :
    s.held ≤ s.rx.size * o.transferMru +
      (o.segmentMru + announced s.parser.buf + headerBytes : Nat) := by
  have hwaits := waiting_buffer (h.waits hopen)
  rw [h.limit] at hwaits
  have hunfinished : s.unfinished ≤ s.rx.size * o.transferMru := by
    show (s.rx.values.map partsLength).sum ≤ _
    have hsum := List.sum_le_card_nsmul (s.rx.values.map partsLength) (o.transferMru : Int) ?_
    · rw [List.length_map, nsmul_eq_mul] at hsum
      refine hsum.trans (le_of_eq ?_)
      rw [JsMap.values, List.length_map]
      rfl
    · intro n hn
      obtain ⟨parts, hparts, rfl⟩ := List.mem_map.mp hn
      obtain ⟨key, hget⟩ := JsMap.mem_values_iff.mp hparts
      have := (h.measured key parts hget).2
      rw [h.opts] at this
      exact Int.ofNat_le.mpr this
  unfold held
  omega

/-- A peer that has begun no more than `k` transfers without ending them, and announces no more than
`ext` bytes of extensions. -/
def Modest (k ext : Nat) (s : Session) : Prop := s.rx.size ≤ k ∧ announced s.parser.buf ≤ ext

instance (k ext : Nat) (s : Session) : Decidable (s.Modest k ext) :=
  inferInstanceAs (Decidable (_ ∧ _))

/-- Every step of a run is taken from a state in which the peer is modest. -/
def ModestRun (k ext : Nat) : Session → List Event → Prop
  | _, [] => True
  | s, e :: es => (s.closed = false → s.Modest k ext) ∧ ModestRun k ext (s.handle e) es

instance decidableModestRun (k ext : Nat) :
    ∀ (s : Session) (es : List Event), Decidable (ModestRun k ext s es)
  | _, [] => isTrue trivial
  | s, e :: es =>
      have := decidableModestRun k ext (s.handle e) es
      inferInstanceAs (Decidable (_ ∧ _))

theorem held_points {o : Options} {k ext c : Nat} (es : List Event) {s : Session} (h : Resting o s)
    (hheld : s.held ≤ k * o.transferMru + (o.segmentMru + ext + headerBytes + c : Nat))
    (hchunks : ∀ e ∈ es, e.Within c) (hmodest : ModestRun k ext s es) :
    ∀ t ∈ s.points es, t.held ≤ k * o.transferMru + (o.segmentMru + ext + headerBytes + c : Nat) := by
  induction es generalizing s with
  | nil =>
      intro t ht
      rw [List.mem_singleton.mp ht]
      exact hheld
  | cons e es ih =>
      obtain ⟨hstate, hrest⟩ := hmodest
      -- Within a chunk, and after it, no more is held than before it and the chunk.
      have hchunk : ∀ d n, e = .data d → s.closed = false →
          (drain turn n (s.push d)).held
            ≤ k * o.transferMru + (o.segmentMru + ext + headerBytes + c : Nat) := by
        intro d n he hopen
        obtain ⟨hsize, hext⟩ := hstate hopen
        have hbefore := h.held_le hopen
        have hlength : d.length ≤ c := by
          have := hchunks e List.mem_cons_self
          rw [he] at this
          exact this
        have hgrows := (held_drain h.measured d n).2
        have hmany : (s.rx.size : Int) * o.transferMru ≤ k * o.transferMru :=
          Int.mul_le_mul_of_nonneg_right (Int.ofNat_le.mpr hsize) (Int.natCast_nonneg _)
        omega
      have hnext : (s.handle e).held
          ≤ k * o.transferMru + (o.segmentMru + ext + headerBytes + c : Nat) := by
        by_cases hdata : ∃ d, e = .data d
        · obtain ⟨d, rfl⟩ := hdata
          show Session.held (if s.closed then s else s.onData d) ≤ _
          split
          · exact hheld
          · rename_i hopen
            exact hchunk d _ rfl (by simpa using hopen)
        · have hsame := sameBytes_handle s fun d hd => hdata ⟨d, hd⟩
          have hequal : (s.handle e).held = s.held := by
            unfold held unfinished
            rw [hsame.parser, hsame.same.1]
          rw [hequal]
          exact hheld
      intro t ht
      rcases List.mem_cons.mp ht with rfl | ht
      · exact hheld
      rcases List.mem_append.mp ht with ht | ht
      · cases e with
        | data d =>
            by_cases hclosed : s.closed = true
            · rw [within, if_pos hclosed] at ht
              cases ht
            · rw [within, if_neg hclosed] at ht
              obtain ⟨n, -, rfl⟩ := List.mem_map.mp ht
              exact hchunk d n rfl (by simpa using hclosed)
        | _ => exact (List.not_mem_nil ht).elim
      · exact ih (h.handle e) hnext (fun e he => hchunks e (List.mem_cons_of_mem _ he)) hrest t ht

end Session

/-- **What bounds the memory of a session.** In every run against any peer, cut into chunks of at most
`c` bytes, in which the peer never has more than `k` transfers begun and not ended and announces no more
than `ext` bytes of extensions, the session holds at every point at most `k` transfer MRUs, one segment
MRU, the extensions, the fixed parts of a message and a chunk. -/
theorem memory_bounded (o : Options) (k ext c : Nat) (es : List Event)
    (hchunks : ∀ e ∈ es, e.Within c) (hmodest : Session.ModestRun k ext (.new o) es) :
    ∀ t ∈ (Session.new o).points es,
      t.held ≤ k * o.transferMru + (o.segmentMru + ext + headerBytes + c : Nat) := by
  refine Session.held_points es (Session.resting_new o) ?_ hchunks hmodest
  have hnothing : (Session.new o).held = 0 := by
    unfold Session.held Session.unfinished Session.new
    dsimp only
    split <;> rfl
  have hmany := Int.mul_nonneg (Int.natCast_nonneg k) (Int.natCast_nonneg o.transferMru)
  omega

/-! ## What nothing bounds -/

theorem tinyMru_lt : 1 < 256 ^ 8 := by decide

/-- A node that advertises one byte for a segment and one for a transfer. -/
def tinyOptions : Options where
  active := false
  nodeId := js "ipn:1.0"
  segmentMru := 1
  transferMru := 1
  keepalive_lt := default_keepalive_lt
  segmentMru_lt := tinyMru_lt
  transferMru_lt := tinyMru_lt
  nodeId_lt := sampleNodeId_lt

/-- The handshake of a peer. -/
def peerHandshake : List Event :=
  [.data (encodeContactHeader false), .data (encodeSessInit 0 1 1 (js "ipn:9.0"))]

/-- The first segment of transfer `i`, a byte long, and no other segment of it. -/
def firstSegment (i : Nat) : Bytes := encodeSegment SEG.START i [0]

/-- Two transfers are begun, one after the other ended by its last segment. -/
theorem memory_bounded_sample :
    ((Session.new tinyOptions).points (peerHandshake ++
        [.data (firstSegment 0), .data (encodeSegment SEG.END 0 []), .data (firstSegment 1)])).all
      (fun t => t.held ≤ ((1 : Nat) : Int) * tinyOptions.transferMru +
        (tinyOptions.segmentMru + 0 + headerBytes + 40 : Nat)) = true := by
  refine List.all_eq_true.mpr fun t ht => decide_eq_true ?_
  refine memory_bounded tinyOptions 1 0 40 _ ?_ ?_ t ht
  · decide +kernel
  · decide +kernel

/-- A session that has `i` transfers begun, of one byte each. -/
structure Begun (i : Nat) (s : Session) : Prop where
  closed : s.closed = false
  state : s.state = .established
  buf : s.parser.buf = []
  headerDone : s.parser.headerDone = true
  limit : s.parser.maxSegment = 1
  transferMru : s.opts.transferMru = 1
  unfinished : s.unfinished = i
  unused : ∀ j, i ≤ j → s.rx.get? j = none

/-- One more transfer, and one more byte. -/
theorem Begun.next {i : Nat} {s : Session} (h : Begun i s) (hi : i < 256 ^ 8) :
    Begun (i + 1) (s.handle (.data (firstSegment i))) := by
  obtain ⟨hclosed, hstate, hbuf, hheader, hlimit, htransfer, hunfinished, hunused⟩ := h
  have hflags : hasBit SEG.START SEG.START = true ∧ hasBit SEG.START SEG.END = false := by decide
  -- The chunk is one message, and nothing is left of it.
  have hparse : (s.push (firstSegment i)).parser.parse = some (.segment SEG.START i [0], s.parser) := by
    have hwhole := (framed_message 1).whole (m := .segment SEG.START i [0])
      ⟨hi, le_rfl, by decide⟩ []
    rw [List.append_nil] at hwhole
    unfold Parser.parse Session.push Parser.push
    rw [hheader, hbuf, hlimit, if_pos rfl, List.nil_append]
    show (parseMessage 1 (Message.segment SEG.START i [0]).bytes).map _ = _
    rw [hwhole]
    show some (_, Parser.mk [] true 1) = some (_, s.parser)
    rw [← hbuf, ← hheader, ← hlimit]
  generalize ht : s.onSegment SEG.START i [0] = t
  have hsegment : t = ((s.hold i [] 0).hold i [[0]] 1).write (encodeAck SEG.START i 1) := by
    rw [← ht, Session.onSegment, if_neg (by simp [hstate])]
    simp only [hflags, if_true]
    rw [show (s.hold i [] 0).rx.get? i = some [] from JsMap.get?_set_self _ _ _]
    show (s.hold i [] 0).onPart SEG.START i [0] [] = _
    rw [Session.onPart, show (s.hold i [] 0).rxBytes.get? i = some 0 from JsMap.get?_set_self _ _ _]
    simp only [hflags]
    rw [if_neg (by show ¬ _ > s.opts.transferMru; rw [htransfer]; decide)]
    rfl
  rw [Session.write_open (by exact hclosed)] at hsegment
  have hturn : (s.push (firstSegment i)).turn = some t := by
    rw [Session.turn, if_neg (by show ¬ s.closed = true; rw [hclosed]; simp), hparse, ← ht]
    rfl
  have hdone : t.turn = none := by
    have hwaits : t.parser.parse = none := by
      rw [hsegment]
      show s.parser.parse = none
      rw [Parser.parse, hheader, hbuf]
      rfl
    rw [Session.turn, hwaits]
    split <;> rfl
  have hafter : s.handle (.data (firstSegment i)) = t := by
    show (if s.closed then s else s.onData (firstSegment i)) = t
    rw [if_neg (by rw [hclosed]; simp), Session.onData, drain, hturn]
    exact drain_of_none _ hdone _
  rw [hafter, hsegment]
  refine ⟨hclosed, hstate, hbuf, hheader, hlimit, htransfer, ?_, ?_⟩
  · show ((s.rx.set i []).set i [[0]]).total Session.partsLength = _
    rw [JsMap.total_set, JsMap.total_set, JsMap.get?_set_self, hunused i le_rfl]
    have hbefore : s.rx.total Session.partsLength = i := hunfinished
    simp [Session.partsLength, hbefore]
  · intro j hj
    show ((s.rx.set i []).set i [[0]]).get? j = none
    rw [JsMap.get?_set_ne _ (by omega), JsMap.get?_set_ne _ (by omega)]
    exact hunused j (by omega)

theorem begun_zero : Begun 0 ((Session.new tinyOptions).run peerHandshake) := by
  have hrx : ((Session.new tinyOptions).run peerHandshake).rx.entries = [] := by decide +kernel
  refine ⟨by decide +kernel, by decide +kernel, by decide +kernel, by decide +kernel,
    by decide +kernel, by decide +kernel, by decide +kernel, fun j _ => ?_⟩
  rw [JsMap.get?, hrx]
  rfl

theorem Session.run_append (s : Session) (es fs : List Event) :
    s.run (es ++ fs) = (s.run es).run fs :=
  List.foldl_append

/-- **Every transfer that is begun adds a byte.** -/
theorem begun_many {n : Nat} (hn : n ≤ 256 ^ 8) :
    Begun n ((Session.new tinyOptions).run
      (peerHandshake ++ (List.range n).map fun i => .data (firstSegment i))) := by
  induction n with
  | zero => exact begun_zero
  | succ n ih =>
      rw [List.range_succ, List.map_append, ← List.append_assoc, Session.run_append]
      exact (ih (by omega)).next (by omega)

theorem mem_points_run (s : Session) (es : List Event) : s.run es ∈ s.points es := by
  induction es generalizing s with
  | nil => exact List.mem_singleton.mpr rfl
  | cons e es ih => exact List.mem_cons_of_mem _ (List.mem_append_right _ (ih (s.handle e)))

/-- What was advertised, with `headers` bytes for what is not data, bounds the memory of every session. -/
def Advertised (headers : Nat) : Prop :=
  ∀ (o : Options) (es : List Event) (c : Nat), (∀ e ∈ es, e.Within c) →
    ∀ t ∈ (Session.new o).points es, t.held ≤ (o.segmentMru + o.transferMru + headers + c : Nat)

/-- **Nothing advertised bounds the memory.** -/
theorem memory_unbounded : ¬ ∃ headers, headers < 2 ^ 62 ∧ Advertised headers := by
  rintro ⟨headers, hsmall, hbound⟩
  have hmany := begun_many (n := headers + 64) (by omega)
  have hheld := hbound tinyOptions (peerHandshake ++
    (List.range (headers + 64)).map fun i => .data (firstSegment i)) 40 ?_ _ (mem_points_run _ _)
  · rw [Session.held, hmany.buf, hmany.unfinished] at hheld
    have hmrus : tinyOptions.segmentMru + tinyOptions.transferMru = 2 := rfl
    simp only [List.length_nil] at hheld
    omega
  · intro e he
    have hhandshake : ∀ e ∈ peerHandshake, e.Within 40 := by decide +kernel
    rcases List.mem_append.mp he with he | he
    · exact hhandshake e he
    · obtain ⟨i, -, rfl⟩ := List.mem_map.mp he
      show (encodeSegment SEG.START i [0]).length ≤ 40
      rw [length_encodeSegment]
      decide

end Tcpcl4

end DtnCustody
