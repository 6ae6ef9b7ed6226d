/-
# DtnCustody.Gateway.Tcpcl4Frames — the parser of `gateway/tcpcl4.mjs` against its encoders.

Whatever follows a message in the buffer, the parser finds that message; on a proper part of one it
waits (`framed_header`, `framed_message`). All of it rests on where a field stands: the parser reads a
field from the place at which the encoder wrote it, and a prefix that is long enough has it there too.
-/
import DtnCustody.Gateway.Tcpcl4

namespace DtnCustody

open Base

namespace Tcpcl4

/-! ## Fields in place -/

theorem slice_at {b mid back : Bytes} {off n : Nat} (front : Bytes) (hb : b = front ++ (mid ++ back))
    (hoff : front.length = off) (hn : mid.length = n) : slice b off n = mid := by
  rw [slice, hb, ← hoff, List.drop_left, ← hn, List.take_left]

theorem readBE_at {b back : Bytes} {off w n : Nat} (front : Bytes) (hb : b = front ++ (beBytes w n ++ back))
    (hoff : front.length = off) (hn : n < 256 ^ w) : readBE b off w = n := by
  rw [readBE, slice_at front hb hoff (length_beBytes w n), beNat_beBytes hn]

theorem slice_front {p b : Bytes} {off n : Nat} (hp : p <+: b) (hlen : off + n ≤ p.length) :
    slice p off n = slice b off n := by
  obtain ⟨t, rfl⟩ := hp
  rw [slice, slice, List.drop_append_of_le_length (by omega),
    List.take_append_of_le_length (by rw [List.length_drop]; omega)]

theorem readBE_front {p b : Bytes} {off w : Nat} (hp : p <+: b) (hlen : off + w ≤ p.length) :
    readBE p off w = readBE b off w := by
  rw [readBE, readBE, slice_front hp hlen]

theorem getD_append {p t : Bytes} {i : Nat} (hlen : i < p.length) :
    (p ++ t).getD i 0 = p.getD i 0 := by
  rw [List.getD_eq_getElem?_getD, List.getD_eq_getElem?_getD, List.getElem?_append_left hlen]

theorem getD_front {p b : Bytes} {i : Nat} (hp : p <+: b) (hlen : i < p.length) :
    p.getD i 0 = b.getD i 0 := by
  obtain ⟨t, rfl⟩ := hp
  rw [getD_append hlen]

theorem length_u64 (n : Nat) : (u64 n).length = 8 := length_beBytes 8 n

/-! ## What the parser uses up -/

theorem parseMessage_shorter {maxSegment : Nat} {b rest : Bytes} {m : Message}
    (h : parseMessage maxSegment b = some (m, rest)) :
    rest.length < b.length ∨ rest = b ∧ ∃ len, m = .too_big "segment" len := by
  cases b with
  | nil => cases h
  | cons type more =>
      have hdrop : ∀ n, 0 < n → ((type :: more).drop n).length < (type :: more).length := by
        intro n hn
        rw [List.length_drop, List.length_cons]
        omega
      simp only [parseMessage] at h
      split at h
      · unfold parseSessInit at h
        dsimp only at h
        repeat' split at h
        all_goals cases h
        exact .inl (hdrop _ (by omega))
      split at h
      · unfold parseSegment at h
        split at h
        · cases h
        · split at h
          · cases h
          · dsimp only at h
            repeat' split at h
            · cases h
            · cases h
              exact .inr ⟨rfl, _, rfl⟩
            · cases h
            · cases h
              exact .inl (hdrop _ (by omega))
      repeat' split at h
      all_goals cases h
      all_goals
        first
        | exact .inl (hdrop _ (by omega))
        | exact .inl (Nat.lt_succ_self _)

/-- **Every message but one uses up some of the buffer**; a segment above the limit stays there. -/
theorem parse_shorter {p q : Parser} {m : Message} (h : p.parse = some (m, q)) :
    q.buf.length < p.buf.length ∨ q.buf = p.buf ∧ ∃ len, m = .too_big "segment" len := by
  unfold Parser.parse at h
  split at h
  · obtain ⟨⟨m', rest⟩, hread, hq⟩ := Option.map_eq_some_iff.mp h
    cases hq
    exact parseMessage_shorter hread
  · obtain ⟨⟨m', rest⟩, hread, hq⟩ := Option.map_eq_some_iff.mp h
    cases hq
    left
    unfold parseHeader at hread
    split at hread
    · cases hread
    · split at hread <;> cases hread <;>
      · rw [List.length_drop]
        omega

/-! ## Messages as bytes -/

namespace Message

/-- A message on the wire. -/
def bytes : Message → Bytes
  | .bad_magic => []
  | .contact version flags => MAGIC ++ [version, flags]
  | .sess_init interval segmentMru transferMru nodeId =>
      encodeSessInit interval segmentMru transferMru nodeId
  | .segment flags transferId data => encodeSegment flags transferId data
  | .ack flags transferId acked => encodeAck flags transferId acked
  | .refuse reason transferId => [MSG.XFER_REFUSE, reason] ++ u64 transferId
  | .keepalive => [MSG.KEEPALIVE]
  | .sess_term flags reason => encodeTerm flags reason
  | .reject reason header => [MSG.MSG_REJECT, reason, header]
  | .too_big _ _ => []
  | .unknown type => [type]

def isSegment : Message → Bool
  | .segment _ _ _ => true
  | _ => false

/-- The messages that can follow a contact header, with fields that fit into their places and, for a
segment, within the limit of the receiver. -/
def Fits (maxSegment : Nat) : Message → Prop
  | .sess_init interval segmentMru transferMru nodeId =>
      interval < 256 ^ 2 ∧ segmentMru < 256 ^ 8 ∧ transferMru < 256 ^ 8 ∧
        (toUtf8 nodeId).length < 256 ^ 2 ∧ WellFormed nodeId
  | .segment _ transferId data =>
      transferId < 256 ^ 8 ∧ data.length ≤ maxSegment ∧ data.length < 256 ^ 8
  | .ack _ transferId acked => transferId < 256 ^ 8 ∧ acked < 256 ^ 8
  | .refuse _ transferId => transferId < 256 ^ 8
  | .keepalive => True
  | .sess_term _ _ => True
  | .reject _ _ => True
  | _ => False

end Message

/-! ## The contact header -/

/-- **A contact header is found whole or waited for.** -/
theorem framed_header :
    Framed (fun m => ∃ version flags, m = .contact version flags) Message.bytes parseHeader where
  nil := rfl
  whole := by
    rintro m ⟨version, flags, rfl⟩ rest
    have hlen : ¬ (MAGIC ++ [version, flags] ++ rest).length < 6 := by
      simp [MAGIC]
    show parseHeader (MAGIC ++ [version, flags] ++ rest) = _
    simp only [parseHeader, hlen, if_false]
    rfl
  short := by
    rintro m ⟨version, flags, rfl⟩ p - hlen
    have hsix : p.length < 6 := hlen
    simp only [parseHeader, hsix, if_true]

/-! ## SESS_INIT -/

section SessInit

variable {keepalive segmentMru transferMru : Nat} {nodeId : JsString}

theorem length_encodeSessInit :
    (encodeSessInit keepalive segmentMru transferMru nodeId).length
      = 21 + (toUtf8 nodeId).length + 4 := by
  simp only [encodeSessInit, List.length_append, length_beBytes, length_u64, List.length_replicate,
    List.length_singleton]

/-- Where the fields of a SESS_INIT are. -/
theorem fields_encodeSessInit (h : (Message.sess_init keepalive segmentMru transferMru nodeId).Fits 0)
    (rest : Bytes) :
    let b := encodeSessInit keepalive segmentMru transferMru nodeId ++ rest
    readBE b 1 2 = keepalive ∧ readBE b 3 8 = segmentMru ∧ readBE b 11 8 = transferMru ∧
      readBE b 19 2 = (toUtf8 nodeId).length ∧
      slice b 21 (toUtf8 nodeId).length = toUtf8 nodeId ∧
      readBE b (21 + (toUtf8 nodeId).length) 4 = 0 := by
  obtain ⟨hk, hs, ht, hid, -⟩ := h
  have hzero : (List.replicate 4 0 : Bytes) = beBytes 4 0 := by decide
  refine ⟨?_, ?_, ?_, ?_, ?_, ?_⟩
  · refine readBE_at [MSG.SESS_INIT] (by simp only [encodeSessInit, List.append_assoc]; rfl) rfl hk
  · refine readBE_at ([MSG.SESS_INIT] ++ beBytes 2 keepalive)
      (by simp only [encodeSessInit, List.append_assoc, u64]; rfl) ?_ hs
    rw [List.length_append, length_beBytes, List.length_singleton]
  · refine readBE_at ([MSG.SESS_INIT] ++ beBytes 2 keepalive ++ u64 segmentMru)
      (by simp only [encodeSessInit, List.append_assoc, u64]; rfl) ?_ ht
    simp only [List.length_append, length_beBytes, length_u64, List.length_singleton]
  · refine readBE_at
      ([MSG.SESS_INIT] ++ beBytes 2 keepalive ++ u64 segmentMru ++ u64 transferMru)
      (by simp only [encodeSessInit, List.append_assoc, u64]; rfl) ?_ hid
    simp only [List.length_append, length_beBytes, length_u64, List.length_singleton]
  · refine slice_at
      ([MSG.SESS_INIT] ++ beBytes 2 keepalive ++ u64 segmentMru ++ u64 transferMru ++
        beBytes 2 (toUtf8 nodeId).length)
      (by simp only [encodeSessInit, List.append_assoc, u64]; rfl) ?_ rfl
    simp only [List.length_append, length_beBytes, length_u64, List.length_singleton]
  · refine readBE_at ([MSG.SESS_INIT] ++ beBytes 2 keepalive ++ u64 segmentMru ++ u64 transferMru ++
        beBytes 2 (toUtf8 nodeId).length ++ toUtf8 nodeId)
      (by simp only [encodeSessInit, List.append_assoc, hzero]; rfl) ?_ (by norm_num)
    simp only [List.length_append, length_beBytes, length_u64, List.length_singleton]

theorem parseSessInit_whole
    (h : (Message.sess_init keepalive segmentMru transferMru nodeId).Fits 0) (rest : Bytes) :
    parseSessInit (encodeSessInit keepalive segmentMru transferMru nodeId ++ rest)
      = some (.sess_init keepalive segmentMru transferMru nodeId, rest) := by
  obtain ⟨hk, hs, ht, hlen, hid, hext⟩ := fields_encodeSessInit h rest
  have hwf : WellFormed nodeId := h.2.2.2.2
  have hall := @length_encodeSessInit keepalive segmentMru transferMru nodeId
  have hlong : (encodeSessInit keepalive segmentMru transferMru nodeId ++ rest).length
      = 21 + (toUtf8 nodeId).length + 4 + rest.length := by
    rw [List.length_append, hall]
  simp only [parseSessInit, hk, hs, ht, hlen, hid, hext, ofUtf8_toUtf8 hwf]
  rw [if_neg (by omega), if_neg (by omega), if_neg (by omega), Nat.add_zero, ← hall, List.drop_left]

theorem parseSessInit_short
    (h : (Message.sess_init keepalive segmentMru transferMru nodeId).Fits 0) {p : Bytes}
    (hp : p <+: encodeSessInit keepalive segmentMru transferMru nodeId)
    (hlen : p.length < (encodeSessInit keepalive segmentMru transferMru nodeId).length) :
    parseSessInit p = none := by
  have hfields := fields_encodeSessInit h []
  rw [List.append_nil] at hfields
  obtain ⟨-, -, -, hidLen, -, -⟩ := hfields
  rw [length_encodeSessInit] at hlen
  by_cases hshort : p.length < 21
  · simp only [parseSessInit, hshort, if_true]
  · have hread : readBE p 19 2 = (toUtf8 nodeId).length := by
      rw [readBE_front hp (by omega), hidLen]
    -- With its length field read, the prefix ends within the node id or the extension length.
    simp only [parseSessInit, hshort, if_false, hread, hlen, if_true]

end SessInit

/-! ## XFER_SEGMENT -/

section Segment

variable {flags : UInt8} {transferId maxSegment : Nat} {data : Bytes}

/-- How long a segment is before its data length. -/
def headLength (flags : UInt8) : Nat := if hasBit flags SEG.START then 14 else 10

/-- A segment before its data length. -/
def segmentHead (flags : UInt8) (transferId : Nat) : Bytes :=
  [MSG.XFER_SEGMENT, flags] ++ u64 transferId ++
    (if hasBit flags SEG.START then List.replicate 4 0 else [])

theorem length_segmentHead : (segmentHead flags transferId).length = headLength flags := by
  unfold segmentHead headLength
  split <;> simp [length_u64]

theorem encodeSegment_eq :
    encodeSegment flags transferId data = segmentHead flags transferId ++ (u64 data.length ++ data) := by
  simp only [encodeSegment, segmentHead, List.append_assoc]

theorem length_encodeSegment :
    (encodeSegment flags transferId data).length = headLength flags + 8 + data.length := by
  rw [encodeSegment_eq, List.length_append, List.length_append, length_segmentHead, length_u64]
  omega

theorem ten_le_headLength : 10 ≤ headLength flags := by
  unfold headLength
  split <;> omega

/-- The flags and the place of the data length, in a buffer that has them. -/
theorem segmentOffset_front {p rest : Bytes}
    (hp : p <+: encodeSegment flags transferId data ++ rest) (hlen : headLength flags ≤ p.length) :
    p.getD 1 0 = flags ∧ segmentOffset p = some (headLength flags) := by
  have hten : 10 ≤ headLength flags := ten_le_headLength
  have hflags : p.getD 1 0 = flags := by
    rw [getD_front hp (by omega)]
    rfl
  refine ⟨hflags, ?_⟩
  unfold segmentOffset headLength at *
  rw [hflags]
  cases hstart : hasBit flags SEG.START with
  | true =>
      rw [hstart, if_pos rfl] at hlen
      have hext : readBE p 10 4 = 0 := by
        rw [readBE_front hp (by omega)]
        refine @readBE_at _ (u64 data.length ++ (data ++ rest)) _ _ _
          ([MSG.XFER_SEGMENT, flags] ++ u64 transferId) ?_ (by simp [length_u64]) (by norm_num)
        have hzero : (List.replicate 4 0 : Bytes) = beBytes 4 0 := by decide
        simp only [encodeSegment, hstart, if_true, hzero, List.append_assoc]
      rw [if_pos rfl, if_pos rfl, if_neg (by omega), hext]
  | false => rfl

/-- The data length of a segment, in a buffer that has it. -/
theorem readBE_dataLength (h : data.length < 256 ^ 8) {p rest : Bytes}
    (hp : p <+: encodeSegment flags transferId data ++ rest)
    (hlen : headLength flags + 8 ≤ p.length) :
    readBE p (headLength flags) 8 = data.length := by
  rw [readBE_front hp hlen]
  refine @readBE_at _ (data ++ rest) _ _ _ (segmentHead flags transferId) ?_ length_segmentHead h
  rw [encodeSegment_eq, List.append_assoc, List.append_assoc, u64]

theorem parseSegment_whole (h : (Message.segment flags transferId data).Fits maxSegment)
    (rest : Bytes) :
    parseSegment maxSegment (encodeSegment flags transferId data ++ rest)
      = some (.segment flags transferId data, rest) := by
  obtain ⟨hid, hmax, hdata⟩ := h
  have hall := @length_encodeSegment flags transferId data
  have hten : 10 ≤ headLength flags := ten_le_headLength
  have hlong : (encodeSegment flags transferId data ++ rest).length
      = headLength flags + 8 + data.length + rest.length := by
    rw [List.length_append, hall]
  obtain ⟨hflags, hoff⟩ := segmentOffset_front
    (List.prefix_refl (encodeSegment flags transferId data ++ rest)) (by omega)
  have hlen : readBE (encodeSegment flags transferId data ++ rest) (headLength flags) 8
      = data.length := readBE_dataLength hdata (List.prefix_refl _) (by omega)
  have hkey : readBE (encodeSegment flags transferId data ++ rest) 2 8 = transferId := by
    refine @readBE_at _ ((if hasBit flags SEG.START then List.replicate 4 0 else []) ++
      (u64 data.length ++ (data ++ rest))) _ _ _ [MSG.XFER_SEGMENT, flags] ?_ rfl hid
    simp only [encodeSegment, List.append_assoc, u64]
  have hslice : slice (encodeSegment flags transferId data ++ rest) (headLength flags + 8) data.length
      = data := by
    refine @slice_at _ _ rest _ _ (segmentHead flags transferId ++ u64 data.length) ?_ ?_ rfl
    · simp only [encodeSegment_eq, List.append_assoc]
    · rw [List.length_append, length_segmentHead, length_u64]
  simp only [parseSegment, hoff, hlen, hkey, hslice, hflags]
  rw [if_neg (by omega), if_neg (by omega), if_neg (by omega), if_neg (by omega), ← hall,
    List.drop_left]

theorem parseSegment_short (h : (Message.segment flags transferId data).Fits maxSegment) {p : Bytes}
    (hp : p <+: encodeSegment flags transferId data)
    (hlen : p.length < (encodeSegment flags transferId data).length) :
    parseSegment maxSegment p = none := by
  obtain ⟨-, hmax, hdata⟩ := h
  rw [length_encodeSegment] at hlen
  rw [← List.append_nil (encodeSegment flags transferId data)] at hp
  by_cases hten : p.length < 10
  · simp only [parseSegment, hten, if_true]
  by_cases hhead : p.length < headLength flags
  · -- Only a first segment is longer before its data length, by the length of its extensions.
    have hflags : p.getD 1 0 = flags := by
      rw [getD_front hp (by omega)]
      rfl
    have hoff : segmentOffset p = none := by
      unfold headLength at hhead
      unfold segmentOffset
      rw [hflags]
      split at hhead
      · rename_i hstart
        rw [hstart, if_pos rfl, if_pos hhead]
      · omega
    simp only [parseSegment, hten, if_false, hoff]
  · have hoff := (segmentOffset_front hp (by omega)).2
    by_cases hfield : p.length < headLength flags + 8
    · simp only [parseSegment, hten, if_false, hoff, hfield, if_true]
    · have hread := readBE_dataLength hdata hp (by omega)
      simp only [parseSegment, hten, if_false, hoff, hfield, hread]
      rw [if_neg (by omega), if_pos (by omega)]

end Segment

/-! ## All messages -/

/-- A prefix of a message has its type, if it has anything. -/
theorem head_of_front {type : UInt8} {rest p : Bytes} (hp : p <+: type :: rest) :
    p = [] ∨ ∃ more, p = type :: more := by
  cases p with
  | nil => exact .inl rfl
  | cons c more => exact .inr ⟨more, by rw [(List.cons_prefix_cons.mp hp).1]⟩

theorem parseMessage_sessInit {keepalive segmentMru transferMru maxSegment : Nat} {nodeId : JsString}
    {p : Bytes} (hp : p <+: encodeSessInit keepalive segmentMru transferMru nodeId ∨
      encodeSessInit keepalive segmentMru transferMru nodeId <+: p) :
    parseMessage maxSegment p = if p = [] then none else parseSessInit p := by
  cases p with
  | nil => rfl
  | cons c more =>
      have hc : c = MSG.SESS_INIT := by
        rcases hp with hp | hp
        · exact (List.cons_prefix_cons.mp hp).1
        · exact (List.cons_prefix_cons.mp hp).1.symm
      simp only [parseMessage, hc, if_true, reduceCtorEq, if_false]

theorem parseMessage_segment {flags : UInt8} {transferId maxSegment : Nat} {data p : Bytes}
    (hp : p <+: encodeSegment flags transferId data ∨ encodeSegment flags transferId data <+: p) :
    parseMessage maxSegment p = if p = [] then none else parseSegment maxSegment p := by
  cases p with
  | nil => rfl
  | cons c more =>
      have hc : c = MSG.XFER_SEGMENT := by
        rcases hp with hp | hp
        · exact (List.cons_prefix_cons.mp hp).1
        · exact (List.cons_prefix_cons.mp hp).1.symm
      have hne : MSG.XFER_SEGMENT ≠ MSG.SESS_INIT := by decide
      simp only [parseMessage, hc, hne, if_true, reduceCtorEq, if_false]

/-- The bytes of an ack behind its type, read back. -/
theorem fields_ack {flags : UInt8} {transferId acked : Nat} (hid : transferId < 256 ^ 8)
    (hacked : acked < 256 ^ 8) (rest : Bytes) :
    readBE (encodeAck flags transferId acked ++ rest) 2 8 = transferId ∧
      readBE (encodeAck flags transferId acked ++ rest) 10 8 = acked := by
  constructor
  · refine @readBE_at _ (u64 acked ++ rest) _ _ _ [MSG.XFER_ACK, flags] ?_ rfl hid
    simp only [encodeAck, List.append_assoc, u64]
  · refine @readBE_at _ rest _ _ _ ([MSG.XFER_ACK, flags] ++ u64 transferId) ?_ ?_ hacked
    · simp only [encodeAck, List.append_assoc, u64]
    · rw [List.length_append, length_u64]
      rfl

/-- **A message is found whole or waited for.** -/
theorem framed_message (maxSegment : Nat) :
    Framed (Message.Fits maxSegment) Message.bytes (parseMessage maxSegment) where
  nil := rfl
  whole := by
    intro m hm rest
    cases m with
    | sess_init keepalive segmentMru transferMru nodeId =>
        show parseMessage maxSegment
          (encodeSessInit keepalive segmentMru transferMru nodeId ++ rest) = _
        rw [parseMessage_sessInit (.inr (List.prefix_append _ _)), if_neg, parseSessInit_whole hm]
        simp [encodeSessInit]
    | segment flags transferId data =>
        show parseMessage maxSegment (encodeSegment flags transferId data ++ rest) = _
        rw [parseMessage_segment (.inr (List.prefix_append _ _)), if_neg, parseSegment_whole hm]
        simp [encodeSegment]
    | ack flags transferId acked =>
        obtain ⟨hkey, hacked⟩ := @fields_ack flags _ _ hm.1 hm.2 rest
        have hall : (encodeAck flags transferId acked).length = 18 := by
          simp [encodeAck, length_u64]
        have hlen : ¬ (encodeAck flags transferId acked ++ rest).length < 18 := by
          rw [List.length_append, hall]
          omega
        show parseMessage maxSegment (encodeAck flags transferId acked ++ rest) = _
        show (if (encodeAck flags transferId acked ++ rest).length < 18 then none
          else some (Message.ack flags (readBE (encodeAck flags transferId acked ++ rest) 2 8)
            (readBE (encodeAck flags transferId acked ++ rest) 10 8),
            (encodeAck flags transferId acked ++ rest).drop 18)) = _
        rw [if_neg hlen, hkey, hacked, ← hall, List.drop_left]
    | refuse reason transferId =>
        have hkey : readBE ([MSG.XFER_REFUSE, reason] ++ u64 transferId ++ rest) 2 8 = transferId := by
          refine @readBE_at _ rest _ _ _ [MSG.XFER_REFUSE, reason] ?_ rfl hm
          rw [List.append_assoc, u64]
        have hall : ([MSG.XFER_REFUSE, reason] ++ u64 transferId).length = 10 := by
          simp [length_u64]
        have hlen : ¬ ([MSG.XFER_REFUSE, reason] ++ u64 transferId ++ rest).length < 10 := by
          rw [List.length_append, hall]
          omega
        show (if ([MSG.XFER_REFUSE, reason] ++ u64 transferId ++ rest).length < 10 then none
          else some (Message.refuse reason
            (readBE ([MSG.XFER_REFUSE, reason] ++ u64 transferId ++ rest) 2 8),
            ([MSG.XFER_REFUSE, reason] ++ u64 transferId ++ rest).drop 10)) = _
        rw [if_neg hlen, hkey, ← hall, List.drop_left]
    | keepalive => rfl
    | sess_term flags reason => rfl
    | reject reason header => rfl
    | bad_magic => exact hm.elim
    | contact version flags => exact hm.elim
    | too_big what len => exact hm.elim
    | unknown type => exact hm.elim
  short := by
    intro m hm p hp hlen
    cases m with
    | sess_init keepalive segmentMru transferMru nodeId =>
        rw [parseMessage_sessInit (.inl hp), parseSessInit_short hm hp hlen, ite_self]
    | segment flags transferId data =>
        rw [parseMessage_segment (.inl hp), parseSegment_short hm hp hlen, ite_self]
    | ack flags transferId acked =>
        have hall : (encodeAck flags transferId acked).length = 18 := by
          simp [encodeAck, length_u64]
        have hshort : p.length < 18 := hall ▸ hlen
        rcases head_of_front hp with rfl | ⟨more, rfl⟩
        · rfl
        · show (if _ then none else _) = none
          rw [if_pos hshort]
    | refuse reason transferId =>
        have hall : ([MSG.XFER_REFUSE, reason] ++ u64 transferId).length = 10 := by
          simp [length_u64]
        have hshort : p.length < 10 := hall ▸ hlen
        rcases head_of_front hp with rfl | ⟨more, rfl⟩
        · rfl
        · show (if _ then none else _) = none
          rw [if_pos hshort]
    | keepalive =>
        have hnil : p = [] := List.eq_nil_of_length_eq_zero (Nat.lt_one_iff.mp hlen)
        rw [hnil]
        rfl
    | sess_term flags reason =>
        have hshort : p.length < 3 := hlen
        rcases head_of_front hp with rfl | ⟨more, rfl⟩
        · rfl
        · show (if _ then none else _) = none
          rw [if_pos hshort]
    | reject reason header =>
        have hshort : p.length < 3 := hlen
        rcases head_of_front hp with rfl | ⟨more, rfl⟩
        · rfl
        · show (if _ then none else _) = none
          rw [if_pos hshort]
    | bad_magic => exact hm.elim
    | contact version flags => exact hm.elim
    | too_big what len => exact hm.elim
    | unknown type => exact hm.elim

end Tcpcl4

end DtnCustody
