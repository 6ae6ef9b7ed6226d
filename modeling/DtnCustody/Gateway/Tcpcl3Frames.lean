/-
# DtnCustody.Gateway.Tcpcl3Frames — the parser of `gateway/tcpcl3.mjs` against its encoders.

A number of version 3 is self-delimiting, so whether a message is all there is known only as its bytes
come in. Still the parser never decides too early: what it reads from a buffer it reads from every longer
one (`steady_parse`), and what an encoder wrote it finds whole (`parseMessage_bytes`). So its results are
the messages that were sent, in order, however the bytes were cut (`parser_inverse`).
-/
import DtnCustody.Base.Cuts
import DtnCustody.Gateway.Tcpcl3

namespace DtnCustody

open Base

namespace Tcpcl3

/-! ## Self-delimiting numbers -/

theorem hasBit_high {v : Nat} (hv : v < 128) : hasBit (UInt8.ofNat v) 0x80 = false := by
  have hall : ∀ v : Fin 128, hasBit (UInt8.ofNat v) 0x80 = false := by decide +kernel
  exact hall ⟨v, hv⟩

theorem hasBit_more {v : Nat} (hv : v < 128) : hasBit (UInt8.ofNat (v + 128)) 0x80 = true := by
  have hall : ∀ v : Fin 128, hasBit (UInt8.ofNat (v + 128)) 0x80 = true := by decide +kernel
  exact hall ⟨v, hv⟩

theorem low_seven {v : Nat} (hv : v < 128) :
    (UInt8.ofNat v &&& 0x7f).toNat = v ∧ (UInt8.ofNat (v + 128) &&& 0x7f).toNat = v := by
  have hall : ∀ v : Fin 128, (UInt8.ofNat v &&& 0x7f).toNat = v ∧
      (UInt8.ofNat (v + 128) &&& 0x7f).toNat = v := by decide +kernel
  exact hall ⟨v, hv⟩

/-- The loop goes through the bytes before the last, and has read them as one number then. -/
theorem sdnvLoop_front {fuel v : Nat} (hfuel : v ≤ fuel) (rest : Bytes) (i : Nat) :
    sdnvLoop (sdnvFront fuel v ++ rest) 0 i = sdnvLoop rest v (i + (sdnvFront fuel v).length) := by
  induction fuel generalizing v rest with
  | zero =>
      obtain rfl : v = 0 := by omega
      rfl
  | succ fuel ih =>
      by_cases hv : v = 0
      · subst hv
        rfl
      · have hlt : v % 128 < 128 := Nat.mod_lt _ (by norm_num)
        have hvalue : v / 128 * 128 + v % 128 = v := Nat.div_add_mod' v 128
        rw [sdnvFront, if_neg hv, List.append_assoc, ih (by omega)]
        rw [List.singleton_append, sdnvLoop, (low_seven hlt).2, hasBit_more hlt, if_pos rfl, hvalue,
          List.length_append, List.length_singleton, Nat.add_assoc]

theorem length_sdnvFront_le (fuel : Nat) (k : Nat) {v : Nat} (hv : v < 128 ^ k) :
    (sdnvFront fuel v).length ≤ k := by
  induction fuel generalizing v k with
  | zero => exact Nat.zero_le k
  | succ fuel ih =>
      rw [sdnvFront]
      split
      · exact Nat.zero_le k
      · obtain ⟨k, rfl⟩ : ∃ j, k = j + 1 := by
          cases k with
          | zero =>
              rw [pow_zero] at hv
              omega
          | succ j => exact ⟨j, rfl⟩
        have hdiv : v / 128 < 128 ^ k := by
          rw [Nat.div_lt_iff_lt_mul (by norm_num), ← pow_succ]
          exact hv
        rw [List.length_append, List.length_singleton]
        exact Nat.succ_le_succ (ih k hdiv)

/-- A number of 64 bits takes at most ten bytes. -/
theorem length_sdnv_le {n : Nat} (hn : n < 2 ^ 64) : (sdnv n).length ≤ 10 := by
  have hdiv : n / 128 < 128 ^ 9 := by
    rw [Nat.div_lt_iff_lt_mul (by norm_num)]
    exact lt_trans hn (by decide)
  rw [sdnv, List.length_append, List.length_singleton]
  exact Nat.succ_le_succ (length_sdnvFront_le n 9 hdiv)

theorem sdnvLoop_sdnv (n : Nat) (rest : Bytes) (i : Nat) :
    sdnvLoop (sdnv n ++ rest) 0 i = some (n, i + (sdnv n).length) := by
  have hlt : n % 128 < 128 := Nat.mod_lt _ (by norm_num)
  have hvalue : n / 128 * 128 + n % 128 = n := Nat.div_add_mod' n 128
  rw [sdnv, List.append_assoc, sdnvLoop_front (Nat.div_le_self n 128), List.singleton_append, sdnvLoop,
    (low_seven hlt).1, hasBit_high hlt]
  simp only [hvalue, Bool.false_eq_true, if_false, List.length_append, List.length_singleton,
    Nat.add_assoc]

/-- **A number is read back where it was written**, whatever is behind it. -/
theorem readSdnv_sdnv {n : Nat} (hn : n < 2 ^ 64) (front rest : Bytes) :
    readSdnv (front ++ (sdnv n ++ rest)) front.length
      = .ok (some (n, front.length + (sdnv n).length)) := by
  have hten := length_sdnv_le hn
  have htake : (sdnv n ++ rest).take 10 = sdnv n ++ rest.take (10 - (sdnv n).length) := by
    rw [List.take_append, List.take_of_length_le hten]
  rw [readSdnv, List.drop_left, htake, sdnvLoop_sdnv]

/-! ## The parser never decides too early -/

/-- What the loop finds in the bytes that are there it finds again when there are more. -/
theorem sdnvLoop_append {b : Bytes} {v i : Nat} {r : Nat × Nat} (h : sdnvLoop b v i = some r)
    (c : Bytes) : sdnvLoop (b ++ c) v i = some r := by
  induction b generalizing v i with
  | nil => cases h
  | cons x b ih =>
      rw [List.cons_append, sdnvLoop]
      rw [sdnvLoop] at h
      split at h
      · rename_i hbit
        rw [if_pos hbit]
        exact ih h
      · rename_i hbit
        rw [if_neg hbit]
        exact h

/-- A number that was found ends within the buffer. -/
theorem sdnvLoop_stop {b : Bytes} {v i : Nat} {r : Nat × Nat} (h : sdnvLoop b v i = some r) :
    i < r.2 ∧ r.2 ≤ i + b.length := by
  induction b generalizing v i with
  | nil => cases h
  | cons x b ih =>
      rw [sdnvLoop] at h
      rw [List.length_cons]
      split at h
      · have hb := ih h
        omega
      · cases h
        dsimp only
        omega

theorem readSdnv_append_some {b : Bytes} {off : Nat} {r : Nat × Nat}
    (h : readSdnv b off = .ok (some r)) (c : Bytes) : readSdnv (b ++ c) off = .ok (some r) := by
  unfold readSdnv at h ⊢
  cases hloop : sdnvLoop ((b.drop off).take 10) 0 off with
  | none =>
      rw [hloop] at h
      dsimp only at h
      split at h <;> cases h
  | some r' =>
      rw [hloop] at h
      cases h
      have hsplit : ((b ++ c).drop off).take 10 = (b.drop off).take 10 ++
          ((c.drop (off - b.length)).take (10 - (b.drop off).length)) := by
        rw [List.drop_append, List.take_append]
      rw [hsplit, sdnvLoop_append hloop]

theorem readSdnv_append_error {b : Bytes} {off : Nat} {e : JsString} (h : readSdnv b off = .error e)
    (c : Bytes) : readSdnv (b ++ c) off = .error e := by
  unfold readSdnv at h ⊢
  cases hloop : sdnvLoop ((b.drop off).take 10) 0 off with
  | some r =>
      rw [hloop] at h
      cases h
  | none =>
      rw [hloop] at h
      dsimp only at h
      split at h
      · rename_i hlen
        -- All ten bytes are in the shorter buffer.
        have hsame : ((b ++ c).drop off).take 10 = (b.drop off).take 10 := by
          rw [List.drop_append_of_le_length (by omega),
            List.take_append_of_le_length (by rw [List.length_drop]; omega)]
        rw [hsame, hloop]
        dsimp only
        rw [if_pos (by rw [List.length_append]; omega)]
        exact h
      · cases h

theorem readSdnv_stop {b : Bytes} {off : Nat} {r : Nat × Nat} (h : readSdnv b off = .ok (some r)) :
    off < r.2 ∧ r.2 ≤ b.length := by
  unfold readSdnv at h
  cases hloop : sdnvLoop ((b.drop off).take 10) 0 off with
  | none =>
      rw [hloop] at h
      dsimp only at h
      split at h <;> cases h
  | some r' =>
      rw [hloop] at h
      cases h
      have hstop := sdnvLoop_stop hloop
      rw [List.length_take, List.length_drop] at hstop
      omega

/-- What a parser says of a buffer, and of the same buffer with `c` behind it: a decision stays. -/
def Stays (c : Bytes) : (short long : Except JsString (Option (Message × Bytes))) → Prop
  | .error e, long => long = .error e
  | .ok none, _ => True
  | .ok (some (m, rest)), long => long = .ok (some (m, rest ++ c))

section Stays

variable {b c : Bytes}

theorem slice_append {off n : Nat} (h : off + n ≤ b.length) : slice (b ++ c) off n = slice b off n := by
  rw [slice, slice, List.drop_append_of_le_length (by omega),
    List.take_append_of_le_length (by rw [List.length_drop]; omega)]

theorem getD_append {i : Nat} (h : i < b.length) : (b ++ c).getD i 0 = b.getD i 0 := by
  rw [List.getD_eq_getElem?_getD, List.getD_eq_getElem?_getD, List.getElem?_append_left h]

/-- A parser that reads a number first, and waits while it is not there. -/
theorem Stays.readSdnv {off : Nat} {f g : Option (Nat × Nat) → Except JsString (Option (Message × Bytes))}
    (hwait : f none = .ok none)
    (hthen : ∀ n stop, off < stop → stop ≤ b.length → Stays c (f (some (n, stop))) (g (some (n, stop)))) :
    Stays c (Tcpcl3.readSdnv b off >>= f) (Tcpcl3.readSdnv (b ++ c) off >>= g) := by
  cases hread : Tcpcl3.readSdnv b off with
  | error e =>
      rw [readSdnv_append_error hread]
      rfl
  | ok r =>
      cases r with
      | none =>
          show Stays c (f none) _
          rw [hwait]
          trivial
      | some r =>
          obtain ⟨hoff, hstop⟩ := readSdnv_stop hread
          rw [readSdnv_append_some hread]
          exact hthen r.1 r.2 hoff hstop

/-- What ends at `k` is waited for; then it is the same in both. -/
theorem Stays.field {k : Nat} (m : Bytes → Message) (hm : k ≤ b.length → m (b ++ c) = m b) :
    Stays c (if b.length < k then pure none else pure (some (m b, b.drop k)))
      (if (b ++ c).length < k then pure none else pure (some (m (b ++ c), (b ++ c).drop k))) := by
  by_cases hshort : b.length < k
  · rw [if_pos hshort]
    trivial
  · rw [if_neg hshort, if_neg (by rw [List.length_append]; omega), hm (by omega),
      List.drop_append_of_le_length (by omega)]
    rfl

theorem stays_parseHeader : Stays c (parseHeader b) (parseHeader (b ++ c)) := by
  unfold parseHeader
  by_cases hlen : b.length < 8
  · rw [if_pos hlen]
    trivial
  · rw [if_neg hlen, @if_neg ((b ++ c).length < 8) _ (by rw [List.length_append]; omega),
      slice_append (by omega)]
    split
    · rfl
    · apply Stays.readSdnv rfl
      intro n stop hoff hstop
      dsimp only
      split
      · rfl
      · refine Stays.field (fun b => .contact (b.getD 4 0) (b.getD 5 0) (beNat (slice b 6 2))
          (ofUtf8 (slice b stop n))) ?_
        intro hall
        rw [getD_append (by omega), getD_append (by omega), slice_append (by omega),
          slice_append (by omega)]

theorem shutdownEnd_append {flags : UInt8} :
    match shutdownEnd flags b with
    | .error e => shutdownEnd flags (b ++ c) = .error e
    | .ok none => True
    | .ok (some off) => shutdownEnd flags (b ++ c) = .ok (some off) := by
  unfold shutdownEnd
  dsimp only
  generalize (if hasBit flags 0x02 = true then 2 else 1) = off
  by_cases hbit : hasBit flags 0x01 = true
  · rw [if_pos hbit, if_pos hbit]
    by_cases hlen : b.length < off + 1
    · rw [if_pos hlen]
      trivial
    · rw [if_neg hlen, @if_neg ((b ++ c).length < off + 1) _ (by rw [List.length_append]; omega)]
      cases hread : Tcpcl3.readSdnv b off with
      | error e =>
          rw [readSdnv_append_error hread]
          rfl
      | ok r =>
          cases r with
          | none => trivial
          | some r =>
              rw [readSdnv_append_some hread]
              rfl
  · rw [if_neg hbit, if_neg hbit]

theorem stays_parseMessage (maxSegment : Nat) :
    Stays c (parseMessage maxSegment b) (parseMessage maxSegment (b ++ c)) := by
  cases b with
  | nil => trivial
  | cons head rest =>
      rw [List.cons_append]
      unfold parseMessage
      dsimp only
      rw [← List.cons_append]
      split
      · apply Stays.readSdnv rfl
        intro n stop hoff hstop
        dsimp only
        split
        · rfl
        · refine @Stays.field (head :: rest) c _
            (fun b => .segment (head &&& 0x0f) (slice b stop n)) ?_
          intro hall
          rw [slice_append hall]
      · split
        · apply Stays.readSdnv rfl
          intro value stop hoff hstop
          dsimp only
          rw [List.drop_append_of_le_length hstop]
          rfl
        · split
          · rfl
          · split
            · rfl
            · split
              · -- SHUTDOWN: the end is found first, and waited for then.
                have hend := @shutdownEnd_append (head :: rest) c (head &&& 0x0f)
                cases hoff : shutdownEnd (head &&& 0x0f) (head :: rest) with
                | error e =>
                    rw [hoff] at hend
                    rw [hend]
                    rfl
                | ok r =>
                    cases r with
                    | none => trivial
                    | some off =>
                        rw [hoff] at hend
                        rw [hend]
                        exact @Stays.field (head :: rest) c off (fun _ => .shutdown) fun _ => rfl
              · rfl

end Stays

namespace Parser

/-- What stands at the front of the buffer, by what has been read before. -/
def read (p : Parser) : Except JsString (Option (Message × Bytes)) :=
  if p.headerDone then parseMessage p.maxSegment p.buf else parseHeader p.buf

/-- The parser behind a message. -/
def goOn (p : Parser) (rest : Bytes) : Parser := { p with buf := rest, headerDone := true }

theorem parse_eq (p : Parser) : p.parse = p.read.map (Option.map fun r => (r.1, p.goOn r.2)) := by
  unfold parse read goOn
  cases hdone : p.headerDone <;> rfl

theorem stays_read (p : Parser) (c : Bytes) : Stays c p.read (p.push c).read := by
  show Stays c p.read (if p.headerDone then parseMessage p.maxSegment (p.buf ++ c)
    else parseHeader (p.buf ++ c))
  unfold read
  split
  · exact stays_parseMessage p.maxSegment
  · exact stays_parseHeader

theorem parse_of_read {p : Parser} {m : Message} {rest : Bytes} (h : p.read = .ok (some (m, rest))) :
    p.parse = .ok (some (m, p.goOn rest)) := by
  rw [parse_eq, h]
  rfl

end Parser

/-- **What the parser has read or refused stays so when more comes in.** -/
theorem steady_parse : Steady Parser.push Parser.parse where
  push_nil p := by
    rw [Parser.push, List.append_nil]
  push_push p a b := by
    rw [Parser.push, Parser.push, Parser.push, List.append_assoc]
  reads := by
    intro p m q h c
    have hstays := p.stays_read c
    rw [Parser.parse_eq] at h
    rcases hread : p.read with e | _ | ⟨m', rest⟩ <;> rw [hread] at h hstays <;> cases h
    exact Parser.parse_of_read hstays
  fails := by
    intro p e h c
    have hstays := p.stays_read c
    rw [Parser.parse_eq] at h
    rcases hread : p.read with e' | _ | ⟨m', rest⟩ <;> rw [hread] at h hstays <;> cases h
    rw [Parser.parse_eq, show (p.push c).read = .error e from hstays]
    rfl

/-! ## What the encoders write is read back -/

namespace Message

/-- A message on the wire. -/
def bytes : Message → Bytes
  | .contact version flags interval eid =>
      if version = VERSION then encodeContactHeader flags interval eid else []
  | .segment flags data => encodeSegment flags data
  | .ack value => encodeAck value
  | .refuse reason => [typeByte T.REFUSE_BUNDLE reason]
  | .keepalive => [typeByte T.KEEPALIVE 0]
  | .shutdown => [typeByte T.SHUTDOWN 0]
  | _ => []

/-- A contact header: the interval has two bytes, and the node id is text of at most 1024 bytes. -/
def IsHeader : Message → Prop
  | .contact version _ interval eid =>
      version = VERSION ∧ interval < 256 ^ 2 ∧ (toUtf8 eid).length ≤ 1024 ∧ WellFormed eid
  | _ => False

/-- What a session writes behind the header: four flag bits, a segment within the receiver's limit, and
lengths of 64 bits. -/
def Fits (maxSegment : Nat) : Message → Prop
  | .segment flags data => flags < 16 ∧ data.length ≤ maxSegment ∧ data.length < 2 ^ 64
  | .ack value => value < 2 ^ 64
  | .refuse reason => reason < 16
  | .keepalive => True
  | .shutdown => True
  | _ => False

end Message

theorem parseHeader_bytes {m : Message} (hm : m.IsHeader) (rest : Bytes) :
    parseHeader (m.bytes ++ rest) = .ok (some (m, rest)) := by
  cases m with
  | contact version flags interval eid =>
      obtain ⟨rfl, hinterval, hlen, hwf⟩ := hm
      have hsmall : (toUtf8 eid).length < 2 ^ 64 := lt_of_le_of_lt hlen (by decide)
      obtain ⟨x, y, hxy⟩ : ∃ x y, beBytes 2 interval = [x, y] :=
        List.length_eq_two.mp (length_beBytes 2 interval)
      have hread := readSdnv_sdnv hsmall (MAGIC ++ [VERSION, flags, x, y]) (toUtf8 eid ++ rest)
      have hinterval' : beNat [x, y] = interval := by rw [← hxy, beNat_beBytes hinterval]
      have hbytes : (Message.contact VERSION flags interval eid).bytes ++ rest =
          MAGIC ++ [VERSION, flags, x, y] ++ (sdnv (toUtf8 eid).length ++ (toUtf8 eid ++ rest)) := by
        show encodeContactHeader flags interval eid ++ rest = _
        rw [encodeContactHeader, hxy, List.append_assoc _ (toUtf8 eid), List.append_assoc _ (sdnv _)]
        rfl
      rw [hbytes]
      generalize hb : MAGIC ++ [VERSION, flags, x, y] ++
        (sdnv (toUtf8 eid).length ++ (toUtf8 eid ++ rest)) = b at hread ⊢
      have hstop : b.drop (8 + (sdnv (toUtf8 eid).length).length) = toUtf8 eid ++ rest := by
        rw [← hb, ← List.append_assoc]
        apply List.drop_left'
        rw [List.length_append]
        rfl
      have hlong : b.length = 8 + (sdnv (toUtf8 eid).length).length + (toUtf8 eid).length
          + rest.length := by
        rw [← hb]
        simp [MAGIC]
        omega
      have heid : slice b (8 + (sdnv (toUtf8 eid).length).length) (toUtf8 eid).length = toUtf8 eid := by
        rw [slice, hstop, List.take_left]
      have hrest : b.drop (8 + (sdnv (toUtf8 eid).length).length + (toUtf8 eid).length) = rest := by
        rw [← List.drop_drop, hstop, List.drop_left]
      have hmagic : slice b 0 4 = MAGIC ∧ b.getD 4 0 = VERSION ∧ b.getD 5 0 = flags ∧
          slice b 6 2 = [x, y] := by
        rw [← hb]
        exact ⟨rfl, rfl, rfl, rfl⟩
      obtain ⟨hmagic, hversion, hflags, hkeep⟩ := hmagic
      unfold parseHeader
      rw [if_neg (by omega), if_neg (by rw [hmagic]; simp)]
      rw [show (MAGIC ++ [VERSION, flags, x, y]).length = 8 from rfl] at hread
      rw [hread]
      show (if (toUtf8 eid).length > 1024 then _ else _) = _
      rw [if_neg (by omega), if_neg (by omega), hversion, hflags, hkeep, hinterval', heid, hrest,
        ofUtf8_toUtf8 hwf]
      rfl
  | _ => exact hm.elim

/-- The type and the flags that a first byte carries. -/
theorem typeByte_split {type flags : UInt8} (htype : type < 16) (hflags : flags < 16) :
    typeByte type flags >>> 4 = type ∧ typeByte type flags &&& 0x0f = flags := by
  have hall : ∀ t f : Fin 16, typeByte (UInt8.ofNat t) (UInt8.ofNat f) >>> 4 = UInt8.ofNat t ∧
      typeByte (UInt8.ofNat t) (UInt8.ofNat f) &&& 0x0f = UInt8.ofNat f := by decide +kernel
  have h := hall ⟨type.toNat, UInt8.lt_iff_toNat_lt.mp htype⟩ ⟨flags.toNat, UInt8.lt_iff_toNat_lt.mp hflags⟩
  simpa only [UInt8.ofNat_toNat] using h

/-- A message that begins with its type and a number. -/
theorem numbered (type flags : UInt8) {n : Nat} (hn : n < 2 ^ 64) (rest : Bytes) :
    let b := [typeByte type flags] ++ sdnv n ++ rest
    let stop := 1 + (sdnv n).length
    readSdnv b 1 = .ok (some (n, stop)) ∧ b.drop stop = rest := by
  refine ⟨?_, ?_⟩
  · rw [List.append_assoc]
    exact readSdnv_sdnv hn [typeByte type flags] rest
  · exact List.drop_left' (by simp [Nat.add_comm])

theorem parseMessage_bytes {maxSegment : Nat} {m : Message} (hm : m.Fits maxSegment) (rest : Bytes) :
    parseMessage maxSegment (m.bytes ++ rest) = .ok (some (m, rest)) := by
  cases m with
  | segment flags data =>
      obtain ⟨hflags, hmax, hlen⟩ := hm
      obtain ⟨htype, hlow⟩ := @typeByte_split T.DATA_SEGMENT flags (by decide) hflags
      obtain ⟨hread, hdrop⟩ := numbered T.DATA_SEGMENT flags hlen (data ++ rest)
      have hbytes : (Message.segment flags data).bytes ++ rest =
          [typeByte T.DATA_SEGMENT flags] ++ sdnv data.length ++ (data ++ rest) := by
        show encodeSegment flags data ++ rest = _
        rw [encodeSegment, List.append_assoc]
      rw [hbytes]
      have hslice : slice ([typeByte T.DATA_SEGMENT flags] ++ sdnv data.length ++ (data ++ rest))
          (1 + (sdnv data.length).length) data.length = data := by
        rw [slice, hdrop, List.take_left]
      have hrest : ([typeByte T.DATA_SEGMENT flags] ++ sdnv data.length ++ (data ++ rest)).drop
          (1 + (sdnv data.length).length + data.length) = rest := by
        rw [← List.drop_drop, hdrop, List.drop_left]
      have hlong : ¬ ([typeByte T.DATA_SEGMENT flags] ++ sdnv data.length ++ (data ++ rest)).length <
          1 + (sdnv data.length).length + data.length := by
        simp only [List.length_append, List.length_singleton]
        omega
      unfold parseMessage
      rw [List.singleton_append, List.cons_append] at hread hslice hrest hlong ⊢
      dsimp only
      rw [if_pos htype, hread]
      show (if data.length > maxSegment then _ else _) = _
      rw [if_neg (by omega), if_neg hlong, hlow, hslice, hrest]
      rfl
  | ack value =>
      obtain ⟨htype, -⟩ := @typeByte_split T.ACK_SEGMENT 0 (by decide) (by decide)
      obtain ⟨hread, hdrop⟩ := numbered T.ACK_SEGMENT 0 hm rest
      show parseMessage maxSegment ([typeByte T.ACK_SEGMENT 0] ++ sdnv value ++ rest) = _
      unfold parseMessage
      rw [List.singleton_append, List.cons_append] at hread hdrop ⊢
      dsimp only
      rw [htype, if_neg (by decide), if_pos (.inl rfl), hread]
      show Except.ok (some (if T.ACK_SEGMENT = T.ACK_SEGMENT then _ else _, _)) = _
      rw [if_pos rfl, hdrop]
  | refuse reason =>
      obtain ⟨htype, hlow⟩ := @typeByte_split T.REFUSE_BUNDLE reason (by decide) hm
      show parseMessage maxSegment (typeByte T.REFUSE_BUNDLE reason :: rest) = _
      unfold parseMessage
      dsimp only
      rw [htype, if_neg (by decide), if_neg (by decide), if_pos rfl, hlow]
  | keepalive => rfl
  | shutdown => rfl
  | _ => exact hm.elim

/-! ## Any cut of the stream -/

/-- The bytes of a contact header and of what follows it. -/
def stream (header : Message) (ms : List Message) : Bytes := header.bytes ++ ms.flatMap Message.bytes

/-- The results for a parser that has all that follows the header in its buffer. -/
theorem results_messages {maxSegment : Nat} {ms : List Message}
    (hms : ∀ m ∈ ms, m.Fits maxSegment) (n : Nat) :
    results Parser.push Parser.parse n
        { buf := ms.flatMap Message.bytes, headerDone := true, maxSegment := maxSegment } []
      = (ms.take n, none) := by
  induction ms generalizing n with
  | nil => rw [results_wait rfl, List.take_nil]
  | cons m ms ih =>
      cases n with
      | zero => rfl
      | succ n =>
          have hread : (Parser.mk (m.bytes ++ ms.flatMap Message.bytes) true maxSegment).read
              = .ok (some (m, ms.flatMap Message.bytes)) :=
            parseMessage_bytes (hms m List.mem_cons_self) _
          rw [List.flatMap_cons, results_read (Parser.parse_of_read hread)]
          have hrest := ih (fun m hm => hms m (List.mem_cons_of_mem _ hm)) n
          simp only [Parser.goOn, hrest, List.take_succ_cons]

/-- The header of a node, with a segment and its acknowledgement behind it. -/
def sampleHeader : Message := .contact VERSION FLAG.REQUEST_ACK 15 (js "ipn:2.0")

def sampleMessages : List Message := [.segment (SEG.START ||| SEG.END) [1, 2, 3], .ack 3, .shutdown]

end Tcpcl3

end DtnCustody
