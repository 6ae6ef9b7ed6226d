/-
# DtnCustody.Transport.FastStamp — `BundleReceiver` of `transport/bpv7/fast-stamp.mjs`, from the first byte to `finish`.

The bytes in front of the payload are kept until the head of the payload block is there (`Rx.scanning`). Every time
more bytes come, the blocks are read on from where reading stopped (`scan`), and a block that is cut off is left for
the next time. From the head of the payload block on the bytes go into place as they come (`Rx.filling`), as in
`DtnCustody.Transport.Receiver`.

A chunk taken in two parts leaves the receiver as the whole chunk does, or is refused as it is (`push_append`). So the
receiver does not see where the bytes are cut: what it returns or throws is decided by the bytes (`receive_cut`).
-/
import DtnCustody.Js.Sample
import DtnCustody.Transport.Receiver
import DtnCustody.Transport.ReceiptV2

namespace DtnCustody.Receiver

open Base CrcFeed Js
open DtnCustody.Bundle (crcLen checkCrc decodeEid fragmentBit expectLen)

/-! ## The head of a bundle -/

/-- `readHead`: major type and argument. An argument beyond 2^53 is rounded in the source; it is then neither 5 nor
6, and as a length it is more than can be allocated. -/
def readHead : Bytes → Outcome ((Nat × Nat) × Bytes)
  | [] => .error (.error "CBOR truncated")
  | ib :: bs =>
      let major := ib.toNat / 32
      let ai := ib.toNat % 32
      if ai < 24 then .ok ((major, ai), bs)
      else if ai = 24 then do let (b, r) ← Cbor.take 1 bs; return ((major, beNat b), r)
      else if ai = 25 then do let (b, r) ← Cbor.take 2 bs; return ((major, beNat b), r)
      else if ai = 26 then do let (b, r) ← Cbor.take 4 bs; return ((major, beNat b), r)
      else if ai = 27 then do let (b, r) ← Cbor.take 8 bs; return ((major, beNat b), r)
      else .error (.error s!"unsupported CBOR head {ib.toNat}")

/-- What of the payload block is in front of its data, and how long the data is. -/
structure Fields where
  number : Cbor
  crcType : Cbor
  length : Nat
  deriving DecidableEq, Repr

/-- The fields behind the type of a payload block of `count` elements. -/
def readFields (count : Nat) (bs : Bytes) : Outcome (Fields × Bytes) := do
  let (number, r) ← Cbor.decodeAt Cbor.maxLevels bs
  let (_, r) ← Cbor.decodeAt Cbor.maxLevels r
  let (crcType, r) ← Cbor.decodeAt Cbor.maxLevels r
  let ((major, length), r) ← readHead r
  if major ≠ 2 then .error (.error "payload block data is not a byte string")
  else if (if crcType.truthy then 6 else 5) ≠ count then
    .error (.error "payload block CRC field does not match its CRC type")
  else .ok ({ number, crcType, length }, r)

/-- The head and the type of block `n`, and the fields of it when it is the payload block. -/
def readFront (n : Nat) (bs : Bytes) : Outcome (Option Fields × Bytes) := do
  let ((major, count), r) ← readHead bs
  if major ≠ 4 ∨ (count ≠ 5 ∧ count ≠ 6) then .error (.error s!"block {n} malformed")
  else do
    let (type, r) ← Cbor.decodeAt Cbor.maxLevels r
    if type = Bundle.payloadType then do
      let (fields, r) ← readFields count r
      return (some fields, r)
    else return (none, r)

/-- What stands at the front of the bytes that have not been read. -/
inductive Found where
  | block (value : Cbor)
  | payload (fields : Fields)
  deriving DecidableEq, Repr

def readValue (bs : Bytes) : Outcome (Found × Bytes) := do
  let (value, r) ← Cbor.decodeAt Cbor.maxLevels bs
  return (.block value, r)

/-- One turn of the loop in `#scan`, behind `n` blocks. The primary block is not looked into. A block that is no
payload block is read again from its first byte. -/
def look (n : Nat) (bs : Bytes) : Outcome (Found × Bytes) :=
  if n = 0 then readValue bs
  else do
    let (front, r) ← readFront n bs
    match front with
    | some fields => return (.payload fields, r)
    | none => readValue bs

/-! ## The receiver -/

/-- A primary or extension block: from where to where it stands, and its value. -/
structure Raw where
  start : Nat
  stop : Nat
  value : Cbor
  deriving DecidableEq, Repr

/-- Where the payload block is, when its data begins at `dataStart`. -/
def planOf (start dataStart : Nat) (hstart : start ≤ dataStart) (f : Fields) : Plan where
  start := start
  dataStart := dataStart
  dataEnd := dataStart + f.length
  crcType := some f.crcType
  number := f.number
  start_le := hstart
  data_le := Nat.le_add_right _ _

/-- Before `buf` is allocated and after it. `head` and `off` are not read any more from then on. -/
inductive Rx where
  | scanning (head : Bytes) (off : Nat) (raws : List Raw)
  | filling (raws : List Raw) (p : Plan) (s : State)

def Rx.new : Rx := .scanning [] 1 []

/-- What is done with what was found at `off`, where the unread bytes of `head` begin; `limit` is the largest buffer
that can be allocated. -/
def place (limit : Nat) (head : Bytes) (off : Nat) (raws : List Raw) (taken : Nat) (f : Fields) : Outcome Rx :=
  let p := planOf off (off + taken) (Nat.le_add_right _ _) f
  if limit < p.blockEnd + 1 then .error .rangeError
  else (body p (new p) head).map fun s => .filling raws p s

/-- `#scan`. Every turn but the last takes a byte at least, so `fuel` above the number of bytes is not used up. -/
def scan (limit : Nat) (head : Bytes) : (fuel off : Nat) → List Raw → Outcome Rx
  | 0, off, raws => .ok (.scanning head off raws)
  | fuel + 1, off, raws =>
      let bs := head.drop off
      if bs = [] then .ok (.scanning head off raws)
      else if bs.head? = some 0xff then .error (.error "bundle ends before a payload block")
      else match look raws.length bs with
        | .error e => if e = Cbor.short then .ok (.scanning head off raws) else .error e
        | .ok (.payload f, r) => place limit head off raws (bs.length - r.length) f
        | .ok (.block value, r) =>
            let stop := off + (bs.length - r.length)
            scan limit head fuel stop (raws ++ [⟨off, stop, value⟩])

/-- `push`. -/
def push (limit : Nat) (x : Rx) (chunk : Bytes) : Outcome Rx :=
  match x with
  | .filling raws p s => (body p s chunk).map fun s => .filling raws p s
  | .scanning head off raws =>
      if (head ++ chunk).head? ≠ some 0x9f then .error (.error "a bundle is an indefinite-length CBOR array")
      else scan limit (head ++ chunk) ((head ++ chunk).length + 1) off raws

/-! ## What it returns -/

/-- An extension block, as `finish` returns it. -/
structure RxBlock where
  type : Cbor
  number : Cbor
  start : Nat
  stop : Nat
  data : Bytes
  deriving DecidableEq, Repr

/-- A received bundle. Of the payload it is kept where the block stands, and its number. -/
structure Received where
  bytes : Bytes
  identity : Identity
  primary : Nat × Nat
  blocks : List RxBlock
  payload : Nat × Nat × Cbor
  payloadHash : Bytes
  deriving DecidableEq, Repr

variable (N : Node)

/-- What `finish` asks of the primary block, and the identity it reads there. -/
def readIdentity (raw : Bytes) (value : Cbor) : Outcome Identity :=
  match value with
  | .array pv =>
      if pv[0]? ≠ some (.int 7) then .error (.error "not a BPv7 primary block")
      else do
        let _ ← decodeEid pv[3]?
        let _ ← decodeEid pv[5]?
        let frag ← fragmentBit N pv[1]?
        if pv.length ≠ expectLen frag pv[2]? then .error (.error "primary block has the wrong number of fields")
        else if checkCrc raw pv[2]? pv[pv.length - 1]? = false then .error (.error "primary block CRC mismatch")
        else do
          let source ← decodeEid pv[4]?
          match pv[6]? with
          | none => .error .typeError
          | some created => do
              let time ← created.index 0
              let seq ← created.index 1
              return { source, created := (time, seq), fragment := if frag = 0 then none else some (pv[8]?, pv[9]?) }
  | _ => .error (.error "not a BPv7 primary block")

/-- An extension block; `i` counts from the one behind the primary block. `#scan` has let through arrays of five or
six elements only. -/
def readBlock (buf : Bytes) (i : Nat) (r : Raw) : Outcome RxBlock :=
  match r.value with
  | .array (type :: number :: _ :: bcrc :: .bytes data :: more) =>
      if (if bcrc.truthy then 6 else 5) ≠ 5 + more.length then
        .error (.error s!"block {i + 1} CRC field does not match its CRC type")
      else if checkCrc (part buf r.start r.stop) (some bcrc) more[0]? = false then
        .error (.error ("block " ++ number.toText ++ " CRC mismatch"))
      else .ok { type, number, start := r.start, stop := r.stop, data }
  | .array _ => .error (.error s!"block {i + 1} data is not a byte string")
  | _ => .error .typeError

/-- The extension blocks, whose numbers have to be new; that of the payload block is known first. -/
def readBlocks (buf : Bytes) : (seen : List Cbor) → Nat → List Raw → Outcome (List RxBlock)
  | _, _, [] => .ok []
  | seen, i, r :: rest => do
      let x ← readBlock buf i r
      if seen.any (Cbor.sameKey · x.number) then .error (.error ("duplicate block number " ++ x.number.toText))
      else do
        let xs ← readBlocks buf (seen ++ [x.number]) (i + 1) rest
        return x :: xs

/-- `finish`. -/
def Rx.finish (x : Rx) : Outcome Received :=
  match x with
  | .scanning _ _ _ => .error (.error "bundle truncated")
  | .filling raws p s => do
      Receiver.finish p s
      match raws with
      | [] => .error .typeError
      | pr :: ext => do
          let identity ← readIdentity N (part s.buf pr.start pr.stop) pr.value
          let blocks ← readBlocks s.buf [p.number] 0 ext
          return { bytes := s.buf, identity, primary := (pr.start, pr.stop), blocks,
                   payload := (p.start, p.blockEnd, p.number), payloadHash := N.sha256 s.hashed }

/-- A bundle that comes in chunks, as `receiveBundle` takes it in. -/
def receive (limit : Nat) (chunks : List Bytes) : Outcome Received := do
  (← chunks.foldlM (push limit) Rx.new).finish N

/-! ## More bytes behind -/

theorem readHead_stable : Stable Cbor.short readHead := by
  have hwide : ∀ (n major : Nat), Stable Cbor.short fun bs =>
      (do let (b, r) ← Cbor.take n bs; return ((major, beNat b), r) : Outcome ((Nat × Nat) × Bytes)) :=
    fun n major bs c => (Cbor.take_extends (Or.inl rfl) n bs).bind fun _ _ => Extends.ok _ _
  intro bs c
  cases bs with
  | nil => exact Or.inl rfl
  | cons ib bs =>
      refine Extends.ite (Extends.ok _ _) ?_
      refine Extends.ite (hwide 1 _ bs c) ?_
      refine Extends.ite (hwide 2 _ bs c) ?_
      refine Extends.ite (hwide 4 _ bs c) ?_
      exact Extends.ite (hwide 8 _ bs c) (Extends.error _)

theorem readFields_stable (count : Nat) : Stable Cbor.short (readFields count) := by
  intro bs c
  refine (Cbor.decodeAt_stable _ bs c).bind fun number r => ?_
  refine (Cbor.decodeAt_stable _ r c).bind fun _ r => ?_
  refine (Cbor.decodeAt_stable _ r c).bind fun crcType r => ?_
  refine (readHead_stable r c).bind fun d r => ?_
  exact Extends.ite (Extends.error _) (Extends.ite (Extends.error _) (Extends.ok _ _))

theorem readFront_stable (n : Nat) : Stable Cbor.short (readFront n) := by
  intro bs c
  refine (readHead_stable bs c).bind fun d r => ?_
  refine Extends.ite (Extends.error _) ?_
  refine (Cbor.decodeAt_stable _ r c).bind fun type r => ?_
  refine Extends.ite ?_ (Extends.ok _ _)
  exact (readFields_stable _ r c).bind fun _ _ => Extends.ok _ _

theorem readValue_stable : Stable Cbor.short readValue :=
  fun bs c => (Cbor.decodeAt_stable _ bs c).bind fun _ _ => Extends.ok _ _

/-- **What is found stays found** when more bytes come. -/
theorem look_stable (n : Nat) : Stable Cbor.short (look n) := by
  intro bs c
  refine Extends.ite (readValue_stable bs c) ?_
  refine (readFront_stable n bs c).bind fun front r => ?_
  cases front with
  | some fields => exact Extends.ok _ _
  | none => exact readValue_stable bs c

/-- A block that is found is the item at the front. -/
theorem look_block {n : Nat} {bs r : Bytes} {v : Cbor} (h : look n bs = .ok (.block v, r)) :
    Cbor.decodeAt Cbor.maxLevels bs = .ok (v, r) := by
  have hvalue : readValue bs = .ok (.block v, r) → Cbor.decodeAt Cbor.maxLevels bs = .ok (v, r) := by
    intro h
    obtain ⟨p, hp, h⟩ := Outcome.bind_eq_ok.mp h
    cases h
    exact hp
  unfold look at h
  split at h
  · exact hvalue h
  · obtain ⟨⟨front, r'⟩, _, h⟩ := Outcome.bind_eq_ok.mp h
    cases front with
    | some fields => cases h
    | none => exact hvalue h

theorem look_shorter {n : Nat} {bs r : Bytes} {v : Cbor} (h : look n bs = .ok (.block v, r)) :
    r.length < bs.length := by
  obtain ⟨raw, hne, rfl⟩ := Cbor.decodeAt_consumes _ _ _ _ (look_block h)
  have hpos := List.length_pos_iff.mpr hne
  rw [List.length_append]
  omega

/-! ## The payload block in pieces -/

/-- The receiver's state when `b` has arrived. -/
def arrived (p : Plan) (b : Bytes) : State where
  buf := b
  crc := if p.crcType.isInt 0 then (new p).crc else register p (part b p.start p.crcStart)
  hashed := part b p.dataStart p.dataEnd

theorem arrived_nil (p : Plan) : arrived p [] = new p := by
  have hnil : ∀ s e : Nat, part [] s e = [] := fun s e => part_eq_nil (.inr (Nat.zero_le _))
  unfold arrived
  rw [hnil, hnil]
  show State.mk _ (if _ then (new p).crc else (new p).crc) _ = _
  rw [ite_self]
  rfl

theorem arrived_sound {p : Plan} {b : Bytes} (h : b.length ≤ p.blockEnd + 1) : Sound p (arrived p b) where
  size := h
  hashed := rfl
  crc htype := if_neg (by rw [htype]; decide)

/-- A chunk that fits. -/
theorem body_arrived {p : Plan} {b c : Bytes} (h : b.length + c.length ≤ p.blockEnd + 1) :
    body p (arrived p b) c = .ok (arrived p (b ++ c)) := by
  have hfits : ¬ (arrived p b).buf.length + c.length > p.blockEnd + 1 := Nat.not_lt.mpr h
  have hok : ∃ s, body p (arrived p b) c = .ok s := by
    unfold body
    rw [if_neg hfits]
    exact ⟨_, rfl⟩
  obtain ⟨s, hs⟩ := hok
  obtain ⟨hsound, hbuf⟩ := body_sound (arrived_sound (by omega)) hs
  have hcrc : s.crc = (arrived p (b ++ c)).crc := by
    cases htype : p.crcType.isInt 0 with
    | false =>
        rw [hsound.crc htype, hbuf]
        exact (if_neg (by rw [htype]; decide)).symm
    | true =>
        unfold body at hs
        rw [if_neg hfits] at hs
        cases hs
        show (if p.crcType.isInt 0 = true then (arrived p b).crc else _) = _
        rw [if_pos htype]
        unfold arrived
        rw [if_pos htype, if_pos htype]
  have hhashed : s.hashed = (arrived p (b ++ c)).hashed := by
    rw [hsound.hashed, hbuf]
    rfl
  rw [hs]
  cases s
  cases hbuf
  cases hcrc
  cases hhashed
  rfl

/-- Two chunks, one after the other, are as good as both at once. -/
theorem body_append (p : Plan) (b c d : Bytes) :
    body p (arrived p b) (c ++ d) = body p (arrived p b) c >>= fun s => body p s d := by
  have hover : ∀ {b c : Bytes}, p.blockEnd + 1 < b.length + c.length →
      body p (arrived p b) c = .error (.error "trailing bytes after bundle") := fun h => if_pos h
  -- either part may be the one that runs over the end of the bundle; the refusal is the same
  by_cases hc : b.length + c.length ≤ p.blockEnd + 1
  · rw [body_arrived hc, Outcome.ok_bind]
    by_cases hd : (b ++ c).length + d.length ≤ p.blockEnd + 1
    · rw [body_arrived hd, List.append_assoc]
      refine body_arrived ?_
      rw [List.length_append] at hd ⊢
      omega
    · rw [hover (Nat.lt_of_not_le hd)]
      refine hover ?_
      rw [List.length_append] at hd ⊢
      omega
  · rw [hover (Nat.lt_of_not_le hc), Outcome.error_bind]
    refine hover ?_
    rw [List.length_append]
    omega

/-! ## The whole in pieces -/

section Cut

variable {limit : Nat} {head c : Bytes}

/-- What is allocated and filled, in pieces. -/
theorem place_append {off taken : Nat} {raws : List Raw} {f : Fields} :
    place limit (head ++ c) off raws taken f = place limit head off raws taken f >>= fun x => push limit x c := by
  unfold place
  dsimp only
  split
  · rfl
  · rw [← arrived_nil, body_append]
    cases body (planOf off (off + taken) (Nat.le_add_right _ _) f) (arrived _ []) head <;> rfl

/-- **The loop ends by itself**: any fuel above the number of unread bytes gives the same answer. -/
theorem scan_fuel {fuel : Nat} : ∀ {fuel' off : Nat} {raws : List Raw}, head.length - off < fuel →
    head.length - off < fuel' → scan limit head fuel off raws = scan limit head fuel' off raws := by
  induction fuel with
  | zero => exact fun h => absurd h (Nat.not_lt_zero _)
  | succ fuel ih =>
      intro fuel' off raws hfuel hfuel'
      obtain ⟨fuel', rfl⟩ := Nat.exists_eq_succ_of_ne_zero (Nat.ne_of_gt (Nat.zero_lt_of_lt hfuel'))
      rw [scan, scan]
      refine if_congr Iff.rfl rfl (if_congr Iff.rfl rfl ?_)
      split
      · rfl
      · rfl
      · next value r hlook =>
        have hshorter := look_shorter hlook
        rw [List.length_drop] at hshorter
        exact ih (by rw [List.length_drop]; omega) (by rw [List.length_drop]; omega)

/-- What has been read is not read again when more bytes come. -/
theorem scan_append {fuel : Nat} : ∀ {fuel' off : Nat} {raws : List Raw}, head.head? = some 0x9f →
    head.length - off < fuel → (head ++ c).length - off < fuel' →
    scan limit (head ++ c) fuel' off raws = scan limit head fuel off raws >>= fun x => push limit x c := by
  induction fuel with
  | zero => exact fun _ h => absurd h (Nat.not_lt_zero _)
  | succ fuel ih =>
      intro fuel' off raws hfirst hfuel hfuel'
      -- a receiver that stopped at `off` for want of bytes goes on from there
      have hwait : scan limit (head ++ c) fuel' off raws = push limit (.scanning head off raws) c := by
        have hfirst' : (head ++ c).head? = some 0x9f := by rw [List.head?_append, hfirst, Option.some_or]
        rw [push, if_neg (not_not_intro hfirst')]
        exact scan_fuel hfuel' (by omega)
      rw [scan]
      by_cases hnil : head.drop off = []
      · rw [if_pos hnil]
        exact hwait
      · have hoff : off < head.length := by
          by_contra hge
          exact hnil (List.drop_eq_nil_of_le (Nat.le_of_not_lt hge))
        have hdrop : (head ++ c).drop off = head.drop off ++ c := List.drop_append_of_le_length hoff.le
        rw [if_neg hnil]
        by_cases hend : (head.drop off).head? = some 0xff
        · obtain ⟨fuel', rfl⟩ := Nat.exists_eq_succ_of_ne_zero (Nat.ne_of_gt (Nat.zero_lt_of_lt hfuel'))
          -- the array is closed, and more bytes do not open it again
          rw [if_pos hend, scan, hdrop, if_neg (by simp [hnil]),
            if_pos (by rw [List.head?_append, hend, Option.some_or])]
          rfl
        · rw [if_neg hend]
          obtain ⟨fuel', rfl⟩ := Nat.exists_eq_succ_of_ne_zero (Nat.ne_of_gt (Nat.zero_lt_of_lt hfuel'))
          have hnext := hwait
          rw [scan, hdrop, if_neg (by simp [hnil]), if_neg (by
            rw [List.head?_append_of_ne_nil _ hnil]
            exact hend)] at hnext ⊢
          -- what is found here is found with the bytes behind it, unless the bytes end too soon
          rcases look_stable raws.length (head.drop off) c with hshort | hmore
          · rw [hshort]
            exact hnext
          · cases hlook : look raws.length (head.drop off) with
            | error e =>
                rw [hlook] at hmore
                rw [hmore] at hnext ⊢
                change (if e = Cbor.short then _ else _) = _ at hnext
                show (if e = Cbor.short then _ else _) = ((if e = Cbor.short then _ else _) >>= _)
                by_cases he : e = Cbor.short
                · rw [if_pos he]
                  rw [if_pos he] at hnext ⊢
                  exact hnext
                · rw [if_neg he, if_neg he]
                  rfl
            | ok found =>
                obtain ⟨found, r⟩ := found
                rw [hlook] at hmore
                -- what was taken off the front has the same length, whatever stands behind
                have htaken : (head.drop off ++ c).length - (r ++ c).length = (head.drop off).length - r.length := by
                  rw [List.length_append, List.length_append]
                  omega
                rw [hmore]
                cases found with
                | payload f =>
                    show place limit (head ++ c) off raws _ f = _
                    rw [htaken]
                    exact place_append
                | block value =>
                    have hshorter := look_shorter hlook
                    rw [List.length_drop] at hshorter
                    show scan limit (head ++ c) fuel' _ _ = _
                    rw [htaken]
                    refine ih hfirst ?_ ?_
                    · rw [List.length_drop]
                      omega
                    · rw [List.length_append] at hfuel' ⊢
                      rw [List.length_drop]
                      omega

/-- What a receiver in use is like: it keeps the first byte, or the state is that of the bytes that have come. -/
def Rx.Inv : Rx → Prop
  | .scanning head _ _ => head = [] ∨ head.head? = some 0x9f
  | .filling _ p s => ∃ b, b.length ≤ p.blockEnd + 1 ∧ s = arrived p b

theorem body_inv {p : Plan} {b chunk : Bytes} {s : State} (hbody : body p (arrived p b) chunk = .ok s) :
    ∃ b', b'.length ≤ p.blockEnd + 1 ∧ s = arrived p b' := by
  by_cases h : b.length + chunk.length ≤ p.blockEnd + 1
  · rw [body_arrived h] at hbody
    cases hbody
    exact ⟨b ++ chunk, by rw [List.length_append]; exact h, rfl⟩
  · have hover : body p (arrived p b) chunk = .error (.error "trailing bytes after bundle") :=
      if_pos (Nat.lt_of_not_le h)
    rw [hover] at hbody
    cases hbody

theorem scan_inv (hfirst : head.head? = some 0x9f) {fuel : Nat} : ∀ {off : Nat} {raws : List Raw} {x : Rx},
    scan limit head fuel off raws = .ok x → x.Inv := by
  induction fuel with
  | zero =>
      intro off raws x h
      cases h
      exact Or.inr hfirst
  | succ fuel ih =>
      intro off raws x h
      rw [scan] at h
      split at h
      · cases h
        exact Or.inr hfirst
      · split at h
        · cases h
        · split at h
          · split at h
            · cases h
              exact Or.inr hfirst
            · cases h
          · next f r _ =>
            unfold place at h
            dsimp only at h
            split at h
            · cases h
            · rw [← arrived_nil] at h
              cases hbody : body (planOf off (off + ((head.drop off).length - r.length)) (Nat.le_add_right _ _) f)
                  (arrived _ []) head with
              | error e =>
                  rw [hbody] at h
                  cases h
              | ok s =>
                  rw [hbody] at h
                  cases h
                  exact body_inv hbody
          · exact ih h

theorem push_inv {x x' : Rx} (hx : x.Inv) (h : push limit x c = .ok x') : x'.Inv := by
  cases x with
  | scanning head off raws =>
      rw [push] at h
      split at h
      · cases h
      · next hfirst => exact scan_inv (not_not.mp hfirst) h
  | filling raws p s =>
      obtain ⟨b, _, rfl⟩ := hx
      cases hbody : body p (arrived p b) c with
      | error e =>
          rw [push, hbody] at h
          cases h
      | ok s =>
          rw [push, hbody] at h
          cases h
          exact body_inv hbody

/-- **A chunk in two parts** is taken as it is taken at once. -/
theorem push_append {x : Rx} (hx : x.Inv) {a : Bytes} (ha : a ≠ []) (c : Bytes) :
    push limit x (a ++ c) = push limit x a >>= fun x' => push limit x' c := by
  cases x with
  | scanning head off raws =>
      have hne : head ++ a ≠ [] := List.append_ne_nil_of_right_ne_nil _ ha
      rw [push, push, ← List.append_assoc, List.head?_append_of_ne_nil _ hne]
      split
      · rfl
      · next hfirst => exact scan_append (not_not.mp hfirst) (by omega) (by omega)
  | filling raws p s =>
      obtain ⟨b, _, rfl⟩ := hx
      rw [push, body_append, push]
      cases body p (arrived p b) a <;> rfl

end Cut

/-- **The receiver does not see where the bytes are cut.** It returns the same bundle, or throws the same error,
however they are handed over. -/
theorem receive_cut (limit : Nat) {chunks chunks' : List Bytes} (hne : ∀ c ∈ chunks, c ≠ [])
    (hne' : ∀ c ∈ chunks', c ≠ []) (hflat : chunks.flatten = chunks'.flatten) :
    receive N limit chunks = receive N limit chunks' := by
  have hwhole : ∀ {cs : List Bytes}, (∀ c ∈ cs, c ≠ []) → cs ≠ [] →
      cs.foldlM (push limit) Rx.new = push limit Rx.new cs.flatten := fun hcs hnil =>
    @foldlM_cut _ _ _ _ Rx.Inv (fun hx _ h => push_inv hx h) (fun hx ha b => push_append hx ha b) _ _ (Or.inl rfl)
      hnil hcs
  have hempty : ∀ {cs : List Bytes}, (∀ c ∈ cs, c ≠ []) → cs.flatten = [] → cs = [] := by
    intro cs hcs h
    cases cs with
    | nil => rfl
    | cons c cs => exact absurd (List.append_eq_nil_iff.mp h).1 (hcs c List.mem_cons_self)
  -- no chunk at all is not one empty chunk: `finish` is called on a receiver that nothing was pushed to
  unfold receive
  by_cases hnil : chunks = []
  · have hnil' := hempty hne' (by rw [← hflat, hnil]; rfl)
    rw [hnil, hnil']
  · have hnil' : chunks' ≠ [] := fun h => hnil (hempty hne (by rw [hflat, h]; rfl))
    rw [hwhole hne hnil, hwhole hne' hnil', hflat]

/-- A bundle without CRCs, cut in the middle of its primary block and of its payload. -/
def sampleChunks : List Bytes :=
  [[0x9f, 0x88, 0x07, 0x00, 0x00, 0x82, 0x02, 0x82, 0x01, 0x01], [0x82, 0x02, 0x82, 0x02, 0x01, 0x82, 0x01, 0x00, 0x82],
    [0x05, 0x06, 0x07, 0x85, 0x01, 0x01, 0x00, 0x00, 0x43, 0x61], [0x62, 0x63, 0xff]]

theorem sampleChunks_cut :
    receive sampleNode 4096 sampleChunks = receive sampleNode 4096 [sampleChunks.flatten] :=
  receive_cut sampleNode 4096
    (List.forall_mem_cons.mpr ⟨List.cons_ne_nil _ _, List.forall_mem_cons.mpr ⟨List.cons_ne_nil _ _,
      List.forall_mem_cons.mpr ⟨List.cons_ne_nil _ _, List.forall_mem_singleton.mpr (List.cons_ne_nil _ _)⟩⟩⟩)
    (List.forall_mem_singleton.mpr (List.cons_ne_nil _ _)) (List.append_nil _).symm

end DtnCustody.Receiver
