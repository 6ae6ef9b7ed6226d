/-
# DtnCustody.Transport.Bundle — `transport/bpv7/bundle.mjs`: reading a BPv7 bundle off the wire.

`decodeBundle` reads the indefinite-length outer array item by item, keeping for every item the
bytes it came from, then checks the primary block and the canonical blocks with their CRCs
(CRC-16/X-25 and CRC-32C, a byte at a time from a table entry).

No field of a block has a type that the decoder enforces beyond what it needs itself: the creation
timestamp is whatever item stands in its place, indexed twice. `Slot` is what such an index can
give, and `WellFormed` collects what is certain of a decoded bundle.
-/
import DtnCustody.Cbor.RoundTrip

namespace DtnCustody

open Base Js

/-! ## Indexing a decoded value -/

/-- What `v[i]` can be: `undefined`, a value, or half of a surrogate pair of a text string, which no
decoded string is. -/
inductive Slot where
  | undefined
  | val (v : Cbor)
  | half (u : UInt16)
  deriving DecidableEq, Repr

/-- One code unit of a string, as the string it is. -/
def Slot.ofUnit (u : UInt16) : Slot :=
  if isHighSurrogate u || isLowSurrogate u then .half u
  else .val (.text (String.ofList [unitScalar u]))

def Slot.ofJsVal : JsVal → Slot
  | none => .undefined
  | some v => .val v

/-- `v[i]` for a small number `i`; only `null` has no properties at all. -/
def Cbor.index (v : Cbor) (i : Nat) : Outcome Slot :=
  match v with
  | .null => .error .typeError
  | .text s =>
      match (js s)[i]? with
      | none => .ok .undefined
      | some u => .ok (.ofUnit u)
  | .bytes b => .ok (.ofJsVal (b[i]?.map fun x => .int x.toNat))
  | .array xs => .ok (.ofJsVal xs[i]?)
  | _ => .ok .undefined

/-- What `encode` makes of it: half of a surrogate pair is written as U+FFFD. -/
def Slot.toCbor : Slot → Outcome Cbor
  | .undefined => .error (.error "cannot CBOR-encode undefined")
  | .val v => .ok v
  | .half _ => .ok (.text (String.ofList [replacementChar]))

namespace Bundle

/-! ## CRCs -/

/-- One step of the bitwise division that `crcTable` repeats eight times. -/
def crcShift (poly c : UInt32) : UInt32 :=
  if c &&& 1 = 1 then (c >>> 1) ^^^ poly else c >>> 1

def crcEntry (poly i : UInt32) : UInt32 := (crcShift poly)^[8] i

def crcUpdate (poly c : UInt32) (buf : Bytes) : UInt32 :=
  buf.foldl (fun c b => (c >>> 8) ^^^ crcEntry poly ((c ^^^ b.toUInt32) &&& 0xff)) c

def crc16x25 (buf : Bytes) : UInt32 := (crcUpdate 0x8408 0xffff buf ^^^ 0xffff) &&& 0xffff

def crc32c (buf : Bytes) : UInt32 := crcUpdate 0x82f63b78 0xffffffff buf ^^^ 0xffffffff

example : crc16x25 [0x31, 0x32, 0x33, 0x34, 0x35, 0x36, 0x37, 0x38, 0x39] = 0x906e := by decide

example : crc32c [0x31, 0x32, 0x33, 0x34, 0x35, 0x36, 0x37, 0x38, 0x39] = 0xe3069283 := by decide

/-- A CRC type that is neither 1 nor 2 has no bytes. -/
def crcLen (t : JsVal) : Nat := if t.isInt 1 then 2 else if t.isInt 2 then 4 else 0

def crcBytes (t : JsVal) (data : Bytes) : Bytes :=
  if t.isInt 1 then beBytes 2 (crc16x25 data).toNat
  else if t.isInt 2 then beBytes 4 (crc32c data).toNat
  else []

/-- The CRC is computed over the block as received, with the CRC field zeroed. Only the type `0`
skips the check. -/
def checkCrc (raw : Bytes) (t crcValue : JsVal) : Bool :=
  if t.isInt 0 then true
  else match crcValue with
    | some (.bytes b) =>
        b.length == crcLen t &&
          crcBytes t (raw.take (raw.length - crcLen t) ++ List.replicate (crcLen t) 0) == b
    | _ => false

/-! ## Endpoint identifiers -/

def decodeEid : JsVal → Outcome String
  | some (.array [scheme, ssp]) =>
      if scheme = .int 1 then .ok (if ssp = .int 0 then "dtn:none" else "dtn:" ++ ssp.toText)
      else match scheme, ssp with
        | .int 2, .array [node, service] => .ok ("ipn:" ++ node.toText ++ "." ++ service.toText)
        | _, _ => .error (.error ("unsupported EID scheme " ++ scheme.toText))
  | _ => .error (.error "bad EID")

end Bundle

/-! ## The bundle -/

structure Primary where
  flags : Cbor
  crcType : Cbor
  dest : String
  source : String
  reportTo : String
  created : Slot × Slot
  lifetime : Cbor
  fragmentOffset : JsVal := none
  totalAduLength : JsVal := none
  deriving DecidableEq, Repr

structure Block where
  type : Cbor
  number : Cbor
  flags : Cbor
  crcType : Cbor
  data : Bytes
  deriving DecidableEq, Repr

structure Bundle where
  primary : Primary
  blocks : List Block
  deriving DecidableEq, Repr

namespace Bundle

def payloadType : Cbor := .int 1

/-- The items of the outer array, each with the bytes it was read from, up to the break byte. Every
item takes at least one byte, so `fuel` above the number of bytes is never used up. -/
def decodeRaws : (fuel : Nat) → Bytes → Outcome (List (Cbor × Bytes) × Bytes)
  | 0, _ => .error (.error "bundle truncated")
  | _ + 1, [] => .error (.error "bundle truncated")
  | fuel + 1, b :: bs =>
      if b = 0xff then .ok ([], bs)
      else do
        let (v, r) ← Cbor.decodeAt Cbor.maxLevels (b :: bs)
        let (raws, rest) ← decodeRaws fuel r
        return ((v, (b :: bs).take ((b :: bs).length - r.length)) :: raws, rest)

variable (N : Node)

/-- `flags & BUNDLE_FLAG.IS_FRAGMENT`. -/
def fragmentBit (flags : JsVal) : Outcome Nat := flags.toPrim.bitAnd N 1

/-- The checked fields of the primary block; `frag` is the fragment bit of its flags. -/
def readPrimary (frag : Nat) (pv : List Cbor) : Outcome Primary :=
  match pv with
  | _ :: flags :: crcType :: dest :: source :: reportTo :: created :: lifetime :: _ => do
      let dest ← decodeEid (some dest)
      let source ← decodeEid (some source)
      let reportTo ← decodeEid (some reportTo)
      let time ← created.index 0
      let seq ← created.index 1
      return { flags, crcType, dest, source, reportTo, created := (time, seq), lifetime,
               fragmentOffset := if frag = 0 then none else pv[8]?,
               totalAduLength := if frag = 0 then none else pv[9]? }
  | _ => .error (.error "primary block has the wrong number of fields")

/-- The number of fields a primary block has, by its fragment bit and CRC type. -/
def expectLen (frag : Nat) (crcType : JsVal) : Nat :=
  8 + (if frag = 0 then 0 else 2) + (if crcType.truthy then 1 else 0)

def decodePrimary (raw : Bytes) (value : Cbor) : Outcome Primary :=
  match value with
  | .array pv =>
      if pv[0]? ≠ some (.int 7) then .error (.error "not a BPv7 primary block")
      else do
        let frag ← fragmentBit N pv[1]?
        if pv.length ≠ expectLen frag pv[2]? then
          .error (.error "primary block has the wrong number of fields")
        else if checkCrc raw pv[2]? pv[pv.length - 1]? = false then
          .error (.error "primary block CRC mismatch")
        else readPrimary frag pv
  | _ => .error (.error "not a BPv7 primary block")

/-- A canonical block; `i` counts from the block after the primary one. -/
def decodeBlock (i : Nat) (value : Cbor) (raw : Bytes) : Outcome Block :=
  match value with
  | .array (type :: number :: bflags :: bcrc :: data :: more) =>
      if 1 < more.length then .error (.error s!"block {i + 1} malformed")
      else match data with
        | .bytes data =>
            if (if bcrc.truthy then 6 else 5) ≠ 5 + more.length then
              .error (.error s!"block {i + 1} CRC field does not match its CRC type")
            else if checkCrc raw (some bcrc) more[0]? = false then
              .error (.error ("block " ++ number.toText ++ " CRC mismatch"))
            else .ok { type, number, flags := bflags, crcType := bcrc, data }
        | _ => .error (.error s!"block {i + 1} data is not a byte string")
  | _ => .error (.error s!"block {i + 1} malformed")

def decodeBlocks : Nat → List (Cbor × Bytes) → Outcome (List Block)
  | _, [] => .ok []
  | i, (v, raw) :: rest => do
      let b ← decodeBlock i v raw
      let bs ← decodeBlocks (i + 1) rest
      return b :: bs

/-- Block numbers are compared as members of a `Set`; `seen` are those of the blocks before. -/
def checkNumbers : (seen : List Cbor) → List Block → Outcome Unit
  | _, [] => .ok ()
  | seen, b :: bs =>
      if seen.any (Cbor.sameKey · b.number) then
        .error (.error ("duplicate block number " ++ b.number.toText))
      else checkNumbers (seen ++ [b.number]) bs

def decodeBundle (buf : Bytes) : Outcome Bundle :=
  match buf with
  | 0x9f :: bs => do
      let (raws, rest) ← decodeRaws (bs.length + 1) bs
      if rest ≠ [] then .error (.error "trailing bytes after bundle")
      else match raws with
        | (pv, praw) :: b :: bs => do
            let primary ← decodePrimary N praw pv
            let blocks ← decodeBlocks 0 (b :: bs)
            if (blocks.getLast?.map Block.type) ≠ some payloadType then
              .error (.error "the payload block must be last")
            else do
              checkNumbers [] blocks
              return { primary, blocks }
        | _ => .error (.error "a bundle needs a primary and a payload block")
  | _ => .error (.error "a bundle is an indefinite-length CBOR array")

/-- The data of the first block of the payload type. -/
def payloadOf (b : Bundle) : Outcome Bytes :=
  match b.blocks.find? fun x => x.type = payloadType with
  | some x => .ok x.data
  | none => .error .typeError

/-! ## What was read, and from what -/

/-- An item stands in the bytes it was read from, behind the items before it. -/
theorem decodeRaws_item {fuel : Nat} :
    ∀ {bs rest : Bytes} {raws : List (Cbor × Bytes)}, decodeRaws fuel bs = .ok (raws, rest) →
      ∀ p ∈ raws, ∃ before r, bs = before ++ (p.2 ++ r) ∧
        Cbor.decodeAt Cbor.maxLevels (p.2 ++ r) = .ok (p.1, r) := by
  induction fuel with
  | zero => intro bs rest raws h; cases h
  | succ fuel ih =>
      intro bs rest raws h p hp
      cases bs with
      | nil => cases h
      | cons b bs =>
        rw [decodeRaws] at h
        split at h
        · cases h; cases hp
        · obtain ⟨⟨v, r⟩, hv, h⟩ := Outcome.bind_eq_ok.mp h
          obtain ⟨⟨vs, r'⟩, hvs, h⟩ := Outcome.bind_eq_ok.mp h
          cases h
          obtain ⟨raw, _, hraw⟩ := Cbor.decodeAt_consumes _ _ _ _ hv
          rcases List.mem_cons.mp hp with rfl | hp
          · have htake : (b :: bs).take ((b :: bs).length - r.length) = raw := by
              rw [hraw, List.length_append, Nat.add_sub_cancel, List.take_left]
            refine ⟨[], r, ?_, ?_⟩
            · rw [htake, List.nil_append, hraw]
            · rw [htake, ← hraw, hv]
          · obtain ⟨before, r₁, hbs, hread⟩ := ih hvs p hp
            exact ⟨raw ++ before, r₁, by rw [hraw, hbs, List.append_assoc], hread⟩

/-- A block of an array, and what its CRC field can be. -/
structure BlockParts (v : Cbor) (raw : Bytes) (b : Block) (more : List Cbor) : Prop where
  value : v = .array ([b.type, b.number, b.flags, b.crcType, .bytes b.data] ++ more)
  length : (if b.crcType.truthy then 6 else 5) = 5 + more.length
  check : checkCrc raw (some b.crcType) more[0]? = true

theorem decodeBlock_parts {i : Nat} {v : Cbor} {raw : Bytes} {b : Block}
    (h : decodeBlock i v raw = .ok b) : ∃ more, BlockParts v raw b more := by
  unfold decodeBlock at h
  split at h
  · rename_i type number bflags bcrc data more
    split at h
    · cases h
    · split at h
      · rename_i data
        have hlen : (if bcrc.truthy then 6 else 5) = 5 + more.length := by
          by_contra hne
          rw [if_pos hne] at h
          cases h
        rw [if_neg (not_not.mpr hlen)] at h
        have hcheck : checkCrc raw (some bcrc) more[0]? = true := by
          by_contra hfail
          rw [if_pos (by simpa using hfail)] at h
          cases h
        rw [if_neg (by simp [hcheck])] at h
        cases h
        exact ⟨more, rfl, hlen, hcheck⟩
      · cases h
  · cases h

/-- A primary block of an array: its endpoint items, its timestamp, and what stands behind the
lifetime. -/
structure PrimaryParts (N : Node) (v : Cbor) (raw : Bytes) (p : Primary) (frag : Nat)
    (dest source reportTo created : Cbor) (tail : List Cbor) : Prop where
  value : v = .array ([.int 7, p.flags, p.crcType, dest, source, reportTo, created, p.lifetime] ++ tail)
  bit : fragmentBit N (some p.flags) = .ok frag
  length : tail.length = (if frag = 0 then 0 else 2) + if p.crcType.truthy then 1 else 0
  check : checkCrc raw (some p.crcType) (p.lifetime :: tail).getLast? = true
  eids : decodeEid (some dest) = .ok p.dest ∧ decodeEid (some source) = .ok p.source ∧
    decodeEid (some reportTo) = .ok p.reportTo
  times : created.index 0 = .ok p.created.1 ∧ created.index 1 = .ok p.created.2
  fragment : p.fragmentOffset = (if frag = 0 then none else tail[0]?) ∧
    p.totalAduLength = if frag = 0 then none else tail[1]?

variable {N} in
theorem decodePrimary_parts {v : Cbor} {raw : Bytes} {p : Primary}
    (h : decodePrimary N raw v = .ok p) : ∃ frag dest source reportTo created tail,
      PrimaryParts N v raw p frag dest source reportTo created tail := by
  unfold decodePrimary at h
  split at h
  · rename_i pv
    split at h
    · cases h
    · rename_i hseven
      obtain ⟨frag, hfrag, h⟩ := Outcome.bind_eq_ok.mp h
      split at h
      · cases h
      · rename_i hlen
        split at h
        · cases h
        · rename_i hcheck
          unfold readPrimary at h
          split at h
          · rename_i version flags crcType dest source reportTo created lifetime tail _
            obtain ⟨d, hd, h⟩ := Outcome.bind_eq_ok.mp h
            obtain ⟨s, hs, h⟩ := Outcome.bind_eq_ok.mp h
            obtain ⟨r, hr, h⟩ := Outcome.bind_eq_ok.mp h
            obtain ⟨time, htime, h⟩ := Outcome.bind_eq_ok.mp h
            obtain ⟨seq, hseq, h⟩ := Outcome.bind_eq_ok.mp h
            cases h
            have hversion : version = .int 7 := by
              simpa using not_not.mp hseven
            subst hversion
            refine ⟨frag, dest, source, reportTo, created, tail, rfl, hfrag, ?_, ?_, ⟨hd, hs, hr⟩,
              ⟨htime, hseq⟩, rfl, rfl⟩
            · have hlen' : tail.length + 8 = expectLen frag (some crcType) := not_not.mp hlen
              unfold expectLen at hlen'
              show tail.length = _ + (if JsVal.truthy (some crcType) = true then 1 else 0)
              omega
            · have hlast : (Cbor.int 7 :: flags :: crcType :: dest :: source :: reportTo :: created ::
                  lifetime :: tail)[(Cbor.int 7 :: flags :: crcType :: dest :: source :: reportTo ::
                  created :: lifetime :: tail).length - 1]? = (lifetime :: tail).getLast? := by
                rw [← List.getLast?_eq_getElem?]
                simp [List.getLast?_cons]
              rw [hlast] at hcheck
              simpa using hcheck
          · cases h
  · cases h

variable {N} in
/-- The parts of a bundle, as `decodeBundle` put them together. -/
theorem decodeBundle_ok {buf : Bytes} {b : Bundle} (h : decodeBundle N buf = .ok b) :
    ∃ bs p rest, buf = 0x9f :: bs ∧ decodeRaws (bs.length + 1) bs = .ok (p :: rest, []) ∧
      decodePrimary N p.2 p.1 = .ok b.primary ∧ decodeBlocks 0 rest = .ok b.blocks ∧
      b.blocks.getLast?.map Block.type = some payloadType ∧ checkNumbers [] b.blocks = .ok () := by
  unfold decodeBundle at h
  split at h
  · rename_i bs
    obtain ⟨⟨raws, rest⟩, hraws, h⟩ := Outcome.bind_eq_ok.mp h
    simp only at h
    split at h
    · cases h
    · rename_i hrest
      rw [not_not.mp hrest] at hraws
      split at h
      · obtain ⟨primary, hprimary, h⟩ := Outcome.bind_eq_ok.mp h
        obtain ⟨blocks, hblocks, h⟩ := Outcome.bind_eq_ok.mp h
        split at h
        · cases h
        · rename_i hlast
          obtain ⟨_, hnumbers, h⟩ := Outcome.bind_eq_ok.mp h
          cases h
          exact ⟨bs, _, _, rfl, hraws, hprimary, hblocks, not_not.mp hlast, hnumbers⟩
      · cases h
  · cases h

/-! ## What is certain of a decoded bundle -/

/-- The two halves of a creation timestamp, as they were indexed off one decoded item. -/
def Timestamp (created : Slot × Slot) : Prop :=
  ∃ item : Cbor, item.Distinct ∧ item.index 0 = .ok created.1 ∧ item.index 1 = .ok created.2

structure WellFormed (b : Bundle) : Prop where
  created : Timestamp b.primary.created
  fragmentOffset : ∀ v, b.primary.fragmentOffset = some v → v.Distinct
  totalAduLength : ∀ v, b.primary.totalAduLength = some v → v.Distinct
  payload : ∃ x ∈ b.blocks, x.type = payloadType

theorem WellFormed.payloadOf_ok {b : Bundle} (h : b.WellFormed) : ∃ data, b.payloadOf = .ok data := by
  obtain ⟨x, hx, htype⟩ := h.payload
  unfold payloadOf
  split
  · exact ⟨_, rfl⟩
  · rename_i hnone
    exact absurd htype (by simpa using List.find?_eq_none.mp hnone x hx)

theorem decodePrimary_ok {raw : Bytes} {value : Cbor} {p : Primary} (hvalue : value.Distinct)
    (h : decodePrimary N raw value = .ok p) :
    Timestamp p.created ∧ (∀ v, p.fragmentOffset = some v → v.Distinct) ∧
      ∀ v, p.totalAduLength = some v → v.Distinct := by
  obtain ⟨frag, dest, source, reportTo, created, tail, hparts⟩ := decodePrimary_parts h
  rw [hparts.value] at hvalue
  cases hvalue with
  | array hpv =>
      have field : ∀ {i : Nat} {v : Cbor}, (if frag = 0 then none else tail[i]?) = some v →
          v.Distinct := by
        intro i v hv
        split at hv
        · cases hv
        · exact hpv v (List.mem_append_right _ (List.mem_of_getElem? hv))
      refine ⟨⟨created, hpv created (by simp), hparts.times⟩, fun v hv => ?_, fun v hv => ?_⟩
      · rw [hparts.fragment.1] at hv
        exact field hv
      · rw [hparts.fragment.2] at hv
        exact field hv

/-- **A decoded bundle is well formed**: it has a payload block, and its identity fields are
decoded values. -/
theorem decodeBundle_wellFormed {buf : Bytes} {b : Bundle} (h : decodeBundle N buf = .ok b) :
    b.WellFormed := by
  obtain ⟨bs, p, rest, _, hraws, hprimary, _, hlast, _⟩ := decodeBundle_ok h
  obtain ⟨_, _, _, hread⟩ := decodeRaws_item hraws p List.mem_cons_self
  have hp := decodePrimary_ok N (Cbor.decodeAt_decoded hread).1 hprimary
  obtain ⟨x, hx, htype⟩ := Option.map_eq_some_iff.mp hlast
  exact ⟨hp.1, hp.2.1, hp.2.2, x, List.mem_of_getLast? hx, htype⟩

end Bundle

end DtnCustody
