/-
# DtnCustody.Transport.Receiver — `BundleReceiver` of `transport/bpv7/fast-stamp.mjs`, from the payload block on.

When the head of the payload block has been read it is known where everything stands (`Plan`). The bytes arrive in
chunks of any size. What of a chunk is payload is hashed, and what of it is the block goes into the register of the
CRC (`body`), so that both are there with the last byte (`finish`).

`Sound` is what stays true from chunk to chunk: the hash and the register are those of what has arrived, as if it
had come at once (`body_sound`).
-/
import DtnCustody.Transport.CrcFeed

namespace DtnCustody.Receiver

open Base CrcFeed Js
open DtnCustody.Bundle (crcLen crcBytes checkCrc)

/-- Where the payload block stands in the bundle, with its fields. -/
structure Plan where
  start : Nat
  dataStart : Nat
  dataEnd : Nat
  crcType : JsVal
  number : Cbor
  start_le : start ≤ dataStart
  data_le : dataStart ≤ dataEnd

/-- `n ? 1 + n : 0` bytes behind the data are the CRC. -/
def Plan.blockEnd (p : Plan) : Nat :=
  p.dataEnd + if crcLen p.crcType = 0 then 0 else 1 + crcLen p.crcType

/-- Where the bytes that the CRC covers end. -/
def Plan.crcStart (p : Plan) : Nat := p.blockEnd - crcLen p.crcType

/-- The first `w` bytes of `buf`, the register and what the hash was given. -/
structure State where
  buf : Bytes
  crc : Int
  hashed : Bytes
  deriving DecidableEq

variable (p : Plan)

def new : State :=
  { buf := [], crc := if p.crcType.isInt 1 then 0xffff else 0xffffffff, hashed := [] }

/-- `crcType === CRC16 ? crc16x25Update(..) : crc32cUpdate(..)`. -/
def update (c : Int) (buf : Bytes) (start stop : Nat) : Int :=
  if p.crcType.isInt 1 then crc16x25Update c buf start stop else crc32cUpdate c buf start stop

/-- `#body`, with a chunk from its first byte on. -/
def body (s : State) (chunk : Bytes) : Outcome State :=
  if s.buf.length + chunk.length > p.blockEnd + 1 then .error (.error "trailing bytes after bundle")
  else
    let buf := s.buf ++ chunk
    let ds := max s.buf.length p.dataStart
    let de := min buf.length p.dataEnd
    let hashed := if de > ds then s.hashed ++ (buf.take de).drop ds else s.hashed
    let cs := max s.buf.length p.start
    let cend := min buf.length p.crcStart
    let crc := if p.crcType.isInt 0 then s.crc
      else if cend > cs then update p s.crc buf cs cend else s.crc
    .ok { buf, crc, hashed }

def readUIntBE (k : Nat) (buf : Bytes) (off : Nat) : Outcome Nat :=
  if off + k ≤ buf.length then .ok (beNat ((buf.drop off).take k)) else .error .rangeError

/-- What `finish` asks of the CRC of the payload block. -/
def checkPayload (s : State) : Outcome Unit :=
  let n := crcLen p.crcType
  if s.buf[p.crcStart - 1]? ≠ some (UInt8.ofNat (0x40 ||| n)) then
    .error (.error "payload block CRC field malformed")
  else do
    let c := update p s.crc (List.replicate n 0) 0 n
    let c := if p.crcType.isInt 1 then finish16 c else finish32 c
    let got ← readUIntBE (if p.crcType.isInt 1 then 2 else 4) s.buf p.crcStart
    if (got : Int) ≠ c then .error (.error ("block " ++ p.number.toText ++ " CRC mismatch")) else .ok ()

/-- `finish`, up to the primary block. -/
def finish (s : State) : Outcome Unit :=
  if s.buf.length ≠ p.blockEnd + 1 then .error (.error "bundle truncated")
  else if s.buf.getLast? ≠ some 0xff then .error (.error "trailing bytes after bundle")
  else if p.crcType.isInt 0 then .ok ()
  else checkPayload p s

/-! ## What stays true -/

/-- The bytes between two places. -/
def part (b : Bytes) (s e : Nat) : Bytes := (b.take e).drop s

theorem part_eq_nil {b : Bytes} {s e : Nat} (h : e ≤ s ∨ b.length ≤ s) : part b s e = [] := by
  refine List.drop_eq_nil_of_le ?_
  rw [List.length_take]
  omega

/-- What a chunk adds to a part. -/
theorem part_append (b c : Bytes) (s e : Nat) :
    part (b ++ c) s e = part b s e ++ part (b ++ c) (max b.length s) (min (b ++ c).length e) := by
  unfold part
  apply List.ext_getElem?
  intro i
  rw [List.getElem?_append]
  simp only [List.getElem?_drop, List.getElem?_take, List.length_drop, List.length_take, List.getElem?_append,
    List.length_append]
  grind

def table : List Int := if p.crcType.isInt 1 then T16 else T32C

/-- The register after some bytes. -/
def register (bs : Bytes) : Int :=
  bs.foldl (fun c b => crcStep (table p) c b.toNat) (if p.crcType.isInt 1 then 0xffff else 0xffffffff)

/-- Bytes of a buffer that are there go into the register one by one. -/
theorem update_register (bs : Bytes) {buf : Bytes} {s e : Nat} (he : e ≤ buf.length) :
    update p (register p bs) buf s e = register p (bs ++ part buf s e) := by
  have htable : update p (register p bs) buf s e = crcUpdate (table p) (register p bs) buf s e := by
    unfold update table
    split <;> rfl
  have hpiece := crcUpdate_eq_foldl (table p) (register p bs) ⟨buf, s, e⟩
  rw [Piece.bytes_of_le he] at hpiece
  rw [htable, hpiece]
  exact List.foldl_append.symm

/-- **What the receiver has** is that of the bytes that have arrived. -/
structure Sound (s : State) : Prop where
  size : s.buf.length ≤ p.blockEnd + 1
  hashed : s.hashed = part s.buf p.dataStart p.dataEnd
  crc : p.crcType.isInt 0 = false → s.crc = register p (part s.buf p.start p.crcStart)

variable {p}

/-- One chunk. -/
theorem body_sound {s s' : State} {chunk : Bytes} (h : Sound p s) (hbody : body p s chunk = .ok s') :
    Sound p s' ∧ s'.buf = s.buf ++ chunk := by
  unfold body at hbody
  split at hbody
  · cases hbody
  · next hsize =>
    cases hbody
    refine ⟨⟨?_, ?_, fun htype => ?_⟩, rfl⟩
    · rw [List.length_append]
      exact Nat.le_of_not_lt hsize
    · show (if _ then s.hashed ++ part (s.buf ++ chunk) _ _ else s.hashed) =
        part (s.buf ++ chunk) p.dataStart p.dataEnd
      rw [part_append s.buf chunk p.dataStart p.dataEnd, h.hashed]
      split
      · rfl
      · next hnone => rw [part_eq_nil (.inl (Nat.le_of_not_lt hnone)), List.append_nil]
    · show (if _ then s.crc else _) = register p (part (s.buf ++ chunk) p.start p.crcStart)
      rw [if_neg (by rw [htype]; decide), part_append s.buf chunk p.start p.crcStart, h.crc htype]
      split
      · exact update_register p _ (min_le_left _ _)
      · next hnone => rw [part_eq_nil (.inl (Nat.le_of_not_lt hnone)), List.append_nil]

end DtnCustody.Receiver
