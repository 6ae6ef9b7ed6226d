/-
# DtnCustody.Transport.CrcFeed — the CRCs of `transport/bpv7/bundle.mjs` on the numbers of the language, and
fed piece by piece.

`^` and `&` give signed 32-bit numbers and `>>>` unsigned ones, so a register that is fed can be negative until
it is finished. Its bits are those of the register of `Base.Crc` all the same (`ofInt_foldl`), which is the one of
the definition; a register of 16 bits lies in one of 32.
-/
import DtnCustody.Base.Crc
import DtnCustody.Transport.Bundle

namespace DtnCustody.CrcFeed

open Base

/-! ## The operators -/

/-- `a ^ b`. -/
def xor (a b : Int) : Int := (BitVec.ofInt 32 a ^^^ BitVec.ofInt 32 b).toInt

/-- `a & b`. -/
def and (a b : Int) : Int := (BitVec.ofInt 32 a &&& BitVec.ofInt 32 b).toInt

/-- `a >>> n`. -/
def ushr (a : Int) (n : Nat) : Int := (BitVec.ofInt 32 a >>> n).toNat

example : xor 0x7fffffff 0xffffffff = -0x80000000 := by decide

@[simp] theorem ofInt_xor (a b : Int) :
    BitVec.ofInt 32 (xor a b) = BitVec.ofInt 32 a ^^^ BitVec.ofInt 32 b := BitVec.ofInt_toInt

@[simp] theorem ofInt_and (a b : Int) :
    BitVec.ofInt 32 (and a b) = BitVec.ofInt 32 a &&& BitVec.ofInt 32 b := BitVec.ofInt_toInt

@[simp] theorem ofInt_ushr (a : Int) (n : Nat) :
    BitVec.ofInt 32 (ushr a n) = BitVec.ofInt 32 a >>> n := by
  rw [ushr, BitVec.ofInt_natCast, BitVec.ofNat_toNat, BitVec.setWidth_eq]

/-- What is masked with a byte is a byte. -/
theorem and_byte (a : Int) : and a 0xff = (BitVec.ofInt 32 a &&& 0xff#32).toNat := by
  have hlt : (BitVec.ofInt 32 a &&& 0xff#32).toNat < 256 := by
    rw [BitVec.toNat_and]
    exact Nat.lt_of_le_of_lt Nat.and_le_right (by decide)
  show (BitVec.ofInt 32 a &&& 0xff#32).toInt = _
  exact BitVec.toInt_eq_toNat_of_lt (by omega)

/-! ## The functions of the source -/

/-- One turn of the inner loop of `crcTable`. -/
def crcShift (poly c : Int) : Int := if and c 1 ≠ 0 then xor (ushr c 1) poly else ushr c 1

def crcTable (poly : Int) (bits : Nat) : List Int :=
  (List.range 256).map fun i : Nat =>
    let c := (crcShift poly)^[8] (i : Int)
    if bits = 16 then and c 0xffff else ushr c 0

def T16 : List Int := crcTable 0x8408 16

def T32C : List Int := crcTable 0x82f63b78 32

/-- `(c >>> 8) ^ T[(c ^ b) & 0xff]`. -/
def crcStep (T : List Int) (c b : Int) : Int :=
  xor (ushr c 8) ((T[(and (xor c b) 0xff).toNat]?).getD 0)

/-- `buf[i]` under an operator: what is past the end counts as 0. -/
def byteAt (buf : Bytes) (i : Nat) : Int := (buf[i]?.map fun b => (b.toNat : Int)).getD 0

/-- The loop of both updates. -/
def crcUpdate (T : List Int) (c : Int) (buf : Bytes) (start stop : Nat) : Int :=
  (List.range' start (stop - start)).foldl (fun c i => crcStep T c (byteAt buf i)) c

def crc32cUpdate (c : Int) (buf : Bytes) (start stop : Nat) : Int := crcUpdate T32C c buf start stop

def crc16x25Update (c : Int) (buf : Bytes) (start stop : Nat) : Int := crcUpdate T16 c buf start stop

/-- `(c ^ 0xffff) & 0xffff`. -/
def finish16 (c : Int) : Int := and (xor c 0xffff) 0xffff

/-- `(c ^ 0xffffffff) >>> 0`. -/
def finish32 (c : Int) : Int := ushr (xor c 0xffffffff) 0

def crc16x25 (buf : Bytes) : Int := finish16 (buf.foldl (fun c b => crcStep T16 c b.toNat) 0xffff)

def crc32c (buf : Bytes) : Int := finish32 (crc32cUpdate 0xffffffff buf 0 buf.length)

/-! ## The bits of a register -/

theorem ofInt_crcShift (poly c : Int) :
    BitVec.ofInt 32 (crcShift poly c) = Crc.shift (BitVec.ofInt 32 poly) (BitVec.ofInt 32 c) := by
  have hbit : and c 1 ≠ 0 ↔ (BitVec.ofInt 32 c).getLsbD 0 = true := by
    show (BitVec.ofInt 32 c &&& 1#32).toInt ≠ 0 ↔ _
    rw [BitVec.and_one_eq_setWidth_ofBool_getLsbD]
    cases (BitVec.ofInt 32 c).getLsbD 0 <;> decide
  unfold crcShift Crc.shift
  by_cases h : (BitVec.ofInt 32 c).getLsbD 0 = true
  · rw [if_pos (hbit.mpr h), if_pos h, ofInt_xor, ofInt_ushr]
  · rw [if_neg fun hc => h (hbit.mp hc), if_neg h, ofInt_ushr]

theorem ofInt_crcShifts (poly : Int) (n : Nat) (c : Int) :
    BitVec.ofInt 32 ((crcShift poly)^[n] c) =
      (Crc.shift (BitVec.ofInt 32 poly))^[n] (BitVec.ofInt 32 c) := by
  induction n generalizing c with
  | zero => rfl
  | succ n ih => rw [Function.iterate_succ_apply, Function.iterate_succ_apply, ih, ofInt_crcShift]

/-- A table of what eight shifts make of a byte. -/
def Tabulates (T : List Int) (poly : BitVec 32) : Prop :=
  ∀ i < 256, ∃ e, T[i]? = some e ∧ BitVec.ofInt 32 e = (Crc.shift poly)^[8] (BitVec.ofNat 32 i)

theorem tabulates_T32C : Tabulates T32C 0x82f63b78#32 := by
  intro i hi
  refine ⟨ushr ((crcShift 0x82f63b78)^[8] (i : Int)) 0, ?_, ?_⟩
  · rw [T32C, crcTable, List.getElem?_map, List.getElem?_range hi]
    rfl
  · rw [ofInt_ushr, BitVec.ushiftRight_zero, ofInt_crcShifts, BitVec.ofInt_natCast]
    rfl

theorem tabulates_T16 : Tabulates T16 0x8408#32 := by
  intro i hi
  refine ⟨and ((crcShift 0x8408)^[8] (i : Int)) 0xffff, ?_, ?_⟩
  · rw [T16, crcTable, List.getElem?_map, List.getElem?_range hi]
    rfl
  · -- the entry has 16 bits already
    have hentry : ((Crc.shift 0x8408#16)^[8] (BitVec.ofNat 16 i)).setWidth 32 =
        (Crc.shift 0x8408#32)^[8] (BitVec.ofNat 32 i) := by
      have hindex : (BitVec.ofNat 16 i).setWidth 32 = BitVec.ofNat 32 i :=
        BitVec.setWidth_ofNat_of_le_of_lt (by decide) (by omega)
      rw [Crc.setWidth_shifts (by decide) (by decide), hindex]
      rfl
    have hmask : ∀ c : BitVec 16, c.setWidth 32 &&& 0xffff#32 = c.setWidth 32 := fun c => by
      rw [show 0xffff#32 = (BitVec.allOnes 16).setWidth 32 by decide, ← BitVec.setWidth_and,
        BitVec.and_allOnes]
    rw [ofInt_and, ofInt_crcShifts, BitVec.ofInt_natCast]
    show (Crc.shift 0x8408#32)^[8] (BitVec.ofNat 32 i) &&& 0xffff#32 = _
    rw [← hentry, hmask]

/-- **One byte**, whatever the sign of the register. -/
theorem ofInt_crcStep {T : List Int} {poly : BitVec 32} (hT : Tabulates T poly) (c : Int) (b : UInt8) :
    BitVec.ofInt 32 (crcStep T c b.toNat) = Crc.step poly (BitVec.ofInt 32 c) b := by
  have hbyte : BitVec.ofInt 32 (b.toNat : Int) = b.toBitVec.setWidth 32 := by
    rw [BitVec.ofInt_natCast]
    exact BitVec.ofNat_toNat 32 b.toBitVec
  have hlt : ((BitVec.ofInt 32 c ^^^ b.toBitVec.setWidth 32) &&& 0xff#32).toNat < 256 := by
    rw [BitVec.toNat_and]
    exact Nat.lt_of_le_of_lt Nat.and_le_right (by decide)
  obtain ⟨e, he, hbits⟩ := hT _ hlt
  rw [crcStep, and_byte, Int.toNat_natCast, ofInt_xor c, hbyte, he, Option.getD_some, ofInt_xor, ofInt_ushr,
    hbits, BitVec.ofNat_toNat, BitVec.setWidth_eq]
  rfl

theorem ofInt_foldl {T : List Int} {poly : BitVec 32} (hT : Tabulates T poly) (bs : Bytes) (c : Int) :
    BitVec.ofInt 32 (bs.foldl (fun c b => crcStep T c b.toNat) c) =
      bs.foldl (Crc.step poly) (BitVec.ofInt 32 c) := by
  induction bs generalizing c with
  | nil => rfl
  | cons b bs ih => rw [List.foldl_cons, List.foldl_cons, ih, ofInt_crcStep hT]

/-! ## Pieces -/

/-- Where a piece of the input stands: offsets into some buffer. -/
structure Piece where
  buf : Bytes
  start : Nat
  stop : Nat

/-- The bytes between the offsets; an offset past the end reaches zeros. -/
def Piece.bytes (p : Piece) : Bytes :=
  ((p.buf ++ List.replicate (p.stop - p.buf.length) 0).take p.stop).drop p.start

theorem Piece.bytes_of_le {p : Piece} (h : p.stop ≤ p.buf.length) :
    p.bytes = (p.buf.take p.stop).drop p.start := by
  rw [Piece.bytes, Nat.sub_eq_zero_of_le h, List.replicate_zero, List.append_nil]

/-- The places the loop reads are those of the piece. -/
theorem map_byteAt (p : Piece) :
    (List.range' p.start (p.stop - p.start)).map (byteAt p.buf) = p.bytes.map fun b => (b.toNat : Int) := by
  apply List.ext_getElem?
  intro k
  rw [List.getElem?_map, List.getElem?_map, Piece.bytes, List.getElem?_drop, List.getElem?_take]
  by_cases hk : k < p.stop - p.start
  · rw [List.getElem?_range' hk, if_pos (by omega), Nat.one_mul, Option.map_some, byteAt]
    by_cases hin : p.start + k < p.buf.length
    · rw [List.getElem?_append_left hin, List.getElem?_eq_getElem hin]
      rfl
    · rw [List.getElem?_append_right (by omega), List.getElem?_eq_none (by omega),
        List.getElem?_replicate_of_lt (by omega)]
      rfl
  · rw [List.getElem?_eq_none (by rw [List.length_range']; omega), if_neg (by omega)]
    rfl

theorem crcUpdate_eq_foldl (T : List Int) (c : Int) (p : Piece) :
    crcUpdate T c p.buf p.start p.stop = p.bytes.foldl (fun c b => crcStep T c b.toNat) c := by
  rw [crcUpdate, ← List.foldl_map, map_byteAt, List.foldl_map]

/-- **Piece by piece is in one pass.** -/
theorem foldl_crcUpdate (T : List Int) (pieces : List Piece) (c : Int) :
    pieces.foldl (fun c p => crcUpdate T c p.buf p.start p.stop) c =
      (pieces.flatMap Piece.bytes).foldl (fun c b => crcStep T c b.toNat) c := by
  induction pieces generalizing c with
  | nil => rfl
  | cons p pieces ih =>
      rw [List.foldl_cons, List.flatMap_cons, List.foldl_append, crcUpdate_eq_foldl, ih]

theorem crc32c_eq_foldl (buf : Bytes) :
    crc32c buf = finish32 (buf.foldl (fun c b => crcStep T32C c b.toNat) 0xffffffff) := by
  have hwhole : Piece.bytes ⟨buf, 0, buf.length⟩ = buf := by
    rw [Piece.bytes_of_le (le_refl _), List.take_length, List.drop_zero]
  have hupdate := crcUpdate_eq_foldl T32C 0xffffffff ⟨buf, 0, buf.length⟩
  rw [hwhole] at hupdate
  exact congrArg finish32 hupdate

/-! ## The two CRCs -/

/-- CRC-16/X-25. -/
def x25 : Crc.Spec 16 := { poly := 0x1021#16, init := 0xffff#16, xorOut := 0xffff#16 }

/-- CRC-32C. -/
def castagnoli : Crc.Spec 32 := { poly := 0x1edc6f41#32, init := 0xffffffff#32, xorOut := 0xffffffff#32 }

example : x25.crc [0x31, 0x32, 0x33, 0x34, 0x35, 0x36, 0x37, 0x38, 0x39] = 0x906e#16 := by decide +kernel

example : castagnoli.crc [0x31, 0x32, 0x33, 0x34, 0x35, 0x36, 0x37, 0x38, 0x39] = 0xe3069283#32 := by
  decide +kernel

theorem crc32c_bits (buf : Bytes) : crc32c buf = (castagnoli.crc buf).toNat := by
  have hreverse : castagnoli.poly.reverse = 0x82f63b78#32 ∧ castagnoli.init.reverse = 0xffffffff#32 := by
    decide +kernel
  rw [crc32c_eq_foldl, finish32, ushr, ofInt_xor, ofInt_foldl tabulates_T32C, BitVec.ushiftRight_zero,
    Crc.crc_eq_foldl (by decide) castagnoli, hreverse.1, hreverse.2]
  rfl

theorem crc16x25_bits (buf : Bytes) : crc16x25 buf = (x25.crc buf).toNat := by
  have hfold : buf.foldl (Crc.step 0x8408#32) (BitVec.ofInt 32 0xffff) =
      (buf.foldl (Crc.step 0x8408#16) 0xffff#16).setWidth 32 := by
    rw [Crc.setWidth_foldl (by decide) (by decide)]
    rfl
  -- sixteen bits are left, so the sign is clear
  have hfinish : ∀ c : BitVec 16, ((c.setWidth 32 ^^^ 0xffff#32) &&& 0xffff#32).toInt =
      (c ^^^ 0xffff#16).toNat := by
    intro c
    have hnarrow : (c.setWidth 32 ^^^ 0xffff#32) &&& 0xffff#32 = (c ^^^ 0xffff#16).setWidth 32 := by
      rw [show 0xffff#32 = (BitVec.allOnes 16).setWidth 32 by decide, ← BitVec.setWidth_xor,
        ← BitVec.setWidth_and, BitVec.and_allOnes]
      rfl
    have hlt := (c ^^^ 0xffff#16).isLt
    have hnat : ((c ^^^ 0xffff#16).setWidth 32).toNat = (c ^^^ 0xffff#16).toNat := by
      rw [BitVec.toNat_setWidth]
      exact Nat.mod_eq_of_lt (by omega)
    rw [hnarrow, BitVec.toInt_eq_toNat_of_lt (by rw [hnat]; omega), hnat]
  rw [crc16x25, finish16, and, ofInt_xor, ofInt_foldl tabulates_T16, hfold,
    Crc.crc_eq_foldl (by decide) x25, show x25.poly.reverse = 0x8408#16 by decide,
    show x25.init.reverse = 0xffff#16 by decide]
  exact hfinish _

/-- **Both CRCs are right however they are fed**: in one pass they are those of the definitions, and piece by
piece, each anywhere in its buffer, they are those of one pass. -/
theorem crcs_right :
    (∀ buf, crc16x25 buf = (x25.crc buf).toNat ∧ crc32c buf = (castagnoli.crc buf).toNat) ∧
      ∀ pieces : List Piece,
        finish16 (pieces.foldl (fun c p => crc16x25Update c p.buf p.start p.stop) 0xffff) =
            crc16x25 (pieces.flatMap Piece.bytes) ∧
          finish32 (pieces.foldl (fun c p => crc32cUpdate c p.buf p.start p.stop) 0xffffffff) =
            crc32c (pieces.flatMap Piece.bytes) := by
  refine ⟨fun buf => ⟨crc16x25_bits buf, crc32c_bits buf⟩, fun pieces => ⟨?_, ?_⟩⟩
  · exact congrArg finish16 (foldl_crcUpdate T16 pieces 0xffff)
  · rw [crc32c_eq_foldl]
    exact congrArg finish32 (foldl_crcUpdate T32C pieces 0xffffffff)

end DtnCustody.CrcFeed
