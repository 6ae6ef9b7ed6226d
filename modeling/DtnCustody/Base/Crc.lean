/-
# DtnCustody.Base.Crc — cyclic redundancy checks of any width, one bit at a time and from a table.

`Spec.crc` is the definition: a register of `w` bits, moved up one place for every bit of the input, the
polynomial subtracted whenever the bit that falls out and the bit that comes in differ. It is the kind of CRC
that takes the bits of a byte from the least significant on and is read out in that order.

Turned around, the register moves down and the polynomial is subtracted by its lowest bit (`shift`). That is
linear in exclusive or, so a byte can be laid over the register and moved out eight bits at a time
(`foldl_shiftBit`), and the eight shifts of the lowest byte can come from a table (`shift_eight`).
-/
import DtnCustody.Base.Text

namespace DtnCustody.Base.Crc

/-- A CRC of `w` bits, in the usual writing: the polynomial with its highest power left out, the first
register, and what is added at the end. -/
structure Spec (w : Nat) where
  poly : BitVec w
  init : BitVec w
  xorOut : BitVec w

variable {w : Nat}

/-- The bits of a byte, the least significant first. -/
def bitsOf (b : UInt8) : List Bool := (List.range 8).map b.toBitVec.getLsbD

/-- One bit of the input. -/
def Spec.bit (p : Spec w) (c : BitVec w) (b : Bool) : BitVec w :=
  if c.msb != b then (c <<< 1) ^^^ p.poly else c <<< 1

/-- **The CRC of some bytes**, a bit at a time. -/
def Spec.crc (p : Spec w) (bs : List UInt8) : BitVec w :=
  ((bs.flatMap bitsOf).foldl p.bit p.init).reverse ^^^ p.xorOut

/-! ## The register turned around -/

/-- One place down. -/
def shift (poly c : BitVec w) : BitVec w := if c.getLsbD 0 then (c >>> 1) ^^^ poly else c >>> 1

/-- One bit of the input, laid over the lowest bit. -/
def shiftBit (poly c : BitVec w) (b : Bool) : BitVec w := shift poly (c ^^^ (BitVec.ofBool b).setWidth w)

theorem reverse_shiftLeft (c : BitVec w) : (c <<< 1).reverse = c.reverse >>> 1 := by
  apply BitVec.eq_of_getLsbD_eq
  intro i hi
  rw [BitVec.getLsbD_reverse, BitVec.getLsbD_ushiftRight, BitVec.getLsbD_reverse, BitVec.getMsbD_shiftLeft,
    Nat.add_comm]

theorem reverse_xor (a b : BitVec w) : (a ^^^ b).reverse = a.reverse ^^^ b.reverse := by
  apply BitVec.eq_of_getLsbD_eq
  intro i hi
  rw [BitVec.getLsbD_reverse, BitVec.getMsbD_xor, BitVec.getLsbD_xor, BitVec.getLsbD_reverse,
    BitVec.getLsbD_reverse]

theorem shiftRight_ofBool (b : Bool) : (BitVec.ofBool b).setWidth w >>> 1 = 0#w := by
  apply BitVec.eq_of_getLsbD_eq
  intro i hi
  rw [BitVec.getLsbD_ushiftRight, BitVec.getLsbD_setWidth, BitVec.getLsbD_of_ge _ _ (by omega)]
  simp

/-- **Turned around, one bit is one place down.** -/
theorem reverse_bit (hw : 0 < w) (p : Spec w) (c : BitVec w) (b : Bool) :
    (p.bit c b).reverse = shiftBit p.poly.reverse c.reverse b := by
  have hlow : (c.reverse ^^^ (BitVec.ofBool b).setWidth w).getLsbD 0 = (c.msb != b) := by
    rw [BitVec.getLsbD_xor, BitVec.getLsbD_reverse, BitVec.getLsbD_setWidth, ← BitVec.msb]
    cases b <;> simp [hw]
  have hrest : (c.reverse ^^^ (BitVec.ofBool b).setWidth w) >>> 1 = c.reverse >>> 1 := by
    rw [BitVec.ushiftRight_xor_distrib, shiftRight_ofBool, BitVec.xor_zero]
  unfold Spec.bit shiftBit shift
  rw [hlow, hrest]
  split
  · rw [reverse_xor, reverse_shiftLeft]
  · rw [reverse_shiftLeft]

theorem reverse_foldl (hw : 0 < w) (p : Spec w) (bits : List Bool) (c : BitVec w) :
    (bits.foldl p.bit c).reverse = bits.foldl (shiftBit p.poly.reverse) c.reverse := by
  induction bits generalizing c with
  | nil => rfl
  | cons b bits ih => rw [List.foldl_cons, List.foldl_cons, ih, reverse_bit hw]

/-! ## Eight places at a time -/

variable (poly : BitVec w)

theorem xor_xor_cancel (a b p : BitVec w) : (a ^^^ p) ^^^ (b ^^^ p) = a ^^^ b := by
  rw [BitVec.xor_assoc a p, ← BitVec.xor_assoc p, BitVec.xor_comm p b, BitVec.xor_assoc b,
    BitVec.xor_self, BitVec.xor_zero]

/-- **A shift is linear.** -/
theorem shift_xor (a b : BitVec w) : shift poly (a ^^^ b) = shift poly a ^^^ shift poly b := by
  unfold shift
  rw [BitVec.getLsbD_xor, BitVec.ushiftRight_xor_distrib]
  cases a.getLsbD 0 with
  | false =>
      cases b.getLsbD 0 with
      | false => rfl
      | true => exact BitVec.xor_assoc _ _ _
  | true =>
      cases b.getLsbD 0 with
      | false =>
          show (a >>> 1 ^^^ b >>> 1) ^^^ poly = (a >>> 1 ^^^ poly) ^^^ b >>> 1
          rw [BitVec.xor_assoc, BitVec.xor_comm (b >>> 1), BitVec.xor_assoc]
      | true => exact (xor_xor_cancel _ _ _).symm

theorem shifts_xor (n : Nat) (a b : BitVec w) :
    (shift poly)^[n] (a ^^^ b) = (shift poly)^[n] a ^^^ (shift poly)^[n] b := by
  induction n generalizing a b with
  | zero => rfl
  | succ n ih => rw [Function.iterate_succ_apply, Function.iterate_succ_apply,
      Function.iterate_succ_apply, shift_xor, ih]

/-- A register whose lowest bits are clear only moves down. -/
theorem shifts_clear {n : Nat} {c : BitVec w} (h : ∀ i < n, c.getLsbD i = false) :
    (shift poly)^[n] c = c >>> n := by
  induction n with
  | zero => exact (BitVec.ushiftRight_zero c).symm
  | succ n ih =>
      have hlow : (c >>> n).getLsbD 0 = false := by
        rw [BitVec.getLsbD_ushiftRight]
        exact h n (Nat.lt_succ_self n)
      rw [Function.iterate_succ_apply', ih fun i hi => h i (Nat.lt_succ_of_lt hi), shift, hlow,
        if_neg (by decide), BitVec.shiftRight_add]

/-- A register is its lowest byte and what stands above it. -/
theorem split_low (c : BitVec w) : c = (c &&& 0xff#w) ^^^ (c &&& ~~~0xff#w) := by
  apply BitVec.eq_of_getLsbD_eq
  intro i hi
  rw [BitVec.getLsbD_xor, BitVec.getLsbD_and, BitVec.getLsbD_and, BitVec.getLsbD_not, decide_eq_true hi,
    Bool.true_and]
  cases c.getLsbD i <;> cases (0xff#w).getLsbD i <;> rfl

theorem getLsbD_byte {i : Nat} (hi : i < w) : (0xff#w).getLsbD i = decide (i < 8) := by
  rw [BitVec.getLsbD_ofNat, decide_eq_true hi, Bool.true_and, show 0xff = 2 ^ 8 - 1 by rfl,
    Nat.testBit_two_pow_sub_one]

/-- **Eight shifts** are those of the lowest byte over the rest, moved down eight places. -/
theorem shift_eight (c : BitVec w) :
    (shift poly)^[8] c = (c >>> 8) ^^^ (shift poly)^[8] (c &&& 0xff#w) := by
  have hclear : ∀ i < 8, (c &&& ~~~0xff#w).getLsbD i = false := by
    intro i hi
    by_cases hw : i < w
    · rw [BitVec.getLsbD_and, BitVec.getLsbD_not, getLsbD_byte hw, decide_eq_true hi]
      simp
    · exact BitVec.getLsbD_of_ge _ _ (Nat.le_of_not_lt hw)
  have hhigh : (c &&& ~~~0xff#w) >>> 8 = c >>> 8 := by
    apply BitVec.eq_of_getLsbD_eq
    intro i hi
    rw [BitVec.getLsbD_ushiftRight, BitVec.getLsbD_ushiftRight]
    by_cases hw : 8 + i < w
    · rw [BitVec.getLsbD_and, BitVec.getLsbD_not, getLsbD_byte hw]
      simp [hw]
    · rw [BitVec.getLsbD_of_ge _ _ (Nat.le_of_not_lt hw), BitVec.getLsbD_of_ge _ _ (Nat.le_of_not_lt hw)]
  calc (shift poly)^[8] c = (shift poly)^[8] ((c &&& 0xff#w) ^^^ (c &&& ~~~0xff#w)) := by rw [← split_low]
    _ = (c >>> 8) ^^^ (shift poly)^[8] (c &&& 0xff#w) := by
        rw [shifts_xor, shifts_clear poly hclear, hhigh, BitVec.xor_comm]

/-! ## A byte laid over the register -/

/-- Bits laid at the lowest places of a register, the first at the lowest. -/
def lay (w : Nat) : List Bool → BitVec w
  | [] => 0#w
  | b :: bits => (BitVec.ofBool b).setWidth w ^^^ lay w bits <<< 1

theorem getLsbD_lay {bits : List Bool} {i : Nat} (hi : i < w) :
    (lay w bits).getLsbD i = (bits[i]?).getD false := by
  induction bits generalizing i with
  | nil => simp [lay]
  | cons b bits ih =>
      rw [lay, BitVec.getLsbD_xor, BitVec.getLsbD_setWidth, BitVec.getLsbD_shiftLeft]
      cases i with
      | zero => cases b <;> simp [hi]
      | succ i =>
          rw [List.getElem?_cons_succ, ← ih (Nat.lt_of_succ_lt hi), BitVec.getLsbD_of_ge (BitVec.ofBool b) _
            (Nat.succ_le_succ (Nat.zero_le i))]
          simp [hi]

/-- **Bits fed one at a time** are the bits laid over the register and moved out. -/
theorem foldl_shiftBit {bits : List Bool} (h : bits.length ≤ w) (c : BitVec w) :
    bits.foldl (shiftBit poly) c = (shift poly)^[bits.length] (c ^^^ lay w bits) := by
  induction bits generalizing c with
  | nil => exact (BitVec.xor_zero).symm
  | cons b bits ih =>
      rw [List.length_cons] at h
      have hout : shift poly (lay w bits <<< 1) = lay w bits := by
        have hone := shifts_clear poly (n := 1) (c := lay w bits <<< 1) fun i hi => by
          rw [Nat.lt_one_iff.mp hi, BitVec.getLsbD_shiftLeft]
          simp
        refine hone.trans (BitVec.eq_of_getLsbD_eq fun i hi => ?_)
        rw [BitVec.getLsbD_ushiftRight, BitVec.getLsbD_shiftLeft]
        by_cases hi' : 1 + i < w
        · rw [decide_eq_true hi', Nat.add_sub_cancel_left, decide_eq_false (by omega : ¬ 1 + i < 1)]
          rfl
        · have hnone : bits[i]? = none := List.getElem?_eq_none (by omega)
          rw [getLsbD_lay hi, hnone]
          simp [hi']
      rw [List.foldl_cons, ih (Nat.le_of_succ_le h), List.length_cons, Function.iterate_succ_apply, lay,
        ← BitVec.xor_assoc, shift_xor poly _ (lay w bits <<< 1), hout]
      rfl

theorem lay_bitsOf (b : UInt8) : lay w (bitsOf b) = b.toBitVec.setWidth w := by
  apply BitVec.eq_of_getLsbD_eq
  intro i hi
  rw [getLsbD_lay hi, BitVec.getLsbD_setWidth, decide_eq_true hi, Bool.true_and, bitsOf, List.getElem?_map]
  by_cases h8 : i < 8
  · rw [List.getElem?_range h8]
    rfl
  · rw [List.getElem?_eq_none (by rw [List.length_range]; omega), BitVec.getLsbD_of_ge _ _ (by omega)]
    rfl

/-- One byte of the input, from the table. -/
def step (c : BitVec w) (b : UInt8) : BitVec w :=
  (c >>> 8) ^^^ (shift poly)^[8] ((c ^^^ b.toBitVec.setWidth w) &&& 0xff#w)

theorem foldl_bitsOf (hw : 8 ≤ w) (c : BitVec w) (b : UInt8) :
    (bitsOf b).foldl (shiftBit poly) c = step poly c b := by
  have hbyte : b.toBitVec.setWidth w >>> 8 = 0#w := by
    apply BitVec.eq_of_getLsbD_eq
    intro i hi
    rw [BitVec.getLsbD_ushiftRight, BitVec.getLsbD_setWidth, BitVec.getLsbD_of_ge b.toBitVec _ (by omega)]
    simp
  rw [foldl_shiftBit poly (show (bitsOf b).length ≤ w by simpa [bitsOf] using hw), lay_bitsOf,
    show (bitsOf b).length = 8 by simp [bitsOf], shift_eight, BitVec.ushiftRight_xor_distrib, hbyte,
    BitVec.xor_zero, step]

/-! ## A narrow register in a wide one -/

section Wide

variable {v : Nat} {poly}

theorem setWidth_ushiftRight (h : w ≤ v) (c : BitVec w) (n : Nat) :
    (c >>> n).setWidth v = c.setWidth v >>> n := by
  apply BitVec.eq_of_getLsbD_eq
  intro i hi
  rw [BitVec.getLsbD_setWidth, BitVec.getLsbD_ushiftRight, BitVec.getLsbD_ushiftRight,
    BitVec.getLsbD_setWidth, decide_eq_true hi, Bool.true_and]
  by_cases hn : n + i < v
  · rw [decide_eq_true hn, Bool.true_and]
  · rw [BitVec.getLsbD_of_ge c _ (by omega), Bool.and_false]

/-- A register of fewer bits does in a wider one what it does by itself. -/
theorem setWidth_shift (hw : 0 < w) (h : w ≤ v) (c : BitVec w) :
    (shift poly c).setWidth v = shift (poly.setWidth v) (c.setWidth v) := by
  have hlow : (c.setWidth v).getLsbD 0 = c.getLsbD 0 := by
    rw [BitVec.getLsbD_setWidth, decide_eq_true (Nat.lt_of_lt_of_le hw h), Bool.true_and]
  unfold shift
  rw [hlow]
  split
  · rw [BitVec.setWidth_xor, setWidth_ushiftRight h]
  · rw [setWidth_ushiftRight h]

theorem setWidth_shifts (hw : 0 < w) (h : w ≤ v) (n : Nat) (c : BitVec w) :
    ((shift poly)^[n] c).setWidth v = (shift (poly.setWidth v))^[n] (c.setWidth v) := by
  induction n generalizing c with
  | zero => rfl
  | succ n ih => rw [Function.iterate_succ_apply, Function.iterate_succ_apply, ih, setWidth_shift hw h]

theorem setWidth_step (hw : 8 ≤ w) (h : w ≤ v) (c : BitVec w) (b : UInt8) :
    (step poly c b).setWidth v = step (poly.setWidth v) (c.setWidth v) b := by
  have hbyte : (0xff#w).setWidth v = 0xff#v := by
    apply BitVec.eq_of_getLsbD_eq
    intro i hi
    rw [BitVec.getLsbD_setWidth, decide_eq_true hi, Bool.true_and, getLsbD_byte hi]
    by_cases hiw : i < w
    · exact getLsbD_byte hiw
    · rw [BitVec.getLsbD_of_ge _ _ (Nat.le_of_not_lt hiw), decide_eq_false (by omega)]
  have hinput : (b.toBitVec.setWidth w).setWidth v = b.toBitVec.setWidth v := by
    apply BitVec.eq_of_getLsbD_eq
    intro i hi
    rw [BitVec.getLsbD_setWidth, BitVec.getLsbD_setWidth, BitVec.getLsbD_setWidth, decide_eq_true hi,
      Bool.true_and, Bool.true_and]
    by_cases hiw : i < w
    · rw [decide_eq_true hiw, Bool.true_and]
    · rw [BitVec.getLsbD_of_ge b.toBitVec _ (by omega), Bool.and_false]
  unfold step
  rw [BitVec.setWidth_xor, setWidth_ushiftRight h, setWidth_shifts (by omega) h, BitVec.setWidth_and,
    BitVec.setWidth_xor, hbyte, hinput]

theorem setWidth_foldl (hw : 8 ≤ w) (h : w ≤ v) (bs : List UInt8) (c : BitVec w) :
    (bs.foldl (step poly) c).setWidth v = bs.foldl (step (poly.setWidth v)) (c.setWidth v) := by
  induction bs generalizing c with
  | nil => rfl
  | cons b bs ih => rw [List.foldl_cons, List.foldl_cons, ih, setWidth_step hw h]

end Wide

/-- **The CRC a byte at a time**, from the table. -/
theorem crc_eq_foldl (hw : 8 ≤ w) (p : Spec w) (bs : List UInt8) :
    p.crc bs = bs.foldl (step p.poly.reverse) p.init.reverse ^^^ p.xorOut := by
  have hfold : ∀ c : BitVec w, (bs.flatMap bitsOf).foldl (shiftBit p.poly.reverse) c =
      bs.foldl (step p.poly.reverse) c := by
    induction bs with
    | nil => exact fun c => rfl
    | cons b bs ih =>
        intro c
        rw [List.flatMap_cons, List.foldl_append, foldl_bitsOf _ hw, ih, List.foldl_cons]
  rw [Spec.crc, reverse_foldl (by omega), hfold]

end DtnCustody.Base.Crc
