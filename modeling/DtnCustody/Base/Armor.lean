/-
# DtnCustody.Base.Armor — bytes as text: hexadecimal and base64, written strictly and read leniently.

Hexadecimal is written in lowercase. The reader is that of `Buffer.from(s, "hex")`: it takes both cases, stops
at the first pair that is not two digits, and drops a digit left over. Base64 is that of RFC 4648 with padding.
The reader is the forgiving one of `Buffer.from(s, "base64")`: it takes both alphabets, passes over every other
character, ends at the first `=`, and drops a sextet left over on its own.

So every string reads as some bytes, and two strings can read as the same ones; `decode_encode` is in both the
direction that holds.
-/
import DtnCustody.Base.Text

namespace DtnCustody.Base.Hex

/-- The code unit of a digit. -/
def digit (n : Nat) : UInt16 := UInt16.ofNat (if n < 10 then 48 + n else 87 + n)

def digit? (u : UInt16) : Option Nat :=
  let n := u.toNat
  if 48 ≤ n ∧ n < 58 then some (n - 48)
  else if 97 ≤ n ∧ n < 103 then some (n - 87)
  else if 65 ≤ n ∧ n < 71 then some (n - 55)
  else none

def encode (bs : Bytes) : JsString := bs.flatMap fun b => [digit (b.toNat / 16), digit (b.toNat % 16)]

def decode : JsString → Bytes
  | u :: v :: rest =>
      match digit? u, digit? v with
      | some m, some n => UInt8.ofNat (m * 16 + n) :: decode rest
      | _, _ => []
  | _ => []

theorem digit?_digit : ∀ {n : Nat}, n < 16 → digit? (digit n) = some n := by decide

theorem decode_encode (bs : Bytes) : decode (encode bs) = bs := by
  induction bs with
  | nil => rfl
  | cons b bs ih =>
      have hb := b.toNat_lt
      have hval : b.toNat / 16 * 16 + b.toNat % 16 = b.toNat := by omega
      show decode (digit (b.toNat / 16) :: digit (b.toNat % 16) :: encode bs) = _
      rw [decode, digit?_digit (by omega), digit?_digit (by omega)]
      simp only [hval, UInt8.ofNat_toNat, ih]

theorem encode_injective : Function.Injective encode := fun a b h => by
  rw [← decode_encode a, h, decode_encode]

@[simp] theorem length_encode (bs : Bytes) : (encode bs).length = 2 * bs.length := by
  induction bs with
  | nil => rfl
  | cons b bs ih =>
      show (encode bs).length + 2 = 2 * (bs.length + 1)
      rw [ih]
      ring

theorem wellFormed_digit {n : Nat} (h : n < 16) : WellFormed [digit n] := by
  have hplain : ∀ n : Nat, n < 16 →
      isHighSurrogate (digit n) = false ∧ isLowSurrogate (digit n) = false := by decide
  exact wellFormed_unit (hplain n h).1 (hplain n h).2

theorem wellFormed_encode (bs : Bytes) : WellFormed (encode bs) := by
  induction bs with
  | nil => exact wellFormed_nil
  | cons b bs ih =>
      have hb := b.toNat_lt
      have hhi : b.toNat / 16 < 16 := by omega
      have hlo : b.toNat % 16 < 16 := by omega
      exact (wellFormed_digit hhi).append ((wellFormed_digit hlo).append ih)

end DtnCustody.Base.Hex

namespace DtnCustody.Base.Base64

/-! ## Sextets -/

def toSextets : Bytes → List Nat
  | x :: y :: z :: rest =>
      x.toNat / 4 :: (x.toNat % 4 * 16 + y.toNat / 16) :: (y.toNat % 16 * 4 + z.toNat / 64)
        :: z.toNat % 64 :: toSextets rest
  | [x, y] => [x.toNat / 4, x.toNat % 4 * 16 + y.toNat / 16, y.toNat % 16 * 4]
  | [x] => [x.toNat / 4, x.toNat % 4 * 16]
  | [] => []

def ofSextets : List Nat → Bytes
  | a :: b :: c :: d :: rest =>
      UInt8.ofNat (a * 4 + b / 16) :: UInt8.ofNat (b % 16 * 16 + c / 4)
        :: UInt8.ofNat (c % 4 * 64 + d) :: ofSextets rest
  | [a, b, c] => [UInt8.ofNat (a * 4 + b / 16), UInt8.ofNat (b % 16 * 16 + c / 4)]
  | [a, b] => [UInt8.ofNat (a * 4 + b / 16)]
  | _ => []

private theorem ofNat_eq {x : UInt8} {n : Nat} (h : n = x.toNat) : UInt8.ofNat n = x := by
  rw [h, UInt8.ofNat_toNat]

theorem ofSextets_toSextets (bs : Bytes) : ofSextets (toSextets bs) = bs := by
  induction bs using toSextets.induct with
  | case1 x y z rest ih =>
      have hx := x.toNat_lt
      have hy := y.toNat_lt
      have hz := z.toNat_lt
      rw [toSextets, ofSextets, ih, ofNat_eq (x := x) (by omega), ofNat_eq (x := y) (by omega),
        ofNat_eq (x := z) (by omega)]
  | case2 x y =>
      have hx := x.toNat_lt
      have hy := y.toNat_lt
      rw [toSextets, ofSextets, ofNat_eq (x := x) (by omega), ofNat_eq (x := y) (by omega)]
  | case3 x =>
      have hx := x.toNat_lt
      rw [toSextets, ofSextets, ofNat_eq (x := x) (by omega)]
  | case4 => rfl

theorem toSextets_lt (bs : Bytes) : ∀ n ∈ toSextets bs, n < 64 := by
  induction bs using toSextets.induct with
  | case1 x y z rest ih =>
      have hx := x.toNat_lt
      have hy := y.toNat_lt
      have hz := z.toNat_lt
      intro n hn
      simp only [toSextets, List.mem_cons] at hn
      rcases hn with rfl | rfl | rfl | rfl | hn
      · omega
      · omega
      · omega
      · omega
      · exact ih n hn
  | case2 x y =>
      have hx := x.toNat_lt
      have hy := y.toNat_lt
      intro n hn
      simp only [toSextets, List.mem_cons, List.not_mem_nil, or_false] at hn
      rcases hn with rfl | rfl | rfl <;> omega
  | case3 x =>
      have hx := x.toNat_lt
      intro n hn
      simp only [toSextets, List.mem_cons, List.not_mem_nil, or_false] at hn
      rcases hn with rfl | rfl <;> omega
  | case4 => intro n hn; cases hn

/-! ## Characters -/

def charOf (n : Nat) : Char :=
  if n < 26 then Char.ofNat (n + 65)
  else if n < 52 then Char.ofNat (n + 71)
  else if n < 62 then Char.ofNat (n - 4)
  else if n = 62 then '+'
  else '/'

/-- The sextet of a character of either alphabet. -/
def sextet? (c : Char) : Option Nat :=
  if 'A' ≤ c ∧ c ≤ 'Z' then some (c.toNat - 65)
  else if 'a' ≤ c ∧ c ≤ 'z' then some (c.toNat - 71)
  else if '0' ≤ c ∧ c ≤ '9' then some (c.toNat + 4)
  else if c = '+' ∨ c = '-' then some 62
  else if c = '/' ∨ c = '_' then some 63
  else none

theorem sextet?_charOf : ∀ n < 64, sextet? (charOf n) = some n ∧ charOf n ≠ '=' := by decide

def padding (bs : Bytes) : List Char :=
  if bs.length % 3 = 1 then ['=', '='] else if bs.length % 3 = 2 then ['='] else []

def encode (bs : Bytes) : List Char := (toSextets bs).map charOf ++ padding bs

def decode (cs : List Char) : Bytes := ofSextets ((cs.takeWhile (· ≠ '=')).filterMap sextet?)

theorem takeWhile_encode (bs : Bytes) :
    (encode bs).takeWhile (· ≠ '=') = (toSextets bs).map charOf := by
  have hne : ∀ c ∈ (toSextets bs).map charOf, decide (c ≠ '=') = true := by
    intro c hc
    obtain ⟨n, hn, rfl⟩ := List.mem_map.mp hc
    exact decide_eq_true (sextet?_charOf n (toSextets_lt bs n hn)).2
  have hpad : (padding bs).takeWhile (· ≠ '=') = [] := by
    unfold padding
    split_ifs <;> rfl
  rw [encode, List.takeWhile_append_of_pos hne, hpad, List.append_nil]

theorem decode_encode (bs : Bytes) : decode (encode bs) = bs := by
  have hsex : ((toSextets bs).map charOf).filterMap sextet? = toSextets bs := by
    rw [List.filterMap_map]
    have hsome : ∀ n ∈ toSextets bs, (sextet? ∘ charOf) n = some n := fun n hn =>
      (sextet?_charOf n (toSextets_lt bs n hn)).1
    rw [List.filterMap_congr hsome, List.filterMap_some]
  rw [decode, takeWhile_encode, hsex, ofSextets_toSextets]

end DtnCustody.Base.Base64
