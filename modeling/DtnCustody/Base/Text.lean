/-
# DtnCustody.Base.Text — UTF-16 strings, integers, and the byte strings they are carried in.

A JavaScript string is a sequence of UTF-16 code units, a byte string is what the wire and the hash
functions see, and the two meet in UTF-8. Both directions go through Unicode scalar values
(`Char`): `scalars` reads a string (a lone surrogate becomes U+FFFD), `utf16` writes one, and
`utf8Decode` is the WHATWG decoder, which replaces every maximal ill-formed subpart by U+FFFD and
never fails. Integers are carried big-endian (`beBytes`).

The two facts the development rests on are the round trips `utf8Decode_utf8Encode` (on scalar
values) and `ofUtf8_toUtf8` (on well-formed strings). Below 128 a code unit is a character and its encoding
is one byte, so on such text the encoder and the decoder are maps over the units (`toUtf8_ascii`,
`ofUtf8_unitsOf`). Nothing here names a protocol.
-/
import Mathlib.Data.List.Basic
import Mathlib.Data.List.Induction
import Mathlib.Tactic.Common
import Mathlib.Tactic.Ring

namespace DtnCustody.Base

abbrev Bytes := List UInt8

/-- A string as its UTF-16 code units. -/
abbrev JsString := List UInt16

instance : LawfulBEq JsString := inferInstance

/-! ## UTF-16 -/

/-- The code units of one scalar value: one unit, or a surrogate pair above U+FFFF. -/
def utf16Char (c : Char) : List UInt16 :=
  if c.toNat < 0x10000 then [UInt16.ofNat c.toNat]
  else [UInt16.ofNat (0xD800 + (c.toNat - 0x10000) / 0x400),
        UInt16.ofNat (0xDC00 + (c.toNat - 0x10000) % 0x400)]

def utf16 (cs : List Char) : JsString := cs.flatMap utf16Char

/-- A string literal as code units. -/
def js (s : String) : JsString := utf16 s.toList

instance : Coe String JsString := ⟨js⟩

def replacementChar : Char := '\uFFFD'

def isHighSurrogate (u : UInt16) : Bool := 0xD800 ≤ u.toNat && u.toNat < 0xDC00
def isLowSurrogate (u : UInt16) : Bool := 0xDC00 ≤ u.toNat && u.toNat < 0xE000

/-- A unit on its own: a lone surrogate reads as U+FFFD. -/
def unitScalar (u : UInt16) : Char :=
  if isHighSurrogate u || isLowSurrogate u then replacementChar else Char.ofNat u.toNat

def pairScalar (hi lo : UInt16) : Char :=
  Char.ofNat (0x10000 + (hi.toNat - 0xD800) * 0x400 + (lo.toNat - 0xDC00))

/-- The scalar values of a string, as `Buffer.from(s, "utf8")` reads them. -/
def scalars : JsString → List Char
  | [] => []
  | [u] => [unitScalar u]
  | u :: v :: rest =>
      if isHighSurrogate u && isLowSurrogate v then pairScalar u v :: scalars rest
      else unitScalar u :: scalars (v :: rest)

theorem char_range (c : Char) :
    c.toNat < 0xD800 ∨ (0xDFFF < c.toNat ∧ c.toNat < 0x110000) := c.valid

theorem scalars_cons_low {u : UInt16} (h : isHighSurrogate u = false) (rest : JsString) :
    scalars (u :: rest) = unitScalar u :: scalars rest := by
  cases rest with
  | nil => simp [scalars]
  | cons v rest => simp [scalars, h]

theorem scalars_utf16Char_append (c : Char) (rest : JsString) :
    scalars (utf16Char c ++ rest) = c :: scalars rest := by
  have hc := char_range c
  by_cases h : c.toNat < 0x10000
  · have hn : (UInt16.ofNat c.toNat).toNat = c.toNat := by
      rw [UInt16.toNat_ofNat']; exact Nat.mod_eq_of_lt h
    have hhi : isHighSurrogate (UInt16.ofNat c.toNat) = false := by
      simp only [isHighSurrogate, hn, Bool.and_eq_false_iff, decide_eq_false_iff_not]; omega
    have hlo : isLowSurrogate (UInt16.ofNat c.toNat) = false := by
      simp only [isLowSurrogate, hn, Bool.and_eq_false_iff, decide_eq_false_iff_not]; omega
    simp only [utf16Char, h, if_true, List.singleton_append, scalars_cons_low hhi]
    simp [unitScalar, hhi, hlo, hn, Char.ofNat_toNat]
  · set hi := 0xD800 + (c.toNat - 0x10000) / 0x400 with hhi
    set lo := 0xDC00 + (c.toNat - 0x10000) % 0x400 with hlo
    have h1 : (UInt16.ofNat hi).toNat = hi := by
      rw [UInt16.toNat_ofNat']; apply Nat.mod_eq_of_lt; omega
    have h2 : (UInt16.ofNat lo).toNat = lo := by
      rw [UInt16.toNat_ofNat']; apply Nat.mod_eq_of_lt; omega
    have hpair : (isHighSurrogate (UInt16.ofNat hi) && isLowSurrogate (UInt16.ofNat lo)) = true := by
      simp only [isHighSurrogate, isLowSurrogate, h1, h2, Bool.and_eq_true, decide_eq_true_eq]
      omega
    have hval : 0x10000 + (hi - 0xD800) * 0x400 + (lo - 0xDC00) = c.toNat := by omega
    simp only [utf16Char, h, if_false, List.cons_append, List.nil_append, ← hhi, ← hlo, scalars,
      hpair, if_true, pairScalar, h1, h2, hval, Char.ofNat_toNat]

theorem scalars_utf16 (cs : List Char) : scalars (utf16 cs) = cs := by
  induction cs with
  | nil => rfl
  | cons c cs ih =>
      have h : utf16 (c :: cs) = utf16Char c ++ utf16 cs := rfl
      rw [h, scalars_utf16Char_append, ih]

theorem js_inj {s t : String} : js s = js t ↔ s = t := by
  refine ⟨fun h => ?_, congrArg js⟩
  have hscalars := congrArg scalars h
  rw [js, js, scalars_utf16, scalars_utf16] at hscalars
  exact String.toList_inj.mp hscalars

/-- No lone surrogate: the string is the UTF-16 form of some scalar values. -/
def WellFormed (s : JsString) : Prop := utf16 (scalars s) = s

instance (s : JsString) : Decidable (WellFormed s) := inferInstanceAs (Decidable (_ = _))

theorem wellFormed_utf16 (cs : List Char) : WellFormed (utf16 cs) := by
  rw [WellFormed, scalars_utf16]

theorem wellFormed_js (s : String) : WellFormed (js s) := wellFormed_utf16 _

theorem utf16_append (cs ds : List Char) : utf16 (cs ++ ds) = utf16 cs ++ utf16 ds :=
  List.flatMap_append

theorem WellFormed.append {s t : JsString} (hs : WellFormed s) (ht : WellFormed t) :
    WellFormed (s ++ t) := by
  have h : utf16 (scalars s ++ scalars t) = s ++ t := by rw [utf16_append, hs, ht]
  rw [← h]
  exact wellFormed_utf16 _

theorem wellFormed_nil : WellFormed [] := rfl

theorem toNat_charOfNat {n : Nat} (h : n.isValidChar) : (Char.ofNat n).toNat = n := by
  unfold Char.ofNat
  rw [dif_pos h]
  rfl

/-- A unit that is not half of a pair stands for itself. -/
theorem wellFormed_unit {u : UInt16} (hhi : isHighSurrogate u = false)
    (hlo : isLowSurrogate u = false) : WellFormed [u] := by
  have hlt := u.toNat_lt
  simp only [isHighSurrogate, Bool.and_eq_false_iff, decide_eq_false_iff_not] at hhi
  simp only [isLowSurrogate, Bool.and_eq_false_iff, decide_eq_false_iff_not] at hlo
  have hvalid : u.toNat.isValidChar := by
    unfold Nat.isValidChar
    omega
  have hchar : (Char.ofNat u.toNat).toNat = u.toNat := toNat_charOfNat hvalid
  have h : utf16 [Char.ofNat u.toNat] = [u] := by
    show utf16Char (Char.ofNat u.toNat) ++ [] = [u]
    rw [utf16Char, hchar, if_pos (by omega)]
    simp
  rw [← h]
  exact wellFormed_utf16 _

theorem wellFormed_pair {hi lo : UInt16} (hhi : isHighSurrogate hi = true)
    (hlo : isLowSurrogate lo = true) : WellFormed [hi, lo] := by
  simp only [isHighSurrogate, Bool.and_eq_true, decide_eq_true_eq] at hhi
  simp only [isLowSurrogate, Bool.and_eq_true, decide_eq_true_eq] at hlo
  obtain ⟨n, hn⟩ : ∃ n, n = 0x10000 + (hi.toNat - 0xD800) * 0x400 + (lo.toNat - 0xDC00) := ⟨_, rfl⟩
  have hvalid : n.isValidChar := by
    unfold Nat.isValidChar
    omega
  have h1 : 0xD800 + (n - 0x10000) / 0x400 = hi.toNat := by omega
  have h2 : 0xDC00 + (n - 0x10000) % 0x400 = lo.toNat := by omega
  have h : utf16 [Char.ofNat n] = [hi, lo] := by
    show utf16Char (Char.ofNat n) ++ [] = [hi, lo]
    rw [utf16Char, toNat_charOfNat hvalid, if_neg (by omega), h1, h2, UInt16.ofNat_toNat,
      UInt16.ofNat_toNat, List.append_nil]
  rw [← h]
  exact wellFormed_utf16 _

/-! ## UTF-8 -/

def utf8Encode (cs : List Char) : Bytes := cs.flatMap String.utf8EncodeChar

/-- Where the decoder stands: between characters, or `owed` continuation bytes short of one, the
next of which must lie in `lo..hi`, with `cp` read so far. -/
inductive Utf8State where
  | start
  | owing (owed lo hi cp : Nat)
  deriving DecidableEq, Repr

/-- A byte read between characters. -/
def utf8First (b : Nat) : List Char × Utf8State :=
  if b < 0x80 then ([Char.ofNat b], .start)
  else if 0xC2 ≤ b ∧ b < 0xE0 then ([], .owing 0 0x80 0xBF (b - 0xC0))
  else if 0xE0 ≤ b ∧ b < 0xF0 then
    ([], .owing 1 (if b = 0xE0 then 0xA0 else 0x80) (if b = 0xED then 0x9F else 0xBF) (b - 0xE0))
  else if 0xF0 ≤ b ∧ b < 0xF5 then
    ([], .owing 2 (if b = 0xF0 then 0x90 else 0x80) (if b = 0xF4 then 0x8F else 0xBF) (b - 0xF0))
  else ([replacementChar], .start)

/-- One byte. A byte that cannot continue the character being read replaces it by U+FFFD and is
read again from between characters. -/
def utf8Step : Utf8State → Nat → List Char × Utf8State
  | .start, b => utf8First b
  | .owing owed lo hi cp, b =>
      if lo ≤ b ∧ b ≤ hi then
        match owed with
        | 0 => ([Char.ofNat (cp * 64 + (b - 0x80))], .start)
        | owed + 1 => ([], .owing owed 0x80 0xBF (cp * 64 + (b - 0x80)))
      else (replacementChar :: (utf8First b).1, (utf8First b).2)

def utf8Run : Utf8State → Bytes → List Char
  | .start, [] => []
  | .owing .., [] => [replacementChar]
  | q, b :: bs => (utf8Step q b.toNat).1 ++ utf8Run (utf8Step q b.toNat).2 bs

def utf8Decode (bs : Bytes) : List Char := utf8Run .start bs

theorem utf8Run_cons (q : Utf8State) (b : UInt8) (bs : Bytes) :
    utf8Run q (b :: bs) = (utf8Step q b.toNat).1 ++ utf8Run (utf8Step q b.toNat).2 bs := by
  cases q <;> rfl

/-- A byte that continues the character being read. -/
private theorem utf8Run_owing_succ {owed lo hi cp n : Nat} (hn : n < 256) (h1 : lo ≤ n) (h2 : n ≤ hi)
    (bs : Bytes) :
    utf8Run (.owing (owed + 1) lo hi cp) (UInt8.ofNat n :: bs)
      = utf8Run (.owing owed 0x80 0xBF (cp * 64 + (n - 0x80))) bs := by
  rw [utf8Run_cons, UInt8.toNat_ofNat_of_lt' hn]
  simp [utf8Step, h1, h2]

/-- The byte that completes it. -/
private theorem utf8Run_owing_zero {lo hi cp n : Nat} {c : Char} (hn : n < 256) (h1 : lo ≤ n)
    (h2 : n ≤ hi) (hc : cp * 64 + (n - 0x80) = c.toNat) (bs : Bytes) :
    utf8Run (.owing 0 lo hi cp) (UInt8.ofNat n :: bs) = c :: utf8Run .start bs := by
  rw [utf8Run_cons, UInt8.toNat_ofNat_of_lt' hn]
  simp [utf8Step, h1, h2, hc, Char.ofNat_toNat]

theorem utf8Run_encodeChar_append (c : Char) (bs : Bytes) :
    utf8Run .start (String.utf8EncodeChar c ++ bs) = c :: utf8Run .start bs := by
  have hc := char_range c
  have hv : c.val.toNat = c.toNat := rfl
  simp only [String.utf8EncodeChar, hv]
  -- one case for each encoded length
  split_ifs with h1 h2 h3
  · rw [List.singleton_append, utf8Run_cons, UInt8.toNat_ofNat_of_lt' (show _ < 256 by omega)]
    simp [utf8Step, utf8First, show c.toNat < 128 by omega, Char.ofNat_toNat]
  · simp only [List.cons_append, List.nil_append]
    rw [utf8Run_cons, UInt8.toNat_ofNat_of_lt' (show _ < 256 by omega)]
    have hf : utf8First (c.toNat / 64 % 0x20 + 0xc0)
        = ([], .owing 0 0x80 0xBF (c.toNat / 64 % 0x20)) := by
      rw [utf8First, if_neg (by omega), if_pos (by omega)]
      simp
    rw [utf8Step, hf, List.nil_append]
    exact utf8Run_owing_zero (by omega) (by omega) (by omega) (by omega) bs
  · simp only [List.cons_append, List.nil_append]
    rw [utf8Run_cons, UInt8.toNat_ofNat_of_lt' (show _ < 256 by omega)]
    have hf : utf8First (c.toNat / 4096 % 0x10 + 0xe0)
        = ([], .owing 1 (if c.toNat / 4096 % 0x10 = 0 then 0xA0 else 0x80)
            (if c.toNat / 4096 % 0x10 = 0xD then 0x9F else 0xBF) (c.toNat / 4096 % 0x10)) := by
      rw [utf8First, if_neg (by omega), if_neg (by omega), if_pos (by omega)]
      simp
    rw [utf8Step, hf, List.nil_append, utf8Run_owing_succ (by omega) (by split <;> omega)
      (by split <;> omega)]
    exact utf8Run_owing_zero (by omega) (by omega) (by omega) (by omega) bs
  · simp only [List.cons_append, List.nil_append]
    rw [utf8Run_cons, UInt8.toNat_ofNat_of_lt' (show _ < 256 by omega)]
    have hf : utf8First (c.toNat / 262144 % 0x08 + 0xf0)
        = ([], .owing 2 (if c.toNat / 262144 % 0x08 = 0 then 0x90 else 0x80)
            (if c.toNat / 262144 % 0x08 = 4 then 0x8F else 0xBF) (c.toNat / 262144 % 0x08)) := by
      rw [utf8First, if_neg (by omega), if_neg (by omega), if_neg (by omega), if_pos (by omega)]
      simp
    rw [utf8Step, hf, List.nil_append, utf8Run_owing_succ (by omega) (by split <;> omega)
      (by split <;> omega), utf8Run_owing_succ (by omega) (by omega) (by omega)]
    exact utf8Run_owing_zero (by omega) (by omega) (by omega) (by omega) bs

theorem utf8Decode_utf8Encode (cs : List Char) : utf8Decode (utf8Encode cs) = cs := by
  induction cs with
  | nil => rfl
  | cons c cs ih =>
      have h : utf8Encode (c :: cs) = String.utf8EncodeChar c ++ utf8Encode cs := rfl
      rw [utf8Decode, h, utf8Run_encodeChar_append]
      exact congrArg (c :: ·) ih

/-! ## Strings and their bytes -/

/-- `Buffer.from(s, "utf8")`. -/
def toUtf8 (s : JsString) : Bytes := utf8Encode (scalars s)

/-- `buf.toString("utf8")`. -/
def ofUtf8 (bs : Bytes) : JsString := utf16 (utf8Decode bs)

theorem wellFormed_ofUtf8 (bs : Bytes) : WellFormed (ofUtf8 bs) := wellFormed_utf16 _

theorem ofUtf8_toUtf8 {s : JsString} (h : WellFormed s) : ofUtf8 (toUtf8 s) = s := by
  rw [ofUtf8, toUtf8, utf8Decode_utf8Encode]
  exact h

theorem toUtf8_inj {s t : JsString} (hs : WellFormed s) (ht : WellFormed t)
    (h : toUtf8 s = toUtf8 t) : s = t := by
  rw [← ofUtf8_toUtf8 hs, h, ofUtf8_toUtf8 ht]

/-! ## Big-endian integers -/

/-- `n` in `width` bytes, most significant first. -/
def beBytes : (width : Nat) → Nat → Bytes
  | 0, _ => []
  | w + 1, n => beBytes w (n / 256) ++ [UInt8.ofNat (n % 256)]

/-- The integer that bytes spell, most significant first. -/
def beNat (bs : Bytes) : Nat := bs.foldl (fun acc b => acc * 256 + b.toNat) 0

@[simp] theorem length_beBytes (w n : Nat) : (beBytes w n).length = w := by
  induction w generalizing n with
  | zero => rfl
  | succ w ih => simp [beBytes, ih]

theorem beNat_beBytes {w n : Nat} (h : n < 256 ^ w) : beNat (beBytes w n) = n := by
  induction w generalizing n with
  | zero => simp_all [beNat, beBytes]
  | succ w ih =>
      have hdiv : n / 256 < 256 ^ w := by
        rw [Nat.div_lt_iff_lt_mul (by norm_num), ← pow_succ]; exact h
      have hmod : (UInt8.ofNat (n % 256)).toNat = n % 256 := by
        rw [UInt8.toNat_ofNat']; exact Nat.mod_eq_of_lt (Nat.mod_lt _ (by norm_num))
      have ih' : List.foldl (fun acc b => acc * 256 + UInt8.toNat b) 0 (beBytes w (n / 256))
          = n / 256 := ih hdiv
      rw [beNat, beBytes, List.foldl_append, ih', List.foldl_cons, List.foldl_nil, hmod]
      omega

/-! ## Separators -/

/-- What follows the last separator is found again. -/
theorem append_separator_inj {α : Type} {c : α} {xs xs' ys ys' : List α}
    (h : xs ++ c :: ys = xs' ++ c :: ys') (hys : c ∉ ys) (hys' : c ∉ ys') : xs = xs' ∧ ys = ys' := by
  rcases List.append_eq_append_iff.mp h with ⟨zs, rfl, hzs⟩ | ⟨zs, rfl, hzs⟩
  · cases zs with
    | nil => exact ⟨(List.append_nil _).symm, (List.cons.inj hzs).2⟩
    | cons z zs =>
        rw [List.cons_append, List.cons.injEq] at hzs
        exact absurd (hzs.2 ▸ List.mem_append_right zs List.mem_cons_self) hys
  · cases zs with
    | nil => exact ⟨List.append_nil _, (List.cons.inj hzs).2.symm⟩
    | cons z zs =>
        rw [List.cons_append, List.cons.injEq] at hzs
        exact absurd (hzs.2 ▸ List.mem_append_right zs List.mem_cons_self) hys'

/-- What stands before the first separator is found again. -/
theorem separator_append_inj {α : Type} {c : α} {xs xs' ys ys' : List α}
    (h : xs ++ c :: ys = xs' ++ c :: ys') (hxs : c ∉ xs) (hxs' : c ∉ xs') : xs = xs' ∧ ys = ys' := by
  have hrev := congrArg List.reverse h
  rw [List.reverse_append, List.reverse_append, List.reverse_cons, List.reverse_cons, List.append_assoc,
    List.append_assoc] at hrev
  obtain ⟨hys, hxs⟩ := append_separator_inj hrev (by simpa using hxs) (by simpa using hxs')
  exact ⟨List.reverse_injective hxs, List.reverse_injective hys⟩

/-! ## Text that is the same in bytes and in code units -/

def IsAscii (s : JsString) : Prop := ∀ u ∈ s, u.toNat < 128

instance IsAscii.decidable (s : JsString) : Decidable (IsAscii s) :=
  List.decidableBAll (fun u : UInt16 => u.toNat < 128) s

/-- The bytes of a text, a byte a unit. -/
def bytesOf (s : JsString) : Bytes := s.map UInt16.toUInt8

/-- The text of some bytes, a unit a byte. -/
def unitsOf (b : Bytes) : JsString := b.map UInt8.toUInt16

@[simp] theorem bytesOf_append (s t : JsString) : bytesOf (s ++ t) = bytesOf s ++ bytesOf t :=
  List.map_append

@[simp] theorem unitsOf_append (a b : Bytes) : unitsOf (a ++ b) = unitsOf a ++ unitsOf b :=
  List.map_append

@[simp] theorem bytesOf_unitsOf (b : Bytes) : bytesOf (unitsOf b) = b := by
  rw [bytesOf, unitsOf, List.map_map]
  exact List.map_id'' (fun x => UInt8.toUInt8_toUInt16 x) b

theorem unitsOf_bytesOf {s : JsString} (h : IsAscii s) : unitsOf (bytesOf s) = s := by
  rw [unitsOf, bytesOf, List.map_map]
  calc s.map (UInt8.toUInt16 ∘ UInt16.toUInt8) = s.map id :=
        List.map_congr_left fun u hu => by
          have hlt := h u hu
          apply UInt16.toNat_inj.mp
          show u.toNat % 256 = u.toNat
          omega
    _ = s := List.map_id _

theorem isAscii_append {s t : JsString} (hs : IsAscii s) (ht : IsAscii t) : IsAscii (s ++ t) := by
  intro u hu
  rcases List.mem_append.mp hu with hu | hu
  · exact hs u hu
  · exact ht u hu

theorem isAscii_unitsOf {b : Bytes} (h : ∀ x ∈ b, x.toNat < 128) : IsAscii (unitsOf b) := by
  intro u hu
  obtain ⟨x, hx, rfl⟩ := List.mem_map.mp hu
  exact h x hx

theorem encode_ascii {u : UInt16} (h : u.toNat < 128) :
    String.utf8EncodeChar (Char.ofNat u.toNat) = [u.toUInt8] := by
  have hall : ∀ n < 128, String.utf8EncodeChar (Char.ofNat n) = [UInt8.ofNat n] := by decide +kernel
  exact hall u.toNat h

/-- **Encoding plain text.** -/
theorem toUtf8_ascii {s : JsString} (h : IsAscii s) : toUtf8 s = bytesOf s := by
  have hsurrogate : ∀ u ∈ s, isHighSurrogate u = false ∧ isLowSurrogate u = false := by
    intro u hu
    have hlt := h u hu
    simp only [isHighSurrogate, isLowSurrogate, Bool.and_eq_false_iff, decide_eq_false_iff_not]
    constructor <;> left <;> omega
  unfold toUtf8
  induction s with
  | nil => rfl
  | cons u rest ih =>
      have hu := hsurrogate u List.mem_cons_self
      have hscalar : unitScalar u = Char.ofNat u.toNat := by
        rw [unitScalar, hu.1, hu.2]
        rfl
      rw [scalars_cons_low hu.1, hscalar, utf8Encode, List.flatMap_cons,
        encode_ascii (h u List.mem_cons_self)]
      exact congrArg (u.toUInt8 :: ·) (ih (fun v hv => h v (List.mem_cons_of_mem u hv))
        fun v hv => hsurrogate v (List.mem_cons_of_mem u hv))

theorem wellFormed_ascii {s : JsString} (h : IsAscii s) : WellFormed s := by
  induction s with
  | nil => rfl
  | cons u rest ih =>
      have hlt := h u List.mem_cons_self
      have hhi : isHighSurrogate u = false := by
        simp only [isHighSurrogate, Bool.and_eq_false_iff, decide_eq_false_iff_not]
        left
        omega
      have hlo : isLowSurrogate u = false := by
        simp only [isLowSurrogate, Bool.and_eq_false_iff, decide_eq_false_iff_not]
        left
        omega
      exact (wellFormed_unit hhi hlo).append (ih fun v hv => h v (List.mem_cons_of_mem u hv))

/-- **Decoding plain text.** -/
theorem ofUtf8_unitsOf {b : Bytes} (h : ∀ x ∈ b, x.toNat < 128) : ofUtf8 b = unitsOf b := by
  have hascii := isAscii_unitsOf h
  calc ofUtf8 b = ofUtf8 (toUtf8 (unitsOf b)) := by rw [toUtf8_ascii hascii, bytesOf_unitsOf]
    _ = unitsOf b := ofUtf8_toUtf8 (wellFormed_ascii hascii)

end DtnCustody.Base
