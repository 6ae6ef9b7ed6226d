/-
# DtnCustody.Base.Digits — numerals as strings.

Numerals of one length compare as strings as their numbers do (`lt_of_value_lt`), so numbers that are
padded to a common width are in order when they are sorted as text. A numeral in a base of up to 36, with the
digits `0` to `9` and then the small letters, is read as the number it was written for (`radixValue_padded`), and
fits a width exactly when the number is below that power of the base (`length_radixText_le_iff`). Nothing here names
a protocol.
-/
import DtnCustody.Base.Armor
import DtnCustody.Base.Text
import Mathlib.Data.Nat.Digits.Lemmas

namespace DtnCustody.Base

/-- The digits `0` to `9`. -/
def IsDigit (u : UInt16) : Prop := 48 ≤ u.toNat ∧ u.toNat < 58

instance (u : UInt16) : Decidable (IsDigit u) := inferInstanceAs (Decidable (_ ∧ _))

/-- The number that digits spell. -/
def digitsValue (s : JsString) : Nat := s.foldl (fun acc u => acc * 10 + (u.toNat - 48)) 0

theorem foldl_digits (s : JsString) (acc : Nat) :
    s.foldl (fun acc u => acc * 10 + (u.toNat - 48)) acc = acc * 10 ^ s.length + digitsValue s := by
  unfold digitsValue
  induction s generalizing acc with
  | nil => simp
  | cons u s ih =>
      rw [List.foldl_cons, List.foldl_cons, ih, ih (0 * 10 + (u.toNat - 48)), List.length_cons, pow_succ]
      ring

theorem digitsValue_cons (u : UInt16) (s : JsString) :
    digitsValue (u :: s) = (u.toNat - 48) * 10 ^ s.length + digitsValue s := by
  rw [digitsValue, List.foldl_cons, foldl_digits, zero_mul, zero_add]

theorem digitsValue_append (s t : JsString) :
    digitsValue (s ++ t) = digitsValue s * 10 ^ t.length + digitsValue t := by
  rw [digitsValue, List.foldl_append, foldl_digits]
  rfl

theorem digitsValue_lt {s : JsString} (h : ∀ u ∈ s, IsDigit u) : digitsValue s < 10 ^ s.length := by
  induction s with
  | nil => decide
  | cons u s ih =>
      have hrest := ih fun v hv => h v (List.mem_cons_of_mem _ hv)
      have hfirst := h u List.mem_cons_self
      have hnine : u.toNat - 48 ≤ 9 := by
        have := hfirst.2
        omega
      calc digitsValue (u :: s) = (u.toNat - 48) * 10 ^ s.length + digitsValue s :=
            digitsValue_cons u s
        _ < (u.toNat - 48) * 10 ^ s.length + 10 ^ s.length := by omega
        _ ≤ 9 * 10 ^ s.length + 10 ^ s.length :=
            Nat.add_le_add_right (Nat.mul_le_mul_right _ hnine) _
        _ = 10 ^ (u :: s).length := by rw [List.length_cons, pow_succ]; ring

/-- The order of strings is the order of numbers, at one length. -/
theorem value_lt_of_lt {s t : JsString} (hs : ∀ u ∈ s, IsDigit u) (ht : ∀ u ∈ t, IsDigit u)
    (hlen : s.length = t.length) (h : s < t) : digitsValue s < digitsValue t := by
  induction s generalizing t with
  | nil =>
      cases t with
      | nil => exact absurd h (List.lt_irrefl _)
      | cons v t => cases hlen
  | cons u s ih =>
      cases t with
      | nil => cases hlen
      | cons v t =>
          have hlen' : s.length = t.length := Nat.succ.inj hlen
          have hs' : ∀ u ∈ s, IsDigit u := fun w hw => hs w (List.mem_cons_of_mem _ hw)
          have ht' : ∀ u ∈ t, IsDigit u := fun w hw => ht w (List.mem_cons_of_mem _ hw)
          rw [digitsValue_cons, digitsValue_cons, hlen']
          rcases List.cons_lt_cons_iff.mp h with hlt | ⟨rfl, hlt⟩
          · -- The first digits decide: what follows is less than one unit of them.
            have hless : u.toNat < v.toNat := hlt
            have hsmall := digitsValue_lt hs'
            have hu := (hs u List.mem_cons_self).1
            rw [hlen'] at hsmall
            calc (u.toNat - 48) * 10 ^ t.length + digitsValue s
                < (u.toNat - 48) * 10 ^ t.length + 10 ^ t.length := by omega
              _ = (u.toNat - 48 + 1) * 10 ^ t.length := by ring
              _ ≤ (v.toNat - 48) * 10 ^ t.length := Nat.mul_le_mul_right _ (by omega)
              _ ≤ (v.toNat - 48) * 10 ^ t.length + digitsValue t := Nat.le_add_right _ _
          · have := ih hs' ht' hlen' hlt
            omega

/-- **Numerals of one length are in the order of their numbers.** -/
theorem lt_of_value_lt {s t : JsString} (hs : ∀ u ∈ s, IsDigit u) (ht : ∀ u ∈ t, IsDigit u)
    (hlen : s.length = t.length) (h : digitsValue s < digitsValue t) : s < t := by
  by_contra hnot
  rcases List.le_iff_lt_or_eq.mp (List.not_lt.mp hnot) with hlt | rfl
  · have := value_lt_of_lt ht hs hlen.symm hlt
    omega
  · exact absurd h (Nat.lt_irrefl _)

theorem append_lt_append {s t : JsString} (hlen : s.length = t.length) (h : s < t) (r : JsString) :
    s ++ r < t ++ r := by
  induction s generalizing t with
  | nil =>
      cases t with
      | nil => exact absurd h (List.lt_irrefl _)
      | cons v t => cases hlen
  | cons u s ih =>
      cases t with
      | nil => cases hlen
      | cons v t =>
          rw [List.cons_append, List.cons_append, List.cons_lt_cons_iff]
          rcases List.cons_lt_cons_iff.mp h with hlt | ⟨rfl, hlt⟩
          · exact .inl hlt
          · exact .inr ⟨rfl, ih (Nat.succ.inj hlen) hlt⟩

/-! ## The numeral of a number -/

/-- The code unit of a digit. -/
def digitUnit (c : Char) : UInt16 := UInt16.ofNat c.toNat

theorem utf16_digits {cs : List Char} (h : ∀ c ∈ cs, c.isDigit = true) : utf16 cs = cs.map digitUnit := by
  induction cs with
  | nil => rfl
  | cons c cs ih =>
      have hc : c.toNat < 0x10000 := by
        have := h c List.mem_cons_self
        rw [Char.isDigit, Bool.and_eq_true, decide_eq_true_eq, decide_eq_true_eq] at this
        have hle : c.toNat ≤ 57 := this.2
        omega
      rw [List.map_cons, ← ih fun d hd => h d (List.mem_cons_of_mem _ hd)]
      show utf16Char c ++ utf16 cs = _
      rw [utf16Char, if_pos hc]
      rfl

theorem js_toString (n : Nat) : js (toString n) = (Nat.toDigits 10 n).map digitUnit := by
  have hchars : (toString n).toList = Nat.toDigits 10 n := Nat.toList_repr
  rw [js, hchars, utf16_digits]
  exact fun c hc => Nat.isDigit_of_mem_toDigits (by decide) (by decide) hc

theorem isDigit_js_toString (n : Nat) : ∀ u ∈ js (toString n), IsDigit u := by
  rw [js_toString]
  intro u hu
  obtain ⟨c, hc, rfl⟩ := List.mem_map.mp hu
  have hdigit := Nat.isDigit_of_mem_toDigits (b := 10) (by decide) (by decide) hc
  rw [Char.isDigit, Bool.and_eq_true, decide_eq_true_eq, decide_eq_true_eq] at hdigit
  have hlow : 48 ≤ c.toNat := hdigit.1
  have hhigh : c.toNat ≤ 57 := hdigit.2
  have hvalue : (digitUnit c).toNat = c.toNat := by
    rw [digitUnit, UInt16.toNat_ofNat']
    exact Nat.mod_eq_of_lt (by omega)
  unfold IsDigit
  omega

theorem length_js_toString {n k : Nat} (hk : 0 < k) : (js (toString n)).length ≤ k ↔ n < 10 ^ k := by
  rw [js_toString, List.length_map]
  exact Nat.length_toDigits_le_iff (by decide) hk

/-- A numeral spells its number. -/
theorem digitsValue_js_toString (n : Nat) : digitsValue (js (toString n)) = n := by
  rw [js_toString]
  induction n using Nat.strongRecOn with
  | _ n ih =>
      have hone : ∀ d, d < 10 → digitsValue [digitUnit d.digitChar] = d := by decide
      by_cases hsmall : n < 10
      · rw [Nat.toDigits_of_lt_base hsmall]
        exact hone n hsmall
      · rw [Nat.toDigits_of_base_le (by decide) (by omega), List.map_append, digitsValue_append,
          ih (n / 10) (by omega)]
        show n / 10 * 10 ^ 1 + digitsValue [digitUnit (n % 10).digitChar] = n
        rw [hone _ (Nat.mod_lt _ (by decide))]
        omega

/-- `padStart(width, "0")`. -/
def padStart (width : Nat) (s : JsString) : JsString := List.replicate (width - s.length) 48 ++ s

theorem digitsValue_padStart (width : Nat) (s : JsString) :
    digitsValue (padStart width s) = digitsValue s := by
  have hzeros : ∀ k, digitsValue (List.replicate k 48) = 0 := by
    intro k
    induction k with
    | zero => rfl
    | succ k ih =>
        rw [List.replicate_succ, digitsValue_cons, ih]
        simp
  rw [padStart, digitsValue_append, hzeros, zero_mul, zero_add]

theorem isDigit_padStart (width : Nat) {s : JsString} (h : ∀ u ∈ s, IsDigit u) :
    ∀ u ∈ padStart width s, IsDigit u := by
  intro u hu
  rcases List.mem_append.mp hu with hu | hu
  · rw [(List.mem_replicate.mp hu).2]
    decide
  · exact h u hu

theorem length_padStart {width : Nat} {s : JsString} (h : s.length ≤ width) :
    (padStart width s).length = width := by
  rw [padStart, List.length_append, List.length_replicate]
  omega

/-! ## Numerals in other bases -/

/-- `n.toString(b)`. -/
def radixText (b n : Nat) : JsString := if n = 0 then [48] else (Nat.digits b n).reverse.map Hex.digit

/-- What a digit stands for. -/
def radixDigit (u : UInt16) : Nat := if u.toNat < 58 then u.toNat - 48 else u.toNat - 87

/-- `parseInt(s, b)` of digits. -/
def radixValue (b : Nat) (s : JsString) : Nat := s.foldl (fun acc u => acc * b + radixDigit u) 0

theorem radixDigit_digit : ∀ d < 36, radixDigit (Hex.digit d) = d := by decide

theorem radixValue_append_singleton (b : Nat) (s : JsString) (u : UInt16) :
    radixValue b (s ++ [u]) = radixValue b s * b + radixDigit u := by
  rw [radixValue, List.foldl_append]
  rfl

theorem radixValue_reverse {b : Nat} {ds : List Nat} (h : ∀ d ∈ ds, d < 36) :
    radixValue b (ds.reverse.map Hex.digit) = Nat.ofDigits b ds := by
  induction ds with
  | nil => rfl
  | cons d ds ih =>
      rw [List.reverse_cons, List.map_append, List.map_singleton, radixValue_append_singleton,
        ih fun e he => h e (List.mem_cons_of_mem _ he), radixDigit_digit d (h d List.mem_cons_self),
        Nat.ofDigits_cons]
      ring

section Base

variable {b : Nat} (hb : 1 < b) (hb' : b ≤ 36)

include hb hb'

/-- A numeral is read as its number. -/
theorem radixValue_radixText (n : Nat) : radixValue b (radixText b n) = n := by
  rw [radixText]
  split
  · next hzero =>
    subst hzero
    exact Nat.zero_mul b
  · rw [radixValue_reverse fun d hd => (Nat.digits_lt_base hb hd).trans_le hb', Nat.ofDigits_digits]

/-- The digits of a numeral are digits below the base. -/
theorem mem_radixText {n : Nat} {u : UInt16} (hu : u ∈ radixText b n) : ∃ d < b, u = Hex.digit d := by
  rw [radixText] at hu
  split at hu
  · exact ⟨0, by omega, List.mem_singleton.mp hu⟩
  · obtain ⟨d, hd, rfl⟩ := List.mem_map.mp hu
    exact ⟨d, Nat.digits_lt_base hb (List.mem_reverse.mp hd), rfl⟩

omit hb' in
/-- **A numeral fits a width** when its number is below that power of the base. -/
theorem length_radixText_le_iff {n w : Nat} (hw : 0 < w) : (radixText b n).length ≤ w ↔ n < b ^ w := by
  rw [radixText]
  split
  · next hzero =>
    subst hzero
    have hpos : 0 < b ^ w := Nat.pow_pos (by omega)
    exact ⟨fun _ => hpos, fun _ => hw⟩
  · rw [List.length_map, List.length_reverse, Nat.digits_length_le_iff hb]

/-- Zeros in front do not count. -/
theorem radixValue_padded (n w : Nat) : radixValue b (padStart w (radixText b n)) = n := by
  have hzeros : ∀ k, (List.replicate k (48 : UInt16)).foldl (fun acc u => acc * b + radixDigit u) 0 = 0 := by
    intro k
    induction k with
    | zero => rfl
    | succ k ih =>
        rw [List.replicate_succ, List.foldl_cons]
        exact (congrArg (List.foldl _ · _) (Nat.zero_mul b)).trans ih
  rw [padStart, radixValue, List.foldl_append, hzeros]
  exact radixValue_radixText hb hb' n

theorem mem_padded {n w : Nat} {u : UInt16} (hu : u ∈ padStart w (radixText b n)) :
    ∃ d < b, u = Hex.digit d := by
  rcases List.mem_append.mp hu with hu | hu
  · exact ⟨0, by omega, (List.mem_replicate.mp hu).2⟩
  · exact mem_radixText hb hb' hu

end Base

end DtnCustody.Base
