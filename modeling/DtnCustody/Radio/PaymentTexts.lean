/-
# DtnCustody.Radio.PaymentTexts — `paymentTexts` of `radio/sms/text.mjs`: a payment as texts of limited length.

A payment that fits goes in one text. A longer one goes in parts, whose header is taken to have at most 29
characters: it has 30 when both the number of the part and the count have two digits. So the texts are as
short as was asked for but where the tenth part is full and the limit leaves no character over
(`texts_fit_iff`).
-/
import DtnCustody.Base.Digits
import DtnCustody.Base.Pieces
import DtnCustody.Radio.Collected
import DtnCustody.Radio.Text
import Mathlib.Tactic.Linarith

namespace DtnCustody.Radio

open Base Js Pieces

/-- `SINGLE_MAX`. -/
def singleMax : JsNum := .fin 1530

/-- `LETTER`. -/
def letterOf : FrameType → Option JsString
  | .payEf => some (js "E")
  | .payBeef => some (js "B")
  | .nack => none
  | .receipt => none

/-- A payment in one text. -/
def oneText (l b64 : JsString) : JsString := js "BSV1 " ++ l ++ js " " ++ b64

/-- The header of a part, by its number from one. -/
def partHeader (l id : JsString) (n i : Nat) : JsString :=
  js "BSV1 " ++ l ++ js " " ++ js (toString i) ++ js "/" ++ js (toString n) ++ js " " ++ id ++ js " "

/-- The base64 characters of a part. -/
def roomOf (q : ℚ) : Int := ⌊(q - 29) / 4⌋ * 4

/-- The parts of a payment, with this many base64 characters in each. -/
def partTexts (l id b64 : JsString) (room : Nat) : List JsString :=
  (List.range (slices b64 room)).map fun i =>
    partHeader l id (slices b64 room) (i + 1) ++ slice b64 room i

def tooShort (N : Node) (maxChars : JsNum) : Err :=
  .error ("maxChars " ++ String.ofList (scalars (Prim.numToString N maxChars)) ++ " is too short")

/-- `paymentTexts(type, msg, { maxChars })`. -/
def paymentTexts (N : Node) (type : FrameType) (msg : Bytes) (maxChars : JsNum) :
    Outcome (List JsString) :=
  let b64 := base64Text msg
  match letterOf type with
  | none => .error (.error s!"not a payment type: {type.code.toNat}")
  | some l =>
      let one := oneText l b64
      if maxChars.ge (.fin one.length) then .ok [one]
      else
        let id := Hex.encode (messageId N msg)
        match maxChars with
        | .nan => .ok []
        | .inf negative => .error (tooShort N (.inf negative))
        | .fin q =>
            if roomOf q < 4 then .error (tooShort N (.fin q))
            else
              let n := slices b64 (roomOf q).toNat
              if 99 < n then .error (.error s!"payment needs {n} texts; the limit is 99")
              else .ok (partTexts l id b64 (roomOf q).toNat)

/-! ## The length of a part -/

theorem roomOf_eq (q : ℚ) : roomOf q = (⌊q⌋ - 29) / 4 * 4 := by
  have hdiv : ⌊(q - 29) / 4⌋ = ⌊q - 29⌋ / 4 := by
    have := Int.floor_div_natCast (q - 29) 4
    simpa using this
  have hsub : ⌊q - 29⌋ = ⌊q⌋ - 29 := Int.floor_sub_ofNat q 29
  rw [roomOf, hdiv, hsub]

/-- A number below a hundred has one digit or two. -/
theorem length_numeral {n : Nat} (h : n < 100) :
    (js (toString n)).length = if n < 10 then 1 else 2 := by
  have hone := length_js_toString (n := n) (k := 1) (by decide)
  have htwo := (length_js_toString (n := n) (k := 2) (by decide)).mpr h
  have hpos : 0 < (js (toString n)).length := by
    rw [js_toString, List.length_map]
    exact Nat.length_toDigits_pos
  split
  · next hlt =>
    have := hone.mpr hlt
    omega
  · next hge =>
    have := fun hle => hge (hone.mp hle)
    omega

theorem length_letterOf {type : FrameType} {l : JsString} (h : letterOf type = some l) : l.length = 1 := by
  cases type with
  | payEf => cases h; rfl
  | payBeef => cases h; rfl
  | nack => cases h
  | receipt => cases h

theorem length_hexId {N : Node} (hN : LongDigests N) (msg : Bytes) :
    (Hex.encode (messageId N msg)).length = 16 := by
  have hlen := hN msg
  rw [Hex.length_encode, messageId, List.length_take]
  omega

/-- A header has 28 characters, and one more for each number of two digits. -/
theorem length_partHeader {l id : JsString} (hl : l.length = 1) (hid : id.length = 16) {n i : Nat}
    (hn : n < 100) (hi : i < 100) :
    (partHeader l id n i).length = 26 + (if i < 10 then 1 else 2) + (if n < 10 then 1 else 2) := by
  have hfive : (js "BSV1 ").length = 5 := rfl
  have hblank : (js " ").length = 1 := rfl
  have hslash : (js "/").length = 1 := rfl
  simp only [partHeader, List.length_append, length_numeral hi, length_numeral hn, hl, hid, hfive, hblank,
    hslash]
  omega

theorem length_oneText {l b64 : JsString} (hl : l.length = 1) : (oneText l b64).length = 7 + b64.length := by
  have hfive : (js "BSV1 ").length = 5 := rfl
  have hblank : (js " ").length = 1 := rfl
  simp only [oneText, List.length_append, hl, hfive, hblank]

/-- **When the parts are short enough**: the tenth is not full, or the limit leaves a character over. -/
theorem parts_fit_iff {l id b64 : JsString} (hl : l.length = 1) (hid : id.length = 16) {room : Nat}
    (hroom : 0 < room) (hn : slices b64 room ≤ 99) {z : Int} (hz : room = (z - 29) / 4 * 4) :
    (∀ t ∈ partTexts l id b64 room, (t.length : Int) ≤ z) ↔
      b64.length < 10 * room ∨ (z - 29) % 4 ≠ 0 := by
  have hlen : ∀ i < slices b64 room,
      (partHeader l id (slices b64 room) (i + 1) ++ slice b64 room i).length =
        26 + (if i + 1 < 10 then 1 else 2) + (if slices b64 room < 10 then 1 else 2) +
          min room (b64.length - i * room) := by
    intro i hi
    rw [List.length_append, length_partHeader hl hid (by omega) (by omega), length_slice]
  constructor
  · intro hfit
    by_contra hnot
    obtain ⟨hfull, hexact⟩ := not_or.mp hnot
    -- The tenth part is there, and full.
    have hten : 9 < slices b64 room := (lt_slices_iff hroom).mpr (by omega)
    have hlong := hfit _ (List.mem_map_of_mem (List.mem_range.mpr hten))
    rw [hlen 9 hten] at hlong
    split_ifs at hlong
    all_goals omega
  · rintro hcond t ht
    obtain ⟨i, hi, rfl⟩ := List.mem_map.mp ht
    have hi := List.mem_range.mp hi
    have hstart := (lt_slices_iff hroom).mp hi
    rw [hlen i hi]
    rcases hcond with hfew | hover
    · have hcount : slices b64 room ≤ 10 := by
        by_contra hmany
        have := (lt_slices_iff hroom (i := 10) (l := b64)).mp (by omega)
        omega
      by_cases hlast : i = 9
      · subst hlast
        split_ifs
        all_goals omega
      · split_ifs
        all_goals omega
    · split_ifs
      all_goals omega

theorem ge_fin {q : ℚ} {n : Nat} : JsNum.ge (.fin q) (.fin n) = true ↔ (n : Int) ≤ ⌊q⌋ := by
  rw [Int.le_floor, JsNum.ge, JsNum.lt_fin]
  simp

/-- **When every text is as short as was asked for**: unless the payment goes in parts of which the tenth is
full, and the limit less 29 is a multiple of four. -/
theorem texts_fit_iff (N : Node) (hN : LongDigests N) (type : FrameType) (msg : Bytes) (maxChars : JsNum)
    (texts : List JsString) (h : paymentTexts N type msg maxChars = .ok texts) :
    (∀ t ∈ texts, maxChars.ge (.fin t.length) = true) ↔
      ∀ q, maxChars = .fin q → 7 + ((base64Text msg).length : Int) ≤ ⌊q⌋ ∨
        ((base64Text msg).length : Int) < 10 * roomOf q ∨ (⌊q⌋ - 29) % 4 ≠ 0 := by
  unfold paymentTexts at h
  dsimp only at h
  cases hletter : letterOf type with
  | none =>
      rw [hletter] at h
      cases h
  | some l =>
      have hl := length_letterOf hletter
      rw [hletter] at h
      dsimp only at h
      split at h
      · next hone =>
        cases h
        constructor
        · rintro - q rfl
          have hle := ge_fin.mp hone
          rw [length_oneText hl] at hle
          exact .inl (by omega)
        · intro _ t ht
          rw [List.mem_singleton.mp ht]
          exact hone
      · next hlong =>
        cases maxChars with
        | nan =>
            cases h
            exact ⟨fun _ q hq => (by cases hq), fun _ t ht => (by cases ht)⟩
        | inf negative => cases h
        | fin q =>
            dsimp only at h
            have hmore : ¬ 7 + ((base64Text msg).length : Int) ≤ ⌊q⌋ := fun hle =>
              hlong (ge_fin.mpr (by rw [length_oneText hl]; omega))
            split at h
            · cases h
            · next hroom =>
              split at h
              · cases h
              · next hmany =>
                cases h
                have hcast : ((roomOf q).toNat : Int) = (⌊q⌋ - 29) / 4 * 4 := by
                  rw [← roomOf_eq]
                  omega
                have hparts := parts_fit_iff hl (length_hexId hN msg) (by omega)
                  (Nat.not_lt.mp hmany) hcast
                have hleft : (∀ t ∈ partTexts l (Hex.encode (messageId N msg)) (base64Text msg) (roomOf q).toNat,
                    (JsNum.fin q).ge (.fin t.length) = true) ↔
                    ∀ t ∈ partTexts l (Hex.encode (messageId N msg)) (base64Text msg) (roomOf q).toNat,
                      (t.length : Int) ≤ ⌊q⌋ := forall₂_congr fun t _ => ge_fin
                rw [hleft, hparts]
                constructor
                · rintro hcond q' hq'
                  cases hq'
                  refine .inr (hcond.imp_left fun hfew => ?_)
                  omega
                · intro hcond
                  rcases hcond q rfl with hfits | hfew | hover
                  · exact absurd hfits hmore
                  · exact .inl (by omega)
                  · exact .inr hover

/-- A payment in two texts of up to 80 characters. -/
theorem texts_fit_sample :
    ∃ texts, paymentTexts longNode .payBeef (List.replicate 60 1) (.fin 80) = .ok texts ∧
      ((∀ t ∈ texts, (JsNum.fin 80).ge (.fin t.length) = true) ↔
        ∀ q, JsNum.fin 80 = .fin q → 7 + ((base64Text (List.replicate 60 1)).length : Int) ≤ ⌊q⌋ ∨
          ((base64Text (List.replicate 60 1)).length : Int) < 10 * roomOf q ∨ (⌊q⌋ - 29) % 4 ≠ 0) :=
  have hok := Outcome.exists_ok (x := paymentTexts longNode .payBeef (List.replicate 60 1) (.fin 80))
    (by decide +kernel)
  hok.imp fun texts h => ⟨h, texts_fit_iff longNode longNode_longDigests _ _ _ texts h⟩

/-- **A payment of 928 bytes for texts of 153 characters**: its tenth text has 154. -/
theorem tenth_text_long :
    (paymentTexts longNode .payEf (List.replicate 928 0) (.fin 153)).toOption.any
      (fun texts => texts.all fun t => (JsNum.fin 153).ge (.fin t.length)) = false ∧
    (paymentTexts longNode .payEf (List.replicate 928 0) (.fin 153)).toOption.isSome = true := by
  decide +kernel

end DtnCustody.Radio
