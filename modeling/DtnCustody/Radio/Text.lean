/-
# DtnCustody.Radio.Text — `radio/sms/text.mjs`: payments and receipts as texts.

A payment is one text, or numbered parts that carry the message id. The reader trims, makes every run of
white space one blank, and matches letters in either case; since its two patterns are anchored and
hold no blank inside a field, they are read here off the list of words.
-/
import DtnCustody.Radio.Frame
import DtnCustody.Base.Armor

namespace DtnCustody.Radio

open Base Js

/-! ## Reading a text -/

/-- `\s`. -/
def isSpace (u : UInt16) : Bool :=
  let n := u.toNat
  (9 ≤ n && n ≤ 13) || n = 32 || n = 0xA0 || n = 0x1680 || (0x2000 ≤ n && n ≤ 0x200A) || n = 0x2028 ||
    n = 0x2029 || n = 0x202F || n = 0x205F || n = 0x3000 || n = 0xFEFF

/-- The words of `t.trim().replace(/\s+/g, " ")`. -/
def words (t : JsString) : List JsString := (t.splitOnP isSpace).filter fun w => !w.isEmpty

def isDigit (u : UInt16) : Bool := 48 ≤ u.toNat && u.toNat ≤ 57

def isLower (u : UInt16) : Bool := 97 ≤ u.toNat && u.toNat ≤ 122

def isUpper (u : UInt16) : Bool := 65 ≤ u.toNat && u.toNat ≤ 90

def lower (u : UInt16) : UInt16 := if isUpper u then u + 32 else u

/-- `[A-Za-z0-9+/=]`. -/
def isBase64Unit (u : UInt16) : Bool :=
  isDigit u || isLower u || isUpper u || u = 43 || u = 47 || u = 61

/-- `[0-9a-f]` in either case. -/
def isHexUnit (u : UInt16) : Bool :=
  isDigit u || (97 ≤ (lower u).toNat && (lower u).toNat ≤ 102)

/-- `([EB])`, and what `FROM_LETTER` makes of it. -/
def letter? (w : JsString) : Option FrameType :=
  if w.map lower = js "e" then some .payEf else if w.map lower = js "b" then some .payBeef else none

/-- `(\d{1,2})`. -/
def number? (w : JsString) : Option Nat :=
  if (w.length = 1 ∨ w.length = 2) ∧ w.all isDigit then
    some (w.foldl (fun n u => n * 10 + (u.toNat - 48)) 0)
  else none

/-- `(\d{1,2})\/(\d{1,2})`. -/
def ratio? (w : JsString) : Option (Nat × Nat) :=
  match w.splitOn 47 with
  | [x, y] => do return (← number? x, ← number? y)
  | _ => none

inductive TextPart where
  | whole (type : FrameType) (msg : Bytes)
  | part (type : FrameType) (part of_ : Nat) (id data : JsString)
  deriving DecidableEq, Repr

/-- A part as the first pattern reads it; the inner `none` is a part that is not one of as many. -/
def readPart : List JsString → Option (Option TextPart)
  | [tag, l, r, id, data] =>
      if tag.map lower = js "bsv1" ∧ id.length = 16 ∧ id.all isHexUnit ∧ data.all isBase64Unit then do
        let type ← letter? l
        let (part, of_) ← ratio? r
        if part = 0 ∨ of_ < part then return none
        else return some (.part type part of_ (id.map lower) data)
      else none
  | _ => none

/-- A payment in one text, as the second pattern reads it. -/
def readWhole : List JsString → Option TextPart
  | tag :: l :: w :: rest =>
      if tag.map lower = js "bsv1" ∧ (w :: rest).all (·.all isBase64Unit) then do
        return .whole (← letter? l) (Base64.decode (scalars (w :: rest).flatten))
      else none
  | _ => none

/-- `parseText(body)`: `null` where the text is not ours. -/
def parseText (body : Option JsString) : Option TextPart :=
  let ws := words (body.getD [])
  match readPart ws with
  | some p => p
  | none => readWhole ws

/-! ## The assembler -/

structure TextParts where
  of_ : Nat
  type : FrameType
  got : JsMap Nat JsString
  at_ : Int

/-- The parts in, by sender and id. -/
abbrev Texts := JsMap JsString TextParts

def maxAgeMs : Int := 24 * 3600000

/-- `${from} ${id}`. -/
def textKey (sender id : JsString) : JsString := sender ++ js " " ++ id

def Texts.prune (parts : Texts) (now : Int) : Texts :=
  parts.entries.foldl (fun m e => if maxAgeMs < now - e.2.at_ then m.delete e.1 else m) parts

/-- `add(from, p)`. -/
def Texts.add (N : Node) (parts : Texts) (sender : JsString) (p : TextPart) (now : Int) :
    Option Whole × Texts :=
  match p with
  | .whole type msg => (some (.message type (Hex.encode (messageId N msg)) msg), parts)
  | .part type part of_ id data =>
      let parts := parts.prune now
      let k := textKey sender id
      let e := (parts.get? k).getD { of_, type, got := JsMap.empty, at_ := now }
      if e.of_ ≠ of_ ∨ e.type ≠ type then (none, parts.set k e)
      else
        let e := { e with got := e.got.set part data }
        if e.got.size < e.of_ then (none, parts.set k e)
        else
          let b64 := (List.range e.of_).flatMap fun i => (e.got.get? (i + 1)).getD []
          let msg := Base64.decode (scalars b64)
          let whole := if Hex.encode (messageId N msg) ≠ id then Whole.corrupt e.type id
            else Whole.message e.type id msg
          (some whole, parts.delete k)

/-- `receiptText({ status, txid, receipt })`. -/
def receiptText (status txid : JsString) (receipt : Bytes) : JsString :=
  js "BSV RECEIPT " ++ status ++ js " " ++ txid ++ js "\nR1 " ++ utf16 (Base64.encode receipt)

/-! ## What base64 and hexadecimal are written with -/

/-- `[0-9a-f]`. -/
def isLowHex (u : UInt16) : Bool := isDigit u || (97 ≤ u.toNat && u.toNat ≤ 102)

/-- `Buffer.from(msg).toString("base64")`. -/
def base64Text (msg : Bytes) : JsString := utf16 (Base64.encode msg)

theorem decode_base64Text (msg : Bytes) : Base64.decode (scalars (base64Text msg)) = msg := by
  rw [base64Text, scalars_utf16, Base64.decode_encode]

/-- A character of base64 is one unit. -/
theorem utf16Char_charOf : ∀ n < 64, ∃ u, utf16Char (Base64.charOf n) = [u] ∧ isBase64Unit u = true := by
  have hall : ∀ n < 64, utf16Char (Base64.charOf n) = [UInt16.ofNat (Base64.charOf n).toNat] ∧
      isBase64Unit (UInt16.ofNat (Base64.charOf n).toNat) = true := by decide
  exact fun n hn => ⟨_, hall n hn⟩

theorem isBase64Unit_base64Text (msg : Bytes) : ∀ u ∈ base64Text msg, isBase64Unit u = true := by
  intro u hu
  obtain ⟨c, hc, hu⟩ := List.mem_flatMap.mp hu
  rcases List.mem_append.mp hc with hc | hc
  · obtain ⟨n, hn, rfl⟩ := List.mem_map.mp hc
    obtain ⟨v, hv, hunit⟩ := utf16Char_charOf n (Base64.toSextets_lt msg n hn)
    rw [hv, List.mem_singleton] at hu
    rw [hu]
    exact hunit
  · have hpad : c = '=' := by
      unfold Base64.padding at hc
      split_ifs at hc
      · simpa using hc
      · simpa using hc
      · cases hc
    subst hpad
    have heq : u = 61 := List.mem_singleton.mp hu
    rw [heq]
    decide

theorem isLowHex_encode (bs : Bytes) : ∀ u ∈ Hex.encode bs, isLowHex u = true := by
  intro u hu
  have hdigit : ∀ n < 16, isLowHex (Hex.digit n) = true := by decide
  obtain ⟨b, -, hu⟩ := List.mem_flatMap.mp hu
  have hb := b.toNat_lt
  rcases List.mem_cons.mp hu with rfl | hu
  · exact hdigit _ (by omega)
  · rw [List.mem_singleton.mp hu]
    exact hdigit _ (by omega)

end DtnCustody.Radio
