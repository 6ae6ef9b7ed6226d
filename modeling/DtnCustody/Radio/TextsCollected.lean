/-
# DtnCustody.Radio.TextsCollected — payments come out of their texts, whatever the phone network does to them.

Texts of several payments from several senders arrive in any order, with repeats and with blanks at their ends or
inside their base64. A text whose blanks do not change how it is read gives what was sent (`parseText_single`,
`parseText_part`), and the assembler holds of each payment the parts that came since it was last whole
(`textHeld_after`), unless it forgot them after a day. So the part that was missing brings the payment
(`texts_collected`). A blank inside the base64 of a part does change how it is read: as a payment in one text
(`spread_part_misread`).
-/
import DtnCustody.Base.Pieces
import DtnCustody.Radio.PaymentTexts

namespace DtnCustody.Radio

open Base Js Pieces

/-! ## What is sent -/

/-- A payment that someone sends as texts of up to so many characters. -/
structure Texted where
  sender : JsString
  type : FrameType
  msg : Bytes
  maxChars : JsNum
  deriving DecidableEq

namespace Texted

variable (N : Node) (s : Texted)

def letter : JsString := (letterOf s.type).getD []

def b64 : JsString := base64Text s.msg

def id : JsString := Hex.encode (messageId N s.msg)

/-- It goes in one text. -/
def Single : Prop := s.maxChars.ge (.fin (oneText s.letter s.b64).length) = true

instance : Decidable s.Single := inferInstanceAs (Decidable (_ = true))

def room : Nat :=
  match s.maxChars with
  | .fin q => (roomOf q).toNat
  | _ => 0

def count : Nat := if s.Single then 1 else slices s.b64 s.room

/-- What stands before the base64 of a text, by its number from one. -/
def heading (i : Nat) : JsString :=
  if s.Single then js "BSV1 " ++ s.letter ++ js " " else partHeader s.letter (s.id N) s.count i

/-- The base64 of a text. -/
def piece (i : Nat) : JsString := if s.Single then s.b64 else slice s.b64 s.room (i - 1)

/-- `paymentTexts` returns. -/
def Accepted : Prop := (paymentTexts N s.type s.msg s.maxChars).toOption.isSome = true

instance : Decidable (s.Accepted N) := inferInstanceAs (Decidable (_ = true))

/-- What `paymentTexts` returns, and what it has checked. -/
theorem accepted_spec {N : Node} {s : Texted} (h : s.Accepted N) :
    paymentTexts N s.type s.msg s.maxChars =
        .ok ((List.range s.count).map fun i => s.heading N (i + 1) ++ s.piece (i + 1)) ∧
      letterOf s.type = some s.letter ∧ s.count ≤ 99 := by
  obtain ⟨texts, htexts⟩ := Outcome.exists_ok h
  have hcases := htexts
  unfold paymentTexts at hcases
  dsimp only at hcases
  cases hletter : letterOf s.type with
  | none =>
      rw [hletter] at hcases
      cases hcases
  | some l =>
      rw [hletter] at hcases
      dsimp only at hcases
      have hl : l = s.letter := by rw [letter, hletter]; rfl
      rw [htexts]
      subst hl
      split at hcases
      · next hone =>
        have hsingle : s.Single := hone
        cases hcases
        simp only [count, heading, piece, if_pos hsingle]
        exact ⟨rfl, trivial, by decide⟩
      · next hlong =>
        have hparts : ¬ s.Single := hlong
        simp only [count, heading, piece, if_neg hparts, Nat.add_sub_cancel]
        cases hmax : s.maxChars with
        | nan =>
            rw [hmax] at hcases
            cases hcases
            have hnone : slices s.b64 s.room = 0 := by
              rw [room, hmax]
              exact Nat.div_zero _
            rw [hnone]
            exact ⟨rfl, trivial, Nat.zero_le _⟩
        | inf negative =>
            rw [hmax] at hcases
            cases hcases
        | fin q =>
            rw [hmax] at hcases
            dsimp only at hcases
            have hroom : s.room = (roomOf q).toNat := by rw [room, hmax]
            split at hcases
            · cases hcases
            · split at hcases
              · cases hcases
              · next hmany =>
                cases hcases
                rw [hroom]
                exact ⟨rfl, trivial, Nat.not_lt.mp hmany⟩

variable {N s}

theorem room_pos (hparts : ¬ s.Single) (hcount : 0 < s.count) : 0 < s.room := by
  rw [count, if_neg hparts] at hcount
  by_contra hzero
  rw [Nat.eq_zero_of_not_pos hzero] at hcount
  exact absurd hcount (by rw [slices, Nat.div_zero]; exact lt_irrefl 0)

/-- The pieces put together are the base64 of the message. -/
theorem flatMap_piece (hparts : ¬ s.Single) (hcount : 0 < s.count) :
    (List.range s.count).flatMap (fun i => s.piece (i + 1)) = s.b64 := by
  have hslices := flatMap_slice (length_le_slices (l := s.b64) (room_pos hparts hcount))
  rw [count, if_neg hparts]
  simp only [piece, if_neg hparts, Nat.add_sub_cancel]
  exact hslices

theorem isBase64_piece {i : Nat} : ∀ u ∈ s.piece i, isBase64Unit u = true := by
  intro u hu
  rw [piece] at hu
  split at hu
  · exact isBase64Unit_base64Text _ u hu
  · exact isBase64Unit_base64Text _ u (mem_of_mem_slice hu)

theorem piece_ne_nil (hparts : ¬ s.Single) {i : Nat} (hi : i ∈ Finset.Icc 1 s.count) : s.piece i ≠ [] := by
  have hbounds := Finset.mem_Icc.mp hi
  have hroom := room_pos hparts (by omega)
  rw [piece, if_neg hparts]
  rw [count, if_neg hparts] at hbounds
  exact slice_ne_nil hroom (by omega)

end Texted

/-! ## How a text is read -/

theorem isSpace_of_isBase64Unit {u : UInt16} (h : isBase64Unit u = true) : isSpace u = false := by
  have hrange : (48 ≤ u.toNat ∧ u.toNat ≤ 57) ∨ (97 ≤ u.toNat ∧ u.toNat ≤ 122) ∨
      (65 ≤ u.toNat ∧ u.toNat ≤ 90) ∨ u.toNat = 43 ∨ u.toNat = 47 ∨ u.toNat = 61 := by
    simp only [isBase64Unit, isDigit, isLower, isUpper, Bool.or_eq_true, Bool.and_eq_true,
      decide_eq_true_eq] at h
    rcases h with ((((h | h) | h) | rfl) | rfl) | rfl
    · exact .inl h
    · exact .inr (.inl h)
    · exact .inr (.inr (.inl h))
    · exact .inr (.inr (.inr (.inl rfl)))
    · exact .inr (.inr (.inr (.inr (.inl rfl))))
    · exact .inr (.inr (.inr (.inr (.inr rfl))))
  simp only [isSpace, Bool.or_eq_false_iff, Bool.and_eq_false_iff, decide_eq_false_iff_not]
  omega

theorem words_eq (t : JsString) : words t = wordsBy isSpace t := rfl

theorem isSpace_blank : isSpace 32 = true := by decide

theorem isDigit_numeral (n : Nat) : ∀ u ∈ js (toString n), isDigit u = true := by
  intro u hu
  have h := isDigit_js_toString n u hu
  unfold IsDigit at h
  simp only [isDigit, Bool.and_eq_true, decide_eq_true_eq]
  omega

theorem isSpace_of_isDigit {u : UInt16} (h : isDigit u = true) : isSpace u = false := by
  refine isSpace_of_isBase64Unit ?_
  simp only [isBase64Unit, h, Bool.true_or]

/-- A number of one or two digits is read as that number. -/
theorem number?_numeral {n : Nat} (h : n < 100) : number? (js (toString n)) = some n := by
  have hlen := length_numeral h
  have hvalue : (js (toString n)).foldl (fun n u => n * 10 + (u.toNat - 48)) 0 = n :=
    digitsValue_js_toString n
  unfold number?
  rw [if_pos, hvalue]
  refine ⟨?_, List.all_eq_true.mpr (isDigit_numeral n)⟩
  split at hlen
  · exact .inl hlen
  · exact .inr hlen

theorem ratio?_numerals {i n : Nat} (hi : i < 100) (hn : n < 100) :
    ratio? (js (toString i) ++ 47 :: js (toString n)) = some (i, n) := by
  have hno : ∀ k : Nat, ∀ u ∈ js (toString k), (u == (47 : UInt16)) = false := by
    intro k u hu
    refine beq_eq_false_iff_ne.mpr ?_
    rintro rfl
    exact absurd (isDigit_numeral k 47 hu) (by decide)
  have hsplit : (js (toString i) ++ 47 :: js (toString n)).splitOn 47 =
      [js (toString i), js (toString n)] := by
    rw [List.splitOn_eq_splitOnP, List.splitOnP_append_cons _ _ (by decide),
      List.splitOnP_eq_singleton (hno i), List.splitOnP_eq_singleton (hno n)]
    rfl
  unfold ratio?
  rw [hsplit]
  dsimp only
  rw [number?_numeral hi, number?_numeral hn]
  rfl

theorem lower_of_isLowHex {u : UInt16} (h : isLowHex u = true) : lower u = u := by
  unfold lower
  rw [if_neg]
  simp only [isLowHex, isUpper, isDigit, Bool.or_eq_true, Bool.and_eq_true, decide_eq_true_eq] at h ⊢
  omega

theorem isHexUnit_of_isLowHex {u : UInt16} (h : isLowHex u = true) : isHexUnit u = true := by
  simp only [isHexUnit, lower_of_isLowHex h]
  exact h

theorem noSpace_of_all {w : JsString} (h : (w.all fun u => !isSpace u) = true) : ∀ u ∈ w, isSpace u = false := by
  intro u hu
  have hspace := List.all_eq_true.mp h u hu
  rwa [Bool.not_eq_true'] at hspace

/-- A letter is one unit that is not a blank, and is read as the type it was written for. -/
theorem letterOf_spec {type : FrameType} {l : JsString} (h : letterOf type = some l) :
    l ≠ [] ∧ (∀ u ∈ l, isSpace u = false) ∧ letter? l = some type := by
  cases type with
  | payEf => cases h; exact ⟨by decide, noSpace_of_all rfl, rfl⟩
  | payBeef => cases h; exact ⟨by decide, noSpace_of_all rfl, rfl⟩
  | nack => cases h
  | receipt => cases h

/-- The text reaches the phone with blanks added at its ends or inside its base64. -/
def Spread (heading data body : JsString) : Prop :=
  ∃ front spread, (∀ u ∈ front, isSpace u = true) ∧ (spread.filter fun u => !isSpace u) = data ∧
    body = front ++ (heading ++ spread)

theorem bsv_ne : js "BSV1" ≠ [] := by decide

/-- The first word of every text has no blank in it. -/
theorem bsv_word : ∀ u ∈ js "BSV1", isSpace u = false := noSpace_of_all rfl

/-- A payment in one text, whose blanks do not make it look like a part. -/
theorem parseText_single {type : FrameType} {l body : JsString} {msg : Bytes}
    (hl : letterOf type = some l) (hmsg : msg ≠ [])
    (hbody : Spread (js "BSV1 " ++ l ++ js " ") (base64Text msg) body)
    (hplain : readPart (words body) = none) : parseText (some body) = some (.whole type msg) := by
  obtain ⟨hne, hspace, hletter⟩ := letterOf_spec hl
  obtain ⟨front, spread, hfront, hspread, rfl⟩ := hbody
  have hwords : words (front ++ (js "BSV1 " ++ l ++ js " " ++ spread)) =
      js "BSV1" :: l :: wordsBy isSpace spread := by
    have happend : js "BSV1 " ++ l ++ js " " ++ spread = js "BSV1" ++ 32 :: (l ++ 32 :: spread) := by
      simp only [List.append_assoc]
      rfl
    rw [words_eq, wordsBy_append_of_separators hfront, happend,
      wordsBy_word_cons bsv_ne bsv_word isSpace_blank, wordsBy_word_cons hne hspace isSpace_blank]
  have hflatten : (wordsBy isSpace spread).flatten = base64Text msg := by
    rw [flatten_wordsBy, hspread]
  have hunits : ∀ w ∈ wordsBy isSpace spread, w.all isBase64Unit = true := fun w hw =>
    List.all_eq_true.mpr fun u hu =>
      isBase64Unit_base64Text msg u (hflatten ▸ List.mem_flatten.mpr ⟨w, hw, hu⟩)
  unfold parseText
  dsimp only [Option.getD_some]
  rw [hplain, hwords]
  dsimp only
  cases hlist : wordsBy isSpace spread with
  | nil =>
      -- Base64 of something is something.
      rw [hlist] at hflatten
      have hdecode := decode_base64Text msg
      rw [← hflatten] at hdecode
      exact absurd hdecode.symm hmsg
  | cons w rest =>
      rw [hlist] at hflatten hunits
      unfold readWhole
      dsimp only
      rw [if_pos ⟨by decide, List.all_eq_true.mpr hunits⟩, hletter, hflatten, decode_base64Text]
      rfl

/-- A part whose base64 was left in one piece. -/
theorem parseText_part {type : FrameType} {l id data body : JsString} {n i : Nat}
    (hl : letterOf type = some l) (hid : id.length = 16) (hhex : ∀ u ∈ id, isLowHex u = true)
    (hi : i ∈ Finset.Icc 1 n) (hn : n ≤ 99) (hdata : ∀ u ∈ data, isBase64Unit u = true)
    (hbody : Spread (partHeader l id n i) data body) (hplain : (words body).length = 5) :
    parseText (some body) = some (.part type i n id data) := by
  obtain ⟨hne, hspace, hletter⟩ := letterOf_spec hl
  have hbounds := Finset.mem_Icc.mp hi
  obtain ⟨front, spread, hfront, hspread, rfl⟩ := hbody
  have hidne : id ≠ [] := by
    rintro rfl
    cases hid
  have hidspace : ∀ u ∈ id, isSpace u = false := by
    intro u hu
    have hhexu := hhex u hu
    refine isSpace_of_isBase64Unit ?_
    simp only [isLowHex, isBase64Unit, isDigit, isLower, isUpper, Bool.or_eq_true, Bool.and_eq_true,
      decide_eq_true_eq] at hhexu ⊢
    omega
  have hratio : ∀ u ∈ js (toString i) ++ 47 :: js (toString n), isSpace u = false := by
    intro u hu
    rcases List.mem_append.mp hu with hu | hu
    · exact isSpace_of_isDigit (isDigit_numeral i u hu)
    · rcases List.mem_cons.mp hu with rfl | hu
      · decide
      · exact isSpace_of_isDigit (isDigit_numeral n u hu)
  have hwords : words (front ++ (partHeader l id n i ++ spread)) =
      js "BSV1" :: l :: (js (toString i) ++ 47 :: js (toString n)) :: id :: wordsBy isSpace spread := by
    have happend : partHeader l id n i ++ spread = js "BSV1" ++ 32 :: (l ++ 32 ::
        ((js (toString i) ++ 47 :: js (toString n)) ++ 32 :: (id ++ 32 :: spread))) := by
      simp only [partHeader, List.append_assoc, List.cons_append]
      rfl
    rw [words_eq, wordsBy_append_of_separators hfront, happend,
      wordsBy_word_cons bsv_ne bsv_word isSpace_blank, wordsBy_word_cons hne hspace isSpace_blank,
      wordsBy_word_cons (by simp) hratio isSpace_blank, wordsBy_word_cons hidne hidspace isSpace_blank]
  rw [hwords] at hplain
  obtain ⟨w, hw⟩ := List.length_eq_one_iff.mp (show (wordsBy isSpace spread).length = 1 by
    simpa using hplain)
  have hwdata : w = data := by
    have hflatten := flatten_wordsBy (p := isSpace) spread
    rw [hw, hspread] at hflatten
    simpa using hflatten
  have hlower : id.map lower = id := by
    have hmap : id.map lower = id.map fun u => u :=
      List.map_congr_left fun u hu => lower_of_isLowHex (hhex u hu)
    rw [hmap, List.map_id']
  subst hwdata
  have hpart : readPart [js "BSV1", l, js (toString i) ++ 47 :: js (toString n), id, w] =
      some (some (.part type i n id w)) := by
    unfold readPart
    dsimp only
    rw [if_pos ⟨by decide, hid, List.all_eq_true.mpr fun u hu => isHexUnit_of_isLowHex (hhex u hu),
      List.all_eq_true.mpr hdata⟩, hletter, ratio?_numerals (by omega) (by omega), hlower]
    show (if i = 0 ∨ n < i then some none else some (some (TextPart.part type i n id w))) = _
    rw [if_neg (by omega)]
  unfold parseText
  dsimp only [Option.getD_some]
  rw [hwords, hw, hpart]

/-! ## What arrives -/

/-- A text of a payment, by its number from one, as it comes out of the phone network. -/
structure Arrival where
  payment : Texted
  part : Nat
  body : JsString
  now : Int

namespace Arrival

/-- It is that text, with blanks added. -/
def Carries (N : Node) (a : Arrival) : Prop :=
  a.part ∈ Finset.Icc 1 a.payment.count ∧
    Spread (a.payment.heading N a.part) (a.payment.piece a.part) a.body

/-- The blanks leave it what it was: they do not make a payment in one text look like a part, and stand at the
ends of the base64 of a part only. -/
def Plain (a : Arrival) : Prop :=
  a.payment.msg ≠ [] ∧
    if a.payment.Single then readPart (words a.body) = none else (words a.body).length = 5

/-- What `parseText` makes of it. -/
def parsed (N : Node) (a : Arrival) : TextPart :=
  if a.payment.Single then .whole a.payment.type a.payment.msg
  else .part a.payment.type a.part a.payment.count (a.payment.id N) (a.payment.piece a.part)

theorem parseText_body {N : Node} (hN : LongDigests N) {a : Arrival} (hacc : a.payment.Accepted N)
    (hcarries : a.Carries N) (hplain : a.Plain) : parseText (some a.body) = some (a.parsed N) := by
  obtain ⟨-, hletter, hmany⟩ := Texted.accepted_spec hacc
  obtain ⟨hpart, hbody⟩ := hcarries
  obtain ⟨hmsg, hread⟩ := hplain
  by_cases hsingle : a.payment.Single
  · rw [if_pos hsingle] at hread
    rw [Texted.heading, Texted.piece, if_pos hsingle, if_pos hsingle] at hbody
    rw [parsed, if_pos hsingle]
    exact parseText_single hletter hmsg hbody hread
  · rw [if_neg hsingle] at hread
    rw [Texted.heading, if_neg hsingle] at hbody
    rw [parsed, if_neg hsingle]
    exact parseText_part hletter (length_hexId hN _) (isLowHex_encode _) hpart hmany
      Texted.isBase64_piece hbody hread

end Arrival

/-- What is in of a payment, and since when. -/
structure Round where
  got : Finset Nat
  first : Int

/-- One text more: once all are in, the next round begins with none. -/
def Round.hear (s : Texted) (r : Round) (a : Arrival) : Round :=
  if a.payment = s then
    if insert a.part r.got = Finset.Icc 1 s.count then ⟨∅, a.now⟩
    else ⟨insert a.part r.got, if r.got = ∅ then a.now else r.first⟩
  else r

/-- The texts of a payment that came since it was last whole. -/
def round (s : Texted) (front : List Arrival) : Round := front.foldl (Round.hear s) ⟨∅, 0⟩

/-- While more texts of a payment are to come, no text comes later than a day after the first of its round. -/
def Timely (run : List Arrival) : Prop :=
  ∀ front a back, run = front ++ a :: back → ∀ b ∈ a :: back,
    (round b.payment front).got.Nonempty → a.now - (round b.payment front).first ≤ maxAgeMs

/-- Payments in parts of one sender have different ids. -/
def DistinctIds (N : Node) (sent : List Texted) : Prop :=
  ∀ s ∈ sent, ∀ t ∈ sent, ¬ s.Single → ¬ t.Single → s.sender = t.sender → s.id N = t.id N → s = t

/-- The assembler fed with what `parseText` makes of a text. -/
def Texts.receive (N : Node) (parts : Texts) (sender body : JsString) (now : Int) : Option Whole × Texts :=
  match parseText (some body) with
  | none => (none, parts)
  | some p => parts.add N sender p now

/-- A new assembler after some texts. -/
def Texts.after (N : Node) (front : List Arrival) : Texts :=
  front.foldl (fun parts a => (parts.receive N a.payment.sender a.body a.now).2) JsMap.empty

theorem round_append (s : Texted) (front : List Arrival) (a : Arrival) :
    round s (front ++ [a]) = (round s front).hear s a := by
  rw [round, List.foldl_append]
  rfl

/-- Only texts of the payment are in. -/
theorem round_subset {N : Node} {s : Texted} {front : List Arrival} (h : ∀ a ∈ front, a.Carries N) :
    (round s front).got ⊆ Finset.Icc 1 s.count := by
  induction front using List.reverseRecOn with
  | nil => exact Finset.empty_subset _
  | append_singleton front a ih =>
      have hsub := ih fun b hb => h b (List.mem_append_left _ hb)
      have ha := (h a (List.mem_append_right _ List.mem_cons_self)).1
      rw [round_append, Round.hear]
      split
      · next hsame =>
        subst hsame
        split
        · exact Finset.empty_subset _
        · exact Finset.insert_subset ha hsub
      · exact hsub

/-! ## Forgetting -/

theorem get?_foldl_delete {κ ν : Type} [DecidableEq κ] (old : κ × ν → Bool) (k : κ) (es : List (κ × ν)) :
    ∀ m : JsMap κ ν, (es.foldl (fun m e => if old e then m.delete e.1 else m) m).get? k =
      if ∃ e ∈ es, e.1 = k ∧ old e = true then none else m.get? k := by
  induction es with
  | nil => intro m; simp
  | cons e es ih =>
      intro m
      rw [List.foldl_cons, ih]
      by_cases hlater : ∃ e ∈ es, e.1 = k ∧ old e = true
      · rw [if_pos hlater, if_pos]
        obtain ⟨e', he', hold⟩ := hlater
        exact ⟨e', List.mem_cons_of_mem _ he', hold⟩
      · rw [if_neg hlater]
        by_cases hnow : e.1 = k ∧ old e = true
        · rw [if_pos hnow.2, if_pos ⟨e, List.mem_cons_self, hnow⟩, ← hnow.1]
          exact JsMap.get?_delete_self m _
        · rw [if_neg (show ¬ ∃ e' ∈ e :: es, e'.1 = k ∧ old e' = true from ?_)]
          · split
            · next hold => exact JsMap.get?_delete_ne m fun hk => hnow ⟨hk.symm, hold⟩
            · rfl
          · rintro ⟨e', he', hold⟩
            rcases List.mem_cons.mp he' with rfl | he'
            · exact hnow hold
            · exact hlater ⟨e', he', hold⟩

/-- What is forgotten is what began more than a day ago. -/
theorem get?_prune (parts : Texts) (now : Int) (k : JsString) :
    (parts.prune now).get? k = (parts.get? k).filter fun e => ¬ maxAgeMs < now - e.at_ := by
  have hfold := get?_foldl_delete (fun e : JsString × TextParts => decide (maxAgeMs < now - e.2.at_)) k
    parts.entries parts
  simp only [decide_eq_true_eq] at hfold
  rw [Texts.prune, hfold]
  cases hget : parts.get? k with
  | none =>
      rw [Option.filter_none]
      split
      · rfl
      · rfl
  | some e =>
      have hiff : (∃ e' ∈ parts.entries, e'.1 = k ∧ maxAgeMs < now - e'.2.at_) ↔
          maxAgeMs < now - e.at_ := by
        constructor
        · rintro ⟨⟨k', e'⟩, hmem, rfl, hold⟩
          rw [JsMap.mem_entries_iff.mp hmem] at hget
          cases hget
          exact hold
        · intro hold
          exact ⟨(k, e), JsMap.mem_entries_iff.mpr hget, rfl, hold⟩
      rw [Option.filter_some]
      by_cases hold : maxAgeMs < now - e.at_
      · rw [if_pos (hiff.mpr hold), if_neg]
        rw [decide_eq_true_eq]
        exact not_not_intro hold
      · rw [if_neg (fun h => hold (hiff.mp h)), if_pos (decide_eq_true hold)]

/-! ## What is in of a payment -/

def Texted.key (N : Node) (s : Texted) : JsString := textKey s.sender (s.id N)

theorem key_inj {N : Node} (hN : LongDigests N) {s t : Texted} (h : s.key N = t.key N) :
    s.sender = t.sender ∧ s.id N = t.id N := by
  have hlen : (s.id N).length = (t.id N).length :=
    (length_hexId hN s.msg).trans (length_hexId hN t.msg).symm
  obtain ⟨hfront, hid⟩ := List.append_inj' h hlen
  exact ⟨List.append_cancel_right hfront, hid⟩

/-- The assembler holds exactly the parts of this round. -/
def TextHeld (N : Node) (parts : Texts) (s : Texted) (r : Round) : Prop :=
  if r.got = ∅ then parts.get? (s.key N) = none
  else ∃ e, parts.get? (s.key N) = some e ∧ e.of_ = s.count ∧ e.type = s.type ∧ e.at_ = r.first ∧
    Holds e.got r.got s.piece

variable {N : Node} {s : Texted} {parts : Texts} {r : Round}

/-- What the assembler works on when a part comes within the day. -/
theorem TextHeld.current (h : TextHeld N parts s r) {now : Int}
    (hfresh : r.got.Nonempty → now - r.first ≤ maxAgeMs) :
    ∃ e, ((parts.prune now).get? (s.key N)).getD
        { of_ := s.count, type := s.type, got := JsMap.empty, at_ := now } = e ∧
      e.of_ = s.count ∧ e.type = s.type ∧ e.at_ = (if r.got = ∅ then now else r.first) ∧
        Holds e.got r.got s.piece := by
  rw [TextHeld] at h
  rw [get?_prune]
  split at h
  · next hnil =>
    rw [h, hnil, if_pos rfl]
    exact ⟨_, rfl, rfl, rfl, rfl, Holds.empty⟩
  · next hsome =>
    obtain ⟨e, he, hof, htype, hat, hholds⟩ := h
    have hyoung := hfresh (Finset.nonempty_iff_ne_empty.mpr hsome)
    rw [he, Option.filter_some, if_pos (by rw [hat]; simpa using hyoung), if_neg hsome]
    exact ⟨e, rfl, hof, htype, hat, hholds⟩

/-- A part of one payment leaves of the others what is not too old. -/
theorem get?_addPart_ne {sender id data k : JsString} {type : FrameType} {i n : Nat} {now : Int}
    (h : k ≠ textKey sender id) :
    (parts.add N sender (.part type i n id data) now).2.get? k = (parts.prune now).get? k := by
  unfold Texts.add
  dsimp only
  split
  · exact JsMap.get?_set_ne _ h _
  · split
    · exact JsMap.get?_set_ne _ h _
    · exact JsMap.get?_delete_ne _ h

/-- **What a part of the payment does**: it is kept, or the payment is whole. -/
theorem TextHeld.add (h : TextHeld N parts s r) (hparts : ¬ s.Single) {i : Nat}
    (hsub : insert i r.got ⊆ Finset.Icc 1 s.count) {now : Int}
    (hfresh : r.got.Nonempty → now - r.first ≤ maxAgeMs) :
    let a := parts.add N s.sender (.part s.type i s.count (s.id N) (s.piece i)) now
    TextHeld N a.2 s
        (if insert i r.got = Finset.Icc 1 s.count then ⟨∅, now⟩
          else ⟨insert i r.got, if r.got = ∅ then now else r.first⟩) ∧
      a.1 = if insert i r.got = Finset.Icc 1 s.count then some (.message s.type (s.id N) s.msg)
        else none := by
  obtain ⟨e, hcurrent, hof, htype, hat, hholds⟩ := h.current hfresh
  have hnew := hholds.set i
  have hsize := hnew.size_lt_iff hsub
  have hpos : 0 < s.count := by
    have hi := Finset.mem_Icc.mp (hsub (Finset.mem_insert_self i _))
    omega
  have hkey : textKey s.sender (s.id N) = s.key N := rfl
  dsimp only
  unfold Texts.add
  dsimp only
  rw [hkey, hcurrent, if_neg (by simp [hof, htype])]
  by_cases hall : insert i r.got = Finset.Icc 1 s.count
  · rw [hof, if_neg (fun hlt => hsize.mp hlt hall), if_pos hall, if_pos hall]
    rw [hall] at hnew
    refine ⟨?_, ?_⟩
    · rw [TextHeld, if_pos rfl]
      exact JsMap.get?_delete_self _ _
    · have hdecode : Base64.decode (scalars s.b64) = s.msg := decode_base64Text s.msg
      rw [hnew.joined, s.flatMap_piece hparts hpos, hdecode, htype]
      show some (if s.id N ≠ s.id N then Whole.corrupt s.type (s.id N) else .message s.type (s.id N) s.msg) = _
      rw [if_neg (fun hne => hne rfl)]
  · rw [hof, if_pos (hsize.mpr hall), if_neg hall, if_neg hall]
    refine ⟨?_, rfl⟩
    rw [TextHeld, if_neg (Finset.insert_nonempty i r.got).ne_empty]
    exact ⟨_, JsMap.get?_set_self _ _ _, rfl, htype, hat, hnew⟩

/-- A text came more than a day after the first one of a round of the payment. -/
def Late (s : Texted) (front : List Arrival) : Prop :=
  ∃ before a after, front = before ++ a :: after ∧ (round s before).got.Nonempty ∧
    maxAgeMs < a.now - (round s before).first

theorem Late.append {front : List Arrival} (h : Late s front) (a : Arrival) : Late s (front ++ [a]) := by
  obtain ⟨before, b, after, rfl, hround⟩ := h
  exact ⟨before, b, after ++ [a], by simp, hround⟩

/-- Of a payment that was late, nothing more comes. -/
theorem Timely.not_late {front : List Arrival} {a : Arrival} (h : Timely (front ++ [a])) :
    ¬ Late a.payment front := by
  rintro ⟨before, b, after, rfl, hsome, hlate⟩
  have hle := h before b (after ++ [a]) (by simp) a (by simp) hsome
  omega

theorem Timely.fresh {front : List Arrival} {a : Arrival} (h : Timely (front ++ [a]))
    (hsome : (round a.payment front).got.Nonempty) : a.now - (round a.payment front).first ≤ maxAgeMs :=
  h front a [] rfl a List.mem_cons_self hsome

theorem Timely.front {front : List Arrival} {a : Arrival} (h : Timely (front ++ [a])) : Timely front := by
  rintro before b after rfl c hc
  exact h before b (after ++ [a]) (by simp) c (List.mem_append_left [a] hc)

/-- A round began with one of the texts. -/
theorem round_first {front : List Arrival} (h : (round s front).got.Nonempty) :
    ∃ b ∈ front, (round s front).first = b.now := by
  induction front using List.reverseRecOn with
  | nil => exact absurd h Finset.not_nonempty_empty
  | append_singleton front a ih =>
      rw [round_append, Round.hear] at h ⊢
      split at h
      · next hsame =>
        rw [if_pos hsame]
        split at h
        · exact absurd h Finset.not_nonempty_empty
        · next hmore =>
          rw [if_neg hmore]
          by_cases hnil : (round s front).got = ∅
          · exact ⟨a, List.mem_append_right _ List.mem_cons_self, if_pos hnil⟩
          · obtain ⟨b, hb, hfirst⟩ := ih (Finset.nonempty_iff_ne_empty.mpr hnil)
            exact ⟨b, List.mem_append_left _ hb, (if_neg hnil).trans hfirst⟩
      · next hother =>
        rw [if_neg hother]
        obtain ⟨b, hb, hfirst⟩ := ih h
        exact ⟨b, List.mem_append_left _ hb, hfirst⟩

/-- Texts of one day are in time. -/
theorem timely_of_day {run : List Arrival} (h : ∀ a ∈ run, ∀ b ∈ run, a.now - b.now ≤ maxAgeMs) :
    Timely run := by
  rintro before a after rfl b - hsome
  obtain ⟨c, hc, hfirst⟩ := round_first hsome
  rw [hfirst]
  exact h a (List.mem_append_right _ List.mem_cons_self) c (List.mem_append_left _ hc)

/-- Texts of the payments that reach the phone readable. -/
def Legible (N : Node) (sent : List Texted) (a : Arrival) : Prop :=
  a.payment ∈ sent ∧ a.Carries N ∧ a.Plain

theorem receive_eq (hN : LongDigests N) {sent : List Texted} (hacc : ∀ s ∈ sent, s.Accepted N)
    {a : Arrival} (ha : Legible N sent a) :
    parts.receive N a.payment.sender a.body a.now =
      parts.add N a.payment.sender (a.parsed N) a.now := by
  unfold Texts.receive
  rw [Arrival.parseText_body hN (hacc _ ha.1) ha.2.1 ha.2.2]

theorem textsAfter_append (front : List Arrival) (a : Arrival) : Texts.after N (front ++ [a]) =
    ((Texts.after N front).receive N a.payment.sender a.body a.now).2 := by
  rw [Texts.after, List.foldl_append]
  rfl

/-- **The assembler holds what came of each payment** since it was last whole, but for what was late. -/
theorem textHeld_after (hN : LongDigests N) {sent : List Texted} (hacc : ∀ s ∈ sent, s.Accepted N)
    (hids : DistinctIds N sent) {front : List Arrival} (hfront : ∀ a ∈ front, Legible N sent a)
    (htimely : Timely front) (hs : s ∈ sent) (hparts : ¬ s.Single) :
    TextHeld N (Texts.after N front) s (round s front) ∨ Late s front := by
  induction front using List.reverseRecOn with
  | nil =>
      refine .inl ?_
      rw [TextHeld, if_pos (show (round s []).got = ∅ from rfl)]
      rfl
  | append_singleton front a ih =>
      have hbefore : ∀ b ∈ front, Legible N sent b := fun b hb => hfront b (List.mem_append_left _ hb)
      have ha := hfront a (List.mem_append_right _ List.mem_cons_self)
      rcases ih hbefore htimely.front with hheld | hlate
      · rw [textsAfter_append, receive_eq hN hacc ha, round_append, Round.hear]
        by_cases hsame : a.payment = s
        · subst hsame
          have hsub : insert a.part (round a.payment front).got ⊆ Finset.Icc 1 a.payment.count :=
            Finset.insert_subset ha.2.1.1 (round_subset fun b hb => (hbefore b hb).2.1)
          rw [if_pos rfl, Arrival.parsed, if_neg hparts]
          exact .inl (hheld.add hparts hsub htimely.fresh).1
        · rw [if_neg hsame]
          by_cases hsingle : a.payment.Single
          · rw [Arrival.parsed, if_pos hsingle]
            exact .inl hheld
          · -- Payments are told apart by their senders and ids.
            have hkey : s.key N ≠ textKey a.payment.sender (a.payment.id N) := fun h =>
              hsame (hids _ hs _ ha.1 hparts hsingle (key_inj hN h).1 (key_inj hN h).2).symm
            rw [Arrival.parsed, if_neg hsingle]
            unfold TextHeld at hheld ⊢
            rw [get?_addPart_ne hkey, get?_prune]
            split at hheld
            · next hnil =>
              rw [if_pos hnil, hheld]
              exact .inl rfl
            · next hsome =>
              obtain ⟨e, he, hof, htype, hat, hholds⟩ := hheld
              rw [he, Option.filter_some, if_neg hsome]
              by_cases hold : maxAgeMs < a.now - e.at_
              · rw [hat] at hold
                exact .inr ⟨front, a, [], rfl, Finset.nonempty_iff_ne_empty.mpr hsome, hold⟩
              · rw [if_pos (decide_eq_true hold)]
                exact .inl ⟨e, rfl, hof, htype, hat, hholds⟩
      · exact .inr (hlate.append a)

/-- **Texts make up their payments**, in any order, with repeats and with blanks that leave them readable: the text
that was missing brings the payment with its type and id, and no text brings anything else. -/
theorem texts_collected (N : Node) (hN : LongDigests N) (sent : List Texted)
    (hacc : ∀ s ∈ sent, s.Accepted N) (hids : DistinctIds N sent) (front : List Arrival) (a : Arrival)
    (hrun : ∀ b ∈ front ++ [a], b.payment ∈ sent ∧ b.Carries N ∧ b.Plain)
    (htimely : Timely (front ++ [a])) :
    (∀ s ∈ sent, paymentTexts N s.type s.msg s.maxChars =
        .ok ((List.range s.count).map fun i => s.heading N (i + 1) ++ s.piece (i + 1))) ∧
      ((Texts.after N front).receive N a.payment.sender a.body a.now).1 =
        if insert a.part (round a.payment front).got = Finset.Icc 1 a.payment.count then
          some (.message a.payment.type (a.payment.id N) a.payment.msg)
        else none := by
  refine ⟨fun s hs => (Texted.accepted_spec (hacc s hs)).1, ?_⟩
  have hbefore : ∀ b ∈ front, Legible N sent b := fun b hb => hrun b (List.mem_append_left _ hb)
  have ha : Legible N sent a := hrun a (List.mem_append_right _ List.mem_cons_self)
  have hsub : insert a.part (round a.payment front).got ⊆ Finset.Icc 1 a.payment.count :=
    Finset.insert_subset ha.2.1.1 (round_subset fun b hb => (hbefore b hb).2.1)
  rw [receive_eq hN hacc ha, Arrival.parsed]
  by_cases hsingle : a.payment.Single
  · rw [if_pos hsingle]
    have hcount : a.payment.count = 1 := if_pos hsingle
    rw [hcount] at hsub ⊢
    have hpart := Finset.mem_Icc.mp (hsub (Finset.mem_insert_self _ _))
    have hall : insert a.part (round a.payment front).got = Finset.Icc 1 1 :=
      Finset.Subset.antisymm hsub (by
        rw [Finset.Icc_self, Finset.singleton_subset_iff, show (1 : Nat) = a.part by omega]
        exact Finset.mem_insert_self _ _)
    rw [if_pos hall]
    rfl
  · rw [if_neg hsingle]
    rcases textHeld_after hN hacc hids hbefore htimely.front ha.1 hsingle with hheld | hlate
    · exact (hheld.add hsingle hsub htimely.fresh).2
    · exact absurd hlate htimely.not_late

/-! ## A payment in two texts -/

/-- Sixty bytes for texts of eighty characters. -/
def twoTexts : Texted where
  sender := js "+1"
  type := .payBeef
  msg := List.replicate 60 1
  maxChars := .fin 80

/-- A text as it was sent, with a line break after it. -/
def twoTextsAt (i : Nat) : Arrival where
  payment := twoTexts
  part := i
  body := twoTexts.heading longNode i ++ (twoTexts.piece i ++ js "\n")
  now := 7

theorem texts_collected_sample :
    let a := twoTextsAt 1
    (∀ s ∈ [twoTexts], paymentTexts longNode s.type s.msg s.maxChars =
        .ok ((List.range s.count).map fun i => s.heading longNode (i + 1) ++ s.piece (i + 1))) ∧
      ((Texts.after longNode [twoTextsAt 2]).receive longNode a.payment.sender a.body a.now).1 =
        if insert a.part (round a.payment [twoTextsAt 2]).got = Finset.Icc 1 a.payment.count then
          some (.message a.payment.type (a.payment.id longNode) a.payment.msg)
        else none := by
  have hspread : ∀ i, Spread (twoTexts.heading longNode i) (twoTexts.piece i) (twoTextsAt i).body := by
    intro i
    refine ⟨[], twoTexts.piece i ++ js "\n", fun u hu => (by cases hu), ?_, (List.nil_append _).symm⟩
    have hkept : ((twoTexts.piece i).filter fun u => !isSpace u) = twoTexts.piece i :=
      List.filter_eq_self.mpr fun u hu => by
        rw [isSpace_of_isBase64Unit (Texted.isBase64_piece u hu)]
        rfl
    rw [List.filter_append, hkept]
    exact List.append_nil _
  have hplain : (1 ∈ Finset.Icc 1 twoTexts.count ∧ 2 ∈ Finset.Icc 1 twoTexts.count) ∧
      ¬ twoTexts.Single ∧ (words (twoTextsAt 1).body).length = 5 ∧
        (words (twoTextsAt 2).body).length = 5 := by decide +kernel
  have hread : ∀ i, (words (twoTextsAt i).body).length = 5 → (twoTextsAt i).Plain := by
    intro i hlen
    refine ⟨show twoTexts.msg ≠ [] by decide +kernel, ?_⟩
    rw [if_neg (show ¬ (twoTextsAt i).payment.Single from hplain.2.1)]
    exact hlen
  refine texts_collected longNode longNode_longDigests [twoTexts] (by decide +kernel) ?_
    [twoTextsAt 2] (twoTextsAt 1) ?_ ?_
  · intro s hs t ht _ _ _ _
    rw [List.mem_singleton.mp hs, List.mem_singleton.mp ht]
  · intro b hb
    rcases List.mem_pair.mp hb with rfl | rfl
    · exact ⟨List.mem_singleton_self _, ⟨hplain.1.2, hspread 2⟩, hread 2 hplain.2.2.2⟩
    · exact ⟨List.mem_singleton_self _, ⟨hplain.1.1, hspread 1⟩, hread 1 hplain.2.2.1⟩
  · have hnow : ∀ b ∈ [twoTextsAt 2] ++ [twoTextsAt 1], b.now = 7 := by
      intro b hb
      rcases List.mem_pair.mp hb with rfl | rfl
      · rfl
      · rfl
    refine timely_of_day fun b hb c hc => ?_
    rw [hnow b hb, hnow c hc]
    decide

/-- **A blank inside the base64 of a part**: the part is read as a payment in one text, which nobody sent. -/
theorem spread_part_misread :
    let body := twoTexts.heading longNode 1 ++
      ((twoTexts.piece 1).take 4 ++ js " " ++ (twoTexts.piece 1).drop 4)
    Spread (twoTexts.heading longNode 1) (twoTexts.piece 1) body ∧
      ((Texts.after longNode []).receive longNode twoTexts.sender body 7).1.any (fun whole =>
        whole ≠ .message twoTexts.type (twoTexts.id longNode) twoTexts.msg) = true :=
  ⟨⟨[], (twoTexts.piece 1).take 4 ++ js " " ++ (twoTexts.piece 1).drop 4, fun u hu => (by cases hu),
    by decide +kernel, (List.nil_append _).symm⟩, by decide +kernel⟩

end DtnCustody.Radio
