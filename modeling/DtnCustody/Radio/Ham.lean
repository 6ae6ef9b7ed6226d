/-
# DtnCustody.Radio.Ham — `radio/lib/ham.mjs`: what the amateur profile refuses, and when it identifies.

A text is refused when one of the patterns is found in it. The first and the last of the payment patterns look at
the start of a text only, and `BSV1` is looked for as a word. The plan of a transmission is its messages in
segments, with the identification before each segment and at the end (`hamPlan_kept`).
-/
import DtnCustody.Js.Operators
import DtnCustody.Radio.Text

namespace DtnCustody.Radio.Ham

open Base Js

/-! ## Patterns -/

/-- A pattern is found at some place: what stands before it and from it on. -/
def anySplit (t : JsString) (found : JsString → JsString → Bool) : Bool :=
  (List.range (t.length + 1)).any fun i => found (t.take i) (t.drop i)

theorem anySplit_append {a b : JsString} {found : JsString → JsString → Bool} (h : found a b = true) :
    anySplit (a ++ b) found = true := by
  refine List.any_eq_true.mpr ⟨a.length, List.mem_range.mpr ?_, ?_⟩
  · rw [List.length_append]
    omega
  · rw [List.take_left, List.drop_left]
    exact h

/-- `\w`. -/
def isWord (u : UInt16) : Bool := isDigit u || isLower u || isUpper u || u = 95

/-- `\b`, between what stands before and after. -/
def boundary (before after : JsString) : Bool := before.getLast?.any isWord != after.head?.any isWord

/-- `[1-9a-z]`. -/
def isPartDigit (u : UInt16) : Bool := (isDigit u && !(u = 48)) || isLower u

/-- `/^S[1-9a-z]{2}[EB][0-9a-f]{8}/`: a sound chunk of a payment. -/
def soundLike : JsString → Bool
  | s :: p :: n :: t :: rest =>
      s = 83 && isPartDigit p && isPartDigit n && (t = 69 || t = 66) && decide (8 ≤ rest.length) &&
        (rest.take 8).all isLowHex
  | _ => false

/-- `/\bBSV1\b/i`: the text of a payment or a claim. -/
def textLike (t : JsString) : Bool :=
  anySplit t fun before after =>
    boundary before after && decide ((after.take 4).map lower = js "bsv1") &&
      boundary (before ++ after.take 4) (after.drop 4)

/-- `/\bBSV RECEIPT\b|\bR1 [A-Za-z0-9+/=]{20,}/`: a gateway receipt. -/
def receiptLike (t : JsString) : Bool :=
  anySplit t fun before after =>
    boundary before after &&
      ((decide (after.take 11 = js "BSV RECEIPT") && boundary (before ++ after.take 11) (after.drop 11)) ||
        (decide (after.take 3 = js "R1 ") && decide (20 ≤ ((after.drop 3).takeWhile isBase64Unit).length)))

/-- `/^[FC][1-9a-z]{2}/`: a faucet coin or claim chunk. -/
def faucetLike : JsString → Bool
  | s :: p :: n :: _ => (s = 70 || s = 67) && isPartDigit p && isPartDigit n
  | _ => false

/-- `OPAQUE`. -/
def isOpaque (t : JsString) : Bool :=
  anySplit t fun _ after =>
    decide (24 ≤ (after.takeWhile isBase64Unit).length) || decide (24 ≤ (after.takeWhile isHexUnit).length)

/-- `[A-Z0-9]`. -/
def isCallUnit (u : UInt16) : Bool := isDigit u || isUpper u

/-- `/^DE [A-Z0-9]+$/`. -/
def isIdentification (t : JsString) : Bool :=
  decide (t.take 3 = js "DE ") && !(t.drop 3).isEmpty && (t.drop 3).all isCallUnit

/-- `/^[\x20-\x7e]{1,140}$/`. -/
def isShortPlain (t : JsString) : Bool :=
  decide (1 ≤ t.length ∧ t.length ≤ 140) && t.all fun u => 0x20 ≤ u.toNat && u.toNat ≤ 0x7e

/-- `hamRefusal(text)`. -/
def hamRefusal (t : JsString) : Option String :=
  if soundLike t || textLike t || receiptLike t || faucetLike t then
    some "payment traffic is not allowed on amateur bands"
  else if isOpaque (if isIdentification t then [] else t) then
    some "long encoded data is not allowed: it could obscure the meaning"
  else if !isShortPlain t then
    some "only short plain-text messages (printable ASCII, up to 140 characters)"
  else none

/-- `CALLSIGN`: the digit is the second, third or fourth character, with up to three after it and a letter. -/
def isCallsign (t : JsString) : Bool :=
  decide (3 ≤ t.length ∧ t.length ≤ 8) && t.all isCallUnit && t.getLast?.any isUpper &&
    [1, 2, 3].any fun i => t[i]?.any isDigit && decide (i + 2 ≤ t.length ∧ t.length ≤ i + 5)

/-! ## The plan -/

/-- `ID_EVERY_S`. -/
def idEveryS : JsNum := .fin 570

/-- The messages and the identifications among them, with the airtime since the last one. -/
def planFrom (id : JsString) (durationS : JsString → JsNum) (since : JsNum) : List JsString → List JsString
  | [] => [id]
  | m :: rest =>
      let d := durationS m
      if idEveryS.lt (since.add d) = some true then
        id :: m :: planFrom id durationS ((durationS id).add d) rest
      else m :: planFrom id durationS (since.add d) rest

/-- `hamPlan(messages, { callsign, durationS })`; `upper` is `toUpperCase`. -/
def hamPlan (upper : JsString → JsString) (messages : List JsString) (callsign : Option JsString)
    (durationS : JsString → JsNum) : Outcome (List JsString) :=
  let call := upper (callsign.getD [])
  if !isCallsign call then .error (.error "a valid amateur callsign is required (--ham <CALLSIGN>)")
  else
    match messages.findSome? hamRefusal with
    | some why => .error (.error s!"refused: {why}")
    | none =>
        let id := js "DE " ++ call
        .ok (id :: planFrom id durationS (durationS id) messages)

/-- The airtime from the start of an identification, over some messages. -/
def airtime (durationS : JsString → JsNum) (since : JsNum) (seg : List JsString) : JsNum :=
  seg.foldl (fun since m => since.add (durationS m)) since

/-- The messages in their order, in segments, with the identification before each segment and at the end; and no
segment is too long, unless a message is with the identification alone. -/
structure Identified (id : JsString) (durationS : JsString → JsNum) (messages plan : List JsString) : Prop where
  segments : ∃ segs : List (List JsString), segs ≠ [] ∧ plan = segs.flatMap (fun seg => id :: seg) ++ [id] ∧
    segs.flatten = messages ∧
      ((∀ m ∈ messages, idEveryS.ge ((durationS m).add (durationS id)) = true) →
        ∀ seg ∈ segs, seg ≠ [] → idEveryS.ge (airtime durationS (durationS id) seg) = true)

/-! ## Airtime -/

/-- A number, and not endless. -/
def Tame (x : JsNum) : Prop := x ≠ .nan ∧ x ≠ .inf false

theorem Tame.add {x y : JsNum} (hx : Tame x) (hy : Tame y) : Tame (x.add y) := by
  obtain ⟨hx, hx'⟩ := hx
  obtain ⟨hy, hy'⟩ := hy
  cases x with
  | nan => exact absurd rfl hx
  | inf a =>
      cases a with
      | false => exact absurd rfl hx'
      | true =>
          cases y with
          | nan => exact absurd rfl hy
          | inf b =>
              cases b with
              | false => exact absurd rfl hy'
              | true => exact ⟨by simp [JsNum.add], by simp [JsNum.add]⟩
          | fin q => exact ⟨by simp [JsNum.add], by simp [JsNum.add]⟩
  | fin p =>
      cases y with
      | nan => exact absurd rfl hy
      | inf b =>
          cases b with
          | false => exact absurd rfl hy'
          | true => exact ⟨by simp [JsNum.add], by simp [JsNum.add]⟩
      | fin q => exact ⟨by simp [JsNum.add], by simp [JsNum.add]⟩

/-- A sum within the limit is of two numbers that are not endless. -/
theorem tame_of_ge {x y : JsNum} (h : idEveryS.ge (x.add y) = true) : Tame x ∧ Tame y := by
  cases x with
  | nan => simp [JsNum.add, JsNum.ge, JsNum.lt, idEveryS] at h
  | inf a =>
      cases y with
      | nan => simp [JsNum.add, JsNum.ge, JsNum.lt, idEveryS] at h
      | inf b => cases a <;> cases b <;> simp [JsNum.add, JsNum.ge, JsNum.lt, idEveryS, Tame] at h ⊢
      | fin q => cases a <;> simp [JsNum.add, JsNum.ge, JsNum.lt, idEveryS, Tame] at h ⊢
  | fin p =>
      cases y with
      | nan => simp [JsNum.add, JsNum.ge, JsNum.lt, idEveryS] at h
      | inf b => cases b <;> simp [JsNum.add, JsNum.ge, JsNum.lt, idEveryS, Tame] at h ⊢
      | fin q => simp [Tame]

theorem ge_of_tame {x : JsNum} (hx : Tame x) (h : idEveryS.lt x ≠ some true) : idEveryS.ge x = true := by
  unfold JsNum.ge
  cases hlt : idEveryS.lt x with
  | none =>
      cases x with
      | nan => exact absurd rfl hx.1
      | inf a => cases hlt
      | fin q => cases hlt
  | some b =>
      cases b with
      | true => exact absurd hlt h
      | false => rfl

theorem sum_comm (x y : JsNum) : x.add y = y.add x := by
  cases x with
  | nan => cases y <;> rfl
  | inf a =>
      cases y with
      | nan => rfl
      | inf b => cases a <;> cases b <;> rfl
      | fin q => rfl
  | fin p =>
      cases y with
      | nan => rfl
      | inf b => rfl
      | fin q => exact congrArg JsNum.fin (add_comm p q)

/-- **The loop**: the rest of the segment that is on, and whole segments after it. -/
theorem planFrom_spec {id : JsString} {durationS : JsString → JsNum} {messages : List JsString} :
    ∀ {since : JsNum}, ∃ (seg : List JsString) (segs : List (List JsString)),
      planFrom id durationS since messages = seg ++ segs.flatMap (fun seg => id :: seg) ++ [id] ∧
        seg ++ segs.flatten = messages ∧
        (Tame since → (∀ m ∈ messages, idEveryS.ge ((durationS m).add (durationS id)) = true) →
          (seg ≠ [] → idEveryS.ge (airtime durationS since seg) = true) ∧
            ∀ s ∈ segs, s ≠ [] → idEveryS.ge (airtime durationS (durationS id) s) = true) := by
  induction messages with
  | nil =>
      intro since
      exact ⟨[], [], rfl, rfl, fun _ _ => ⟨fun h => absurd rfl h, fun s hs => (by cases hs)⟩⟩
  | cons m rest ih =>
      intro since
      rw [planFrom]
      split
      · -- The identification comes first: a new segment begins with the message.
        obtain ⟨seg, segs, hplan, hflatten, htime⟩ := @ih ((durationS id).add (durationS m))
        refine ⟨[], (m :: seg) :: segs, ?_, ?_, fun _ hall => ⟨fun h => absurd rfl h, fun s hs _ => ?_⟩⟩
        · rw [hplan]
          simp
        · simpa using hflatten
        · have hm := hall m List.mem_cons_self
          have htame := tame_of_ge hm
          obtain ⟨hseg, hsegs⟩ := htime (htame.2.add htame.1) fun m' hm' => hall m' (List.mem_cons_of_mem _ hm')
          rcases List.mem_cons.mp hs with rfl | hs
          · by_cases hnil : seg = []
            · subst hnil
              show idEveryS.ge ((durationS id).add (durationS m)) = true
              rw [sum_comm]
              exact hm
            · exact hseg hnil
          · exact hsegs s hs (by assumption)
      · next hshort =>
        obtain ⟨seg, segs, hplan, hflatten, htime⟩ := @ih (since.add (durationS m))
        refine ⟨m :: seg, segs, ?_, ?_, fun hsince hall => ?_⟩
        · rw [hplan]
          rfl
        · rw [List.cons_append, hflatten]
        · have htame := hsince.add (tame_of_ge (hall m List.mem_cons_self)).1
          obtain ⟨hseg, hsegs⟩ := htime htame fun m' hm' => hall m' (List.mem_cons_of_mem _ hm')
          refine ⟨fun _ => ?_, hsegs⟩
          by_cases hnil : seg = []
          · subst hnil
            exact ge_of_tame htame hshort
          · exact hseg hnil

/-- **A plan identifies**: first, last, and before the limit. -/
theorem planned_identified {id : JsString} {durationS : JsString → JsNum} {messages : List JsString} :
    Identified id durationS messages (id :: planFrom id durationS (durationS id) messages) := by
  obtain ⟨seg, segs, hplan, hflatten, htime⟩ :=
    @planFrom_spec id durationS messages (durationS id)
  refine ⟨⟨seg :: segs, List.cons_ne_nil _ _, ?_, hflatten, fun hall s hs hne => ?_⟩⟩
  · rw [hplan]
    rfl
  · -- With no messages there is nothing to time.
    have hsome : ∃ m, m ∈ messages := by
      obtain ⟨m, hm⟩ := List.exists_mem_of_ne_nil s hne
      exact ⟨m, hflatten ▸ List.mem_flatten.mpr ⟨s, hs, hm⟩⟩
    obtain ⟨m, hm⟩ := hsome
    obtain ⟨hseg, hsegs⟩ := htime (tame_of_ge (hall m hm)).2 hall
    rcases List.mem_cons.mp hs with rfl | hs
    · exact hseg hne
    · exact hsegs s hs hne

end DtnCustody.Radio.Ham
