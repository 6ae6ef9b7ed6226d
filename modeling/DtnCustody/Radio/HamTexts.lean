/-
# DtnCustody.Radio.HamTexts — what passes the amateur profile.

A message that passes holds no receipt and no coin line: a receipt has a line break in it, and a coin line a key of
52 characters. Three kinds of messages pass that should not (`clean_iff`): a long word after `DE `, which the
exception for the identification takes out before the test for long runs; a payment or a claim right after a letter,
where `BSV1` is no word; and a short chunk of sound that is not at the start.
-/
import DtnCustody.Radio.CoinLines
import DtnCustody.Radio.Faucet
import DtnCustody.Radio.Ham
import DtnCustody.Radio.Sound
import DtnCustody.Radio.TextsCollected

namespace DtnCustody.Radio.Ham

open Base Js CoinLines Sound

/-! ## What the repository writes -/

/-- A device that signs its claims. -/
structure DeviceKey where
  publicKey : JsString
  /-- The DER signature of a text. -/
  sign : JsString → Bytes

/-- `claimText(address, { id, deviceKey })`. -/
def claimText (address id : JsString) (device : Option DeviceKey) : JsString :=
  match device with
  | none => js "BSV1 CLAIM " ++ address
  | some key => js "BSV1 CLAIM " ++ address ++ js " " ++ key.publicKey ++ js " " ++
      base64Text (key.sign (Faucet.claimMessage id address))

/-- The text of a payment, whole or in part, or of a claim. -/
def MoneyText (N : Node) (t : JsString) : Prop :=
  (∃ type msg maxChars texts, paymentTexts N type msg maxChars = .ok texts ∧ t ∈ texts) ∨
    ∃ address id device, t = claimText address id device

/-- A chunk of sound. -/
def ChunkText (N : Node) (t : JsString) : Prop :=
  ∃ type msg chunks, soundChunks N type msg = .ok chunks ∧ t ∈ chunks

def ReceiptText (t : JsString) : Prop := ∃ status txid receipt, t = receiptText status txid receipt

section Texts

variable {Key : Type} (N : Node) (S : WifSdk Key)

/-- The line of a coin. -/
def CoinText (t : JsString) : Prop := ∃ i key txid vout sats, coinLine S i key txid vout sats = .ok t

/-- No long run of base64 or hexadecimal, and no payment, claim, receipt or coin. -/
structure Clean (m : JsString) : Prop where
  runs : ∀ run, run <:+: m → run.all isBase64Unit = true ∨ run.all isHexUnit = true → run.length < 24
  noMoney : ∀ t, MoneyText N t → ¬ t <:+: m
  noChunk : ∀ t, ChunkText N t → ¬ t <:+: m
  noReceipt : ∀ t, ReceiptText t → ¬ t <:+: m
  noCoin : ∀ t, CoinText S t → ¬ t <:+: m

/-- `DE ` and a word of 24 characters or more. -/
def LongCall (m : JsString) : Prop := isIdentification m = true ∧ 24 ≤ (m.drop 3).length

/-- A payment or a claim right after a word character. -/
def AfterWord (m : JsString) : Prop :=
  ∃ front w t back, MoneyText N t ∧ isWord w = true ∧ m = front ++ w :: (t ++ back)

/-- A chunk of sound after something else. -/
def LateChunk (m : JsString) : Prop :=
  ∃ front w t back, ChunkText N t ∧ m = front ++ w :: (t ++ back)

variable {N S}

/-! ## How they begin -/

/-- Payments and claims begin with `BSV1`. -/
theorem MoneyText.begins {t : JsString} (h : MoneyText N t) : ∃ rest, t = js "BSV1" ++ 32 :: rest := by
  rcases h with ⟨type, msg, maxChars, texts, htexts, ht⟩ | ⟨address, id, device, rfl⟩
  · have hacc : Texted.Accepted N ⟨[], type, msg, maxChars⟩ := by
      unfold Texted.Accepted
      rw [htexts]
      rfl
    obtain ⟨hspec, -, -⟩ := Texted.accepted_spec hacc
    rw [show paymentTexts N type msg maxChars = .ok texts from htexts] at hspec
    rw [Except.ok.inj hspec] at ht
    obtain ⟨i, -, rfl⟩ := List.mem_map.mp ht
    rw [Texted.heading]
    split
    · exact ⟨_, by simp only [List.append_assoc]; rfl⟩
    · exact ⟨_, by simp only [partHeader, List.append_assoc]; rfl⟩
  · cases device with
    | none => exact ⟨_, rfl⟩
    | some key => exact ⟨_, by simp only [claimText, List.append_assoc]; rfl⟩

/-- A chunk of sound looks like one, whatever comes after it. -/
theorem ChunkText.soundLike (hN : LongDigests N) {t : JsString} (h : ChunkText N t) (back : JsString) :
    soundLike (t ++ back) = true := by
  obtain ⟨type, msg, chunks, hchunks, ht⟩ := h
  unfold soundChunks at hchunks
  dsimp only at hchunks
  split at hchunks
  · cases hchunks
  · next hshort =>
    cases hchunks
    obtain ⟨i, hi, rfl⟩ := List.mem_map.mp ht
    have hi := List.mem_range.mp hi
    have hthirty : digits.length = 35 := rfl
    have hdigit : ∀ k < 35, isPartDigit (digits.getD k 0) = true := by decide
    have hid : ((Hex.encode (messageId N msg)).take 8).length = 8 := by
      rw [List.length_take, length_hexId hN]
      rfl
    have hhex : ((Hex.encode (messageId N msg)).take 8).all isLowHex = true :=
      List.all_eq_true.mpr fun u hu => isLowHex_encode _ u (List.mem_of_mem_take hu)
    have hcons : ∀ letter : UInt16, ∀ tail : JsString, letter = 69 ∨ letter = 66 →
        Ham.soundLike (83 :: digits.getD i 0 :: digits.getD (Pieces.slices (base64Text msg) chunk - 1) 0 :: letter ::
          ((Hex.encode (messageId N msg)).take 8 ++ tail)) = true := by
      intro letter tail hletter
      unfold Ham.soundLike
      dsimp only
      rw [hdigit i (by omega), hdigit _ (by omega), List.take_left' hid, hhex, List.length_append, hid]
      rcases hletter with rfl | rfl
      · simp
      · simp
    rw [chunkText]
    split
    · have := hcons 66 (Pieces.slice (base64Text msg) chunk i ++ back) (.inr rfl)
      rw [← List.append_assoc] at this
      exact this
    · have := hcons 69 (Pieces.slice (base64Text msg) chunk i ++ back) (.inl rfl)
      rw [← List.append_assoc] at this
      exact this

/-- `BSV1` before a blank is a word unless a word character stands before it. -/
theorem textLike_of {front rest : JsString} (hfront : front.getLast?.any isWord = false) :
    textLike (front ++ (js "BSV1" ++ 32 :: rest)) = true := by
  refine anySplit_append ?_
  have htake : (js "BSV1" ++ 32 :: rest).take 4 = js "BSV1" := rfl
  have hdrop : (js "BSV1" ++ 32 :: rest).drop 4 = 32 :: rest := rfl
  have hbefore : boundary front (js "BSV1" ++ 32 :: rest) = true := by
    unfold boundary
    rw [hfront]
    rfl
  have hafter : boundary (front ++ js "BSV1") (32 :: rest) = true := by
    unfold boundary
    rw [List.getLast?_append]
    rfl
  rw [htake, hdrop, hbefore, hafter]
  decide

/-! ## Long runs -/

theorem prefix_side {run a b : JsString} {c : UInt16} (hc : c ∉ run) (h : run <+: a ++ c :: b) :
    run <+: a := by
  by_cases hlen : run.length ≤ a.length
  · exact List.prefix_of_prefix_length_le h (List.prefix_append a _) hlen
  · have hlong : a ++ [c] <+: run :=
      List.prefix_of_prefix_length_le ⟨b, by simp⟩ h (by rw [List.length_append, List.length_singleton]; omega)
    exact absurd (hlong.subset (List.mem_append_right a List.mem_cons_self)) hc

/-- What holds no separator lies on one side of it. -/
theorem infix_side {run a b : JsString} {c : UInt16} (hc : c ∉ run) (h : run <:+: a ++ c :: b) :
    run <:+: a ∨ run <:+: b := by
  induction a with
  | nil =>
      rcases List.infix_cons_iff.mp h with hfront | hback
      · exact .inl (prefix_side (a := []) hc hfront).isInfix
      · exact .inr hback
  | cons x a ih =>
      rcases List.infix_cons_iff.mp h with hfront | hback
      · exact .inl (prefix_side (a := x :: a) hc hfront).isInfix
      · exact (ih hback).imp_left fun hwithin => List.infix_cons hwithin

/-- A long run is found. -/
theorem isOpaque_of_run {m run : JsString} (h : run <:+: m)
    (hrun : run.all isBase64Unit = true ∨ run.all isHexUnit = true) (hlong : 24 ≤ run.length) :
    isOpaque m = true := by
  obtain ⟨front, back, rfl⟩ := h
  rw [List.append_assoc]
  refine anySplit_append (Bool.or_eq_true_iff.mpr ?_)
  have htaken : ∀ p : UInt16 → Bool, run.all p = true → 24 ≤ ((run ++ back).takeWhile p).length := by
    intro p hp
    rw [List.takeWhile_append_of_pos (List.all_eq_true.mp hp), List.length_append]
    omega
  exact hrun.imp (fun hp => decide_eq_true (htaken _ hp)) fun hp => decide_eq_true (htaken _ hp)

/-- An identification, taken apart. -/
theorem isIdentification_eq {m : JsString} (h : isIdentification m = true) :
    m = [68, 69] ++ 32 :: m.drop 3 ∧ (m.drop 3).all isCallUnit = true := by
  unfold isIdentification at h
  rw [Bool.and_eq_true, Bool.and_eq_true, decide_eq_true_eq] at h
  refine ⟨?_, h.2⟩
  have hsplit := List.take_append_drop 3 m
  rw [h.1.1] at hsplit
  exact hsplit.symm

/-- **No long run passes** but in an identification. -/
theorem run_length_lt {m run : JsString} (hpass : isOpaque (if isIdentification m then [] else m) = false)
    (hcall : ¬ LongCall m) (h : run <:+: m)
    (hrun : run.all isBase64Unit = true ∨ run.all isHexUnit = true) : run.length < 24 := by
  by_contra hlong
  have hlong := Nat.not_lt.mp hlong
  by_cases hid : isIdentification m = true
  · obtain ⟨heq, -⟩ := isIdentification_eq hid
    have hblank : (32 : UInt16) ∉ run := by
      intro hmem
      rcases hrun with hall | hall
      · exact absurd (List.all_eq_true.mp hall 32 hmem) (by decide)
      · exact absurd (List.all_eq_true.mp hall 32 hmem) (by decide)
    rw [heq] at h
    rcases infix_side hblank h with hfront | hback
    · have hle := hfront.length_le
      rw [List.length_cons, List.length_singleton] at hle
      omega
    · exact hcall ⟨hid, hlong.trans hback.length_le⟩
  · rw [if_neg hid] at hpass
    rw [isOpaque_of_run h hrun hlong] at hpass
    cases hpass

/-! ## What passes -/

/-- What is known of a message that passes. -/
theorem hamRefusal_none {m : JsString} (h : hamRefusal m = none) :
    soundLike m = false ∧ textLike m = false ∧
      isOpaque (if isIdentification m then [] else m) = false ∧ isShortPlain m = true := by
  unfold hamRefusal at h
  generalize (if isIdentification m then [] else m) = kept at h ⊢
  split at h
  · cases h
  · next hpay =>
    split at h
    · cases h
    · next hlong =>
      split at h
      · cases h
      · next hplain =>
        simp only [Bool.or_eq_true, not_or, Bool.not_eq_true] at hpay
        exact ⟨hpay.1.1.1, hpay.1.1.2, Bool.eq_false_iff.mpr hlong, by simpa using hplain⟩

theorem isBase64Unit_of_isBase58 {u : UInt16} (h : isBase58 u = true) : isBase64Unit u = true := by
  simp only [isBase58, Bool.and_eq_true] at h
  simp only [isBase64Unit, Bool.or_eq_true] at h ⊢
  tauto

/-- A receipt has a line break in it. -/
theorem not_receipt {m t : JsString} (hplain : isShortPlain m = true) (ht : ReceiptText t) : ¬ t <:+: m := by
  obtain ⟨status, txid, receipt, rfl⟩ := ht
  intro hwithin
  have hbreak : (10 : UInt16) ∈ receiptText status txid receipt := by
    refine List.mem_append_left _ (List.mem_append_right _ ?_)
    exact List.mem_cons_self
  have hall := List.all_eq_true.mp (Bool.and_eq_true_iff.mp hplain).2 10 (hwithin.subset hbreak)
  exact absurd hall (by decide)

/-- A coin line has a long run in it. -/
theorem not_coin {m t : JsString} (hruns : ∀ run, run <:+: m →
      run.all isBase64Unit = true ∨ run.all isHexUnit = true → run.length < 24)
    (ht : CoinText S t) : ¬ t <:+: m := by
  obtain ⟨i, key, txid, vout, sats, hline⟩ := ht
  intro hwithin
  unfold coinLine at hline
  dsimp only at hline
  split at hline
  · cases hline
  · cases hline
    have hwif : S.toWif key <:+: js "F" ++ (padStart 2 (radixText 36 i) ++ (S.toWif key ++ (txid ++
        (padStart 4 (radixText 16 vout) ++ padStart 8 (hexNumber sats))))) :=
      List.infix_append_of_infix_right (List.infix_append' _ _ _)
    have hbase : (S.toWif key).all isBase64Unit = true := List.all_eq_true.mpr fun u hu =>
      isBase64Unit_of_isBase58 (List.all_eq_true.mp (S.base58_toWif key) u hu)
    have hlt := hruns _ (hwif.trans hwithin) (.inl hbase)
    rw [S.length_toWif] at hlt
    omega

/-- **When what passes is clean.** -/
theorem clean_iff (hN : LongDigests N) {m : JsString} (h : hamRefusal m = none) :
    Clean N S m ↔ ¬ LongCall m ∧ ¬ AfterWord N m ∧ ¬ LateChunk N m := by
  obtain ⟨hsound, htext, hopaque, hplain⟩ := hamRefusal_none h
  constructor
  · intro hclean
    refine ⟨fun hcall => ?_, ?_, ?_⟩
    · -- The word after `DE ` is a run.
      obtain ⟨heq, hunits⟩ := isIdentification_eq hcall.1
      have hwithin : m.drop 3 <:+: m := (List.drop_suffix 3 m).isInfix
      have hbase : (m.drop 3).all isBase64Unit = true := List.all_eq_true.mpr fun u hu => by
        have hcallUnit := List.all_eq_true.mp hunits u hu
        simp only [isCallUnit, Bool.or_eq_true] at hcallUnit
        simp only [isBase64Unit, Bool.or_eq_true]
        tauto
      exact absurd (hclean.runs _ hwithin (.inl hbase)) (Nat.not_lt.mpr hcall.2)
    · rintro ⟨front, w, t, back, ht, -, rfl⟩
      exact hclean.noMoney t ht ⟨front ++ [w], back, by simp⟩
    · rintro ⟨front, w, t, back, ht, rfl⟩
      exact hclean.noChunk t ht ⟨front ++ [w], back, by simp⟩
  · rintro ⟨hcall, hword, hlate⟩
    have hruns := fun run hwithin hrun => @run_length_lt m run hopaque hcall hwithin hrun
    refine ⟨hruns, ?_, ?_, fun t ht => not_receipt hplain ht, fun t ht => not_coin hruns ht⟩
    · rintro t ht ⟨front, back, rfl⟩
      by_cases hfront : front.getLast?.any isWord = true
      · -- A word character stands before it.
        obtain ⟨w, hw, hisWord⟩ := (Option.any_eq_true _ _).mp hfront
        obtain ⟨front', rfl⟩ := List.getLast?_eq_some_iff.mp hw
        exact hword ⟨front', w, t, back, ht, hisWord, by simp⟩
      · obtain ⟨rest, rfl⟩ := ht.begins
        have hfound := @textLike_of front (rest ++ back) (Bool.not_eq_true _ ▸ hfront)
        simp only [List.append_assoc, List.cons_append] at hfound htext
        rw [hfound] at htext
        cases htext
    · rintro t ht ⟨front, back, rfl⟩
      cases hlast : front.getLast? with
      | none =>
          rw [List.getLast?_eq_none_iff.mp hlast, List.nil_append, ht.soundLike hN back] at hsound
          cases hsound
      | some w =>
          obtain ⟨front', rfl⟩ := List.getLast?_eq_some_iff.mp hlast
          exact hlate ⟨front', w, t, back, ht, by simp⟩

/-- **When the amateur profile holds**: the plan identifies first, last and in time, and nothing opaque and no
payment traffic gets through, exactly when no message is of one of the three kinds. -/
theorem ham_plan_iff (N : Node) (hN : LongDigests N) (S : WifSdk Key) (upper : JsString → JsString)
    (messages : List JsString) (callsign : Option JsString) (durationS : JsString → JsNum)
    (plan : List JsString) (h : hamPlan upper messages callsign durationS = .ok plan) :
    (Identified (js "DE " ++ upper (callsign.getD [])) durationS messages plan ∧
        ∀ m ∈ messages, Clean N S m) ↔
      ∀ m ∈ messages, ¬ LongCall m ∧ ¬ AfterWord N m ∧ ¬ LateChunk N m := by
  unfold hamPlan at h
  dsimp only at h
  split at h
  · cases h
  · split at h
    · cases h
    · next hpass =>
      cases h
      have hmessage : ∀ m ∈ messages, hamRefusal m = none := List.findSome?_eq_none_iff.mp hpass
      constructor
      · rintro ⟨-, hclean⟩ m hm
        exact (clean_iff hN (hmessage m hm)).mp (hclean m hm)
      · intro hkinds
        exact ⟨planned_identified, fun m hm => (clean_iff hN (hmessage m hm)).mpr (hkinds m hm)⟩

/-- Small letters of ASCII made capital. -/
def capital (t : JsString) : JsString := t.map fun u => if isLower u then u - 32 else u

/-- One beacon. -/
theorem ham_plan_sample :
    ∃ plan, hamPlan capital [js "test beacon"] (some (js "n0call")) (fun _ => .fin 5) = .ok plan ∧
      ((Identified (js "DE " ++ capital (js "n0call")) (fun _ => .fin 5) [js "test beacon"] plan ∧
          ∀ m ∈ [js "test beacon"], Clean longNode sampleWif m) ↔
        ∀ m ∈ [js "test beacon"], ¬ LongCall m ∧ ¬ AfterWord longNode m ∧ ¬ LateChunk longNode m) :=
  have hplan := Outcome.exists_ok
    (x := hamPlan capital [js "test beacon"] (some (js "n0call")) fun _ => .fin 5) (by decide +kernel)
  hplan.imp fun plan h =>
    ⟨h, ham_plan_iff longNode longNode_longDigests sampleWif capital _ _ _ plan h⟩

/-- **A long word after `DE ` passes, and a payment after a letter.** -/
theorem opaque_passes :
    let messages := [js "DE " ++ List.replicate 24 65, js "xBSV1 E AQID"]
    (hamPlan capital messages (some (js "n0call")) fun _ => .fin 5).toOption.isSome = true ∧
      ∀ m ∈ messages, ¬ Clean longNode sampleWif m := by
  have hpayment : paymentTexts longNode .payEf [1, 2, 3] singleMax = .ok [js "BSV1 E AQID"] :=
    Outcome.ok_of_toOption (by decide +kernel)
  refine ⟨by decide +kernel, fun m hm hclean => ?_⟩
  rcases List.mem_pair.mp hm with rfl | rfl
  · exact absurd (hclean.runs (List.replicate 24 65) (List.suffix_append _ _).isInfix (.inl (by decide)))
      (by decide)
  · exact hclean.noMoney _ (.inl ⟨_, _, _, _, hpayment, List.mem_singleton_self _⟩) ⟨js "x", [], rfl⟩

end Texts

end DtnCustody.Radio.Ham
