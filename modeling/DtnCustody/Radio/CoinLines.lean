/-
# DtnCustody.Radio.CoinLines — the plan of a faucet and the lines of its coins, of `radio/faucet/faucet.mjs`.

A coin line is `F`, the index of the coin in two digits of base 36, its key in 52 characters, the transaction id,
the output in four hexadecimal digits and the amount in eight. The plan bounds the number of coins by what two
digits hold, and does not bound the amount: so every coin can be claimed from its line exactly when a coin is
below 2^32 satoshis (`coin_lines_iff`).
-/
import DtnCustody.Base.Digits
import DtnCustody.Js.Operators
import DtnCustody.Js.Sample
import DtnCustody.Radio.Text
import Mathlib.Tactic.NormNum

namespace DtnCustody.Radio.CoinLines

open Base Js

/-! ## The plan -/

/-- `SWEEP_BYTES`. -/
def sweepBytes : Nat := 191

/-- `MAX_COINS`. -/
def maxCoins : Nat := 1296

/-- `DEFAULT_MIN_COIN`. -/
def defaultMinCoin : Nat := 50

def feeFor (bytes feeRate : JsNum) : JsNum := ((bytes.mul feeRate).div (.fin 1000)).ceil

def sweepFee (feeRate : JsNum) : JsNum := feeFor (.fin sweepBytes) feeRate

def fanoutBytes (count : JsNum) : JsNum :=
  (((((JsNum.fin 10).add (.fin 148)).add (count.mul (.fin 34))).add (.fin 60)).add (.fin 34)).add (.fin 9)

/-- The options of `planFaucet`, as numbers where they are given. -/
structure Options where
  coinSats : JsNum
  count : Option JsNum
  total : Option JsNum
  feeRate : JsNum := .fin 100
  minCoin : JsNum := .fin defaultMinCoin
  fundSats : Option JsNum := none

structure Plan where
  coinSats : JsNum
  count : JsNum
  coinsTotal : JsNum
  fanoutFee : JsNum
  need : JsNum
  claimFee : JsNum
  received : JsNum
  feeRate : JsNum
  leftover : JsNum
  deriving DecidableEq

section Planning

variable (N : Node)

/-- A number inside a message. -/
def shown (x : JsNum) : String := String.ofList (scalars (Prim.numToString N x))

def noSize : Err := .error "give a coin size in satoshis"

def tooSmall (coinSats claimFee feeRate floor : JsNum) : Err :=
  .error ("coins of " ++ shown N coinSats ++ " sat are too small: claiming one costs about " ++
    shown N claimFee ++ " sat at " ++ shown N feeRate ++ " sat/kB, so coins must be at least " ++
    shown N floor ++ " sat")

def noCount : Err := .error "give a coin count or a total"

def noCoin (total : Option JsNum) (coinSats : JsNum) : Err :=
  .error ("a total of " ++ (total.map (shown N)).getD "undefined" ++ " sat does not make one coin of " ++
    shown N coinSats ++ " sat")

def tooMany : Err := .error s!"at most {maxCoins} coins per faucet; run another for more"

def tooPoor (fundSats count coinSats fanoutFee need : JsNum) : Err :=
  .error ("the funding has " ++ shown N fundSats ++ " sat; " ++ shown N count ++ " coins of " ++
    shown N coinSats ++ " sat plus a " ++ shown N fanoutFee ++ " sat fee need " ++ shown N need ++ " sat")

/-- The number of coins: the count that was given, or as many as the total makes. -/
def countOf (o : Options) (coinSats : JsNum) : Option JsNum :=
  match o.count, o.total with
  | some count, _ => some count.floor
  | none, some total => some (total.div coinSats).floor
  | none, none => none

/-- `planFaucet(options)`. -/
def planFaucet (o : Options) : Outcome Plan :=
  let coinSats := o.coinSats.floor
  if JsNum.lt (.fin 0) coinSats ≠ some true then .error noSize
  else
    let claimFee := sweepFee o.feeRate
    let floor := o.minCoin.larger (claimFee.add (.fin 1))
    if coinSats.lt floor = some true then .error (tooSmall N coinSats claimFee o.feeRate floor)
    else
      match countOf o coinSats with
      | none => .error noCount
      | some count =>
          if count.ge (.fin 1) = false then .error (noCoin N o.total coinSats)
          else if JsNum.lt (.fin maxCoins) count = some true then .error tooMany
          else
            let coinsTotal := count.mul coinSats
            let fanoutFee := feeFor (fanoutBytes count) o.feeRate
            let need := coinsTotal.add fanoutFee
            if o.fundSats.any (fun fundSats => fundSats.lt need = some true) then
              .error (tooPoor N (o.fundSats.getD .nan) count coinSats fanoutFee need)
            else
              .ok { coinSats, count, coinsTotal, fanoutFee, need, claimFee,
                    received := coinSats.sub claimFee, feeRate := o.feeRate,
                    leftover := (o.total.map fun total => total.sub coinsTotal).getD (.fin 0) }

/-- **What the planner lets through**: up to 1296 coins of a whole number of satoshis, or of infinitely many. -/
theorem planFaucet_ok {N : Node} {o : Options} {plan : Plan} (h : planFaucet N o = .ok plan) :
    (∃ n : Nat, 1 ≤ n ∧ n ≤ maxCoins ∧ plan.count = .fin n) ∧
      ((∃ c : Nat, 0 < c ∧ plan.coinSats = .fin c) ∨ plan.coinSats = .inf false) := by
  unfold planFaucet at h
  dsimp only at h
  split at h
  · cases h
  · next hsize =>
    split at h
    · cases h
    · split at h
      · cases h
      · next count hcount =>
        split at h
        · cases h
        · next hone =>
          split at h
          · cases h
          · next hmax =>
            split at h
            · cases h
            · cases h
              have hfloor : ∃ x : JsNum, count = x.floor := by
                unfold countOf at hcount
                split at hcount
                · exact ⟨_, (Option.some.inj hcount).symm⟩
                · exact ⟨_, (Option.some.inj hcount).symm⟩
                · cases hcount
              obtain ⟨x, rfl⟩ := hfloor
              exact ⟨JsNum.floor_between (Bool.not_eq_false _ ▸ hone) hmax,
                JsNum.floor_pos (not_not.mp hsize)⟩

end Planning

/-! ## The fan-out -/

/-- One coin of the fan-out. -/
structure FanoutCoin where
  i : Nat
  vout : Nat
  sats : JsNum

/-- `Array.from({ length })`. -/
def lengthOf : JsNum → Nat
  | .fin q => ⌊q⌋.toNat
  | _ => 0

/-- The coins that `buildFanout` returns: each is the output at its own index. -/
def fanoutCoins (plan : Plan) : List FanoutCoin :=
  (List.range (lengthOf plan.count)).map fun i => { i, vout := i, sats := plan.coinSats }

/-! ## Coin lines -/

/-- `[1-9A-HJ-NP-Za-km-z]`. -/
def isBase58 (u : UInt16) : Bool :=
  (isDigit u || isUpper u || isLower u) && !(u = 48 || u = 73 || u = 79 || u = 108)

/-- `[0-9a-z]`. -/
def isBase36 (u : UInt16) : Bool := isDigit u || isLower u

/-- Private keys of the transaction library, which it writes in 52 characters and reads back. -/
structure WifSdk (Key : Type) where
  /-- `key.toWif()`. -/
  toWif : Key → JsString
  /-- `PrivateKey.fromWif(wif)`. -/
  fromWif : JsString → Outcome Key
  length_toWif : ∀ key, (toWif key).length = 52
  base58_toWif : ∀ key, (toWif key).all isBase58 = true
  fromWif_toWif : ∀ key, fromWif (toWif key) = .ok key

/-- `sats.toString(16)`, of a whole number from zero where it is finite. -/
def hexNumber : JsNum → JsString
  | .nan => js "NaN"
  | .inf negative => if negative then js "-Infinity" else js "Infinity"
  | .fin q => radixText 16 ⌊q⌋.toNat

section Lines

variable {Key : Type} (S : WifSdk Key)

/-- `coinLine({ i, key, txid, vout, sats })`. -/
def coinLine (i : Nat) (key : Key) (txid : JsString) (vout : Nat) (sats : JsNum) : Outcome JsString :=
  let wif := S.toWif key
  if wif.length ≠ 52 then .error (.error "expected a compressed WIF")
  else .ok (js "F" ++ (padStart 2 (radixText 36 i) ++ (wif ++ (txid ++
    (padStart 4 (radixText 16 vout) ++ padStart 8 (hexNumber sats))))))

/-- What a line says. -/
structure LineCoin (Key : Type) where
  i : Nat
  key : Key
  txid : JsString
  vout : Nat
  sats : Nat
  deriving DecidableEq

/-- `trim()`. -/
def trim (t : JsString) : JsString := ((t.dropWhile isSpace).reverse.dropWhile isSpace).reverse

/-- The fields after the `F`, and the coin that they name; `null` where the key is not one. -/
def readFields (i wif txid vout sats : JsString) : Option (LineCoin Key) :=
  if i.all isBase36 ∧ wif.all isBase58 ∧ txid.all isLowHex ∧ vout.all isLowHex ∧ sats.all isLowHex then
    match S.fromWif wif with
    | .error _ => none
    | .ok key => some { i := radixValue 36 i, key, txid, vout := radixValue 16 vout,
                        sats := radixValue 16 sats }
  else none

/-- `parseCoinLine(text)`: `null` for anything that is not a coin line. -/
def parseCoinLine (text : Option JsString) : Option (LineCoin Key) :=
  match trim (text.getD []) with
  | f :: rest =>
      if f = 70 ∧ rest.length = 130 then
        readFields S (rest.take 2) ((rest.drop 2).take 52) ((rest.drop 54).take 64)
          ((rest.drop 118).take 4) (rest.drop 122)
      else none
  | [] => none

/-! ## What is read is what was written -/

theorem trim_padded {front back line : JsString} (hfront : ∀ u ∈ front, isSpace u = true)
    (hback : ∀ u ∈ back, isSpace u = true) (hline : ∀ u ∈ line, isSpace u = false) (hne : line ≠ []) :
    trim (front ++ line ++ back) = line := by
  have hstart : ∀ l rest : JsString, l ≠ [] → (∀ u ∈ l, isSpace u = false) →
      (l ++ rest).dropWhile isSpace = l ++ rest := by
    intro l rest hl h
    cases l with
    | nil => exact absurd rfl hl
    | cons u l => exact List.dropWhile_cons_of_neg (by rw [h u List.mem_cons_self]; decide)
  rw [trim, List.append_assoc, List.dropWhile_append_of_pos hfront, hstart line back hne hline,
    List.reverse_append, List.dropWhile_append_of_pos fun u hu => hback u (List.mem_reverse.mp hu)]
  have hend := hstart line.reverse [] (by simpa using hne) fun u hu => hline u (List.mem_reverse.mp hu)
  rw [List.append_nil] at hend
  rw [hend, List.reverse_reverse]

theorem digit_classes : ∀ d < 36, isBase36 (Hex.digit d) = true ∧ isSpace (Hex.digit d) = false := by
  decide

theorem isLowHex_digit : ∀ d < 16, isLowHex (Hex.digit d) = true ∧ isSpace (Hex.digit d) = false := by
  decide

theorem isSpace_of_isBase58 {u : UInt16} (h : isBase58 u = true) : isSpace u = false := by
  simp only [isBase58, isDigit, isUpper, isLower, Bool.and_eq_true, Bool.or_eq_true,
    decide_eq_true_eq] at h
  simp only [isSpace, Bool.or_eq_false_iff, Bool.and_eq_false_iff, decide_eq_false_iff_not]
  omega

theorem isSpace_of_isLowHex {u : UInt16} (h : isLowHex u = true) : isSpace u = false := by
  simp only [isLowHex, isDigit, Bool.and_eq_true, Bool.or_eq_true, decide_eq_true_eq] at h
  simp only [isSpace, Bool.or_eq_false_iff, Bool.and_eq_false_iff, decide_eq_false_iff_not]
  omega

variable {S}

/-- A field of hexadecimal digits. -/
theorem all_hex (n w : Nat) : (padStart w (radixText 16 n)).all isLowHex = true := by
  refine List.all_eq_true.mpr fun u hu => ?_
  obtain ⟨d, hd, rfl⟩ := mem_padded (by decide) (by decide) hu
  exact (isLowHex_digit d hd).1

theorem length_field {b n w : Nat} (hb : 1 < b) (hw : 0 < w) (h : n < b ^ w) :
    (padStart w (radixText b n)).length = w :=
  length_padStart ((length_radixText_le_iff hb hw).mpr h)

/-- The fields of a line, by their places. -/
theorem fields_eq {a w x v s : JsString} (ha : a.length = 2) (hw : w.length = 52) (hx : x.length = 64)
    (hv : v.length = 4) (hs : s.length = 8) :
    let rest := a ++ (w ++ (x ++ (v ++ s)))
    rest.length = 130 ∧ rest.take 2 = a ∧ (rest.drop 2).take 52 = w ∧ (rest.drop 54).take 64 = x ∧
      (rest.drop 118).take 4 = v ∧ rest.drop 122 = s := by
  intro rest
  have h2 : rest.drop 2 = w ++ (x ++ (v ++ s)) := List.drop_left' ha
  have h54 : rest.drop 54 = x ++ (v ++ s) := by
    rw [show (54 : Nat) = 2 + 52 from rfl, ← List.drop_drop, h2, List.drop_left' hw]
  have h118 : rest.drop 118 = v ++ s := by
    rw [show (118 : Nat) = 54 + 64 from rfl, ← List.drop_drop, h54, List.drop_left' hx]
  have h122 : rest.drop 122 = s := by
    rw [show (122 : Nat) = 118 + 4 from rfl, ← List.drop_drop, h118, List.drop_left' hv]
  rw [h2, h54, h118, h122]
  refine ⟨?_, List.take_left' ha, List.take_left' hw, List.take_left' hx, List.take_left' hv, rfl⟩
  simp only [rest, List.length_append, ha, hw, hx, hv, hs]

/-- The line of a coin. -/
def lineOf (S : WifSdk Key) (i : Nat) (key : Key) (txid : JsString) (vout c : Nat) : JsString :=
  js "F" ++ (padStart 2 (radixText 36 i) ++ (S.toWif key ++ (txid ++
    (padStart 4 (radixText 16 vout) ++ padStart 8 (radixText 16 c)))))

theorem coinLine_fin (i : Nat) (key : Key) (txid : JsString) (vout c : Nat) :
    coinLine S i key txid vout (.fin c) = .ok (lineOf S i key txid vout c) := by
  have hfloor : hexNumber (.fin c) = radixText 16 c := by
    rw [hexNumber]
    simp
  unfold coinLine
  rw [if_neg (not_not_intro (S.length_toWif key)), hfloor]
  rfl

theorem isSpace_lineOf {i vout c : Nat} {key : Key} {txid : JsString} (hhex : txid.all isLowHex = true) :
    ∀ u ∈ lineOf S i key txid vout c, isSpace u = false := by
  intro u hu
  simp only [lineOf, List.mem_append] at hu
  rcases hu with hu | hu | hu | hu | hu | hu
  · rw [List.mem_singleton.mp hu]
    decide
  · obtain ⟨d, hd, rfl⟩ := mem_padded (by decide) (by decide) hu
    exact (digit_classes d hd).2
  · exact isSpace_of_isBase58 (List.all_eq_true.mp (S.base58_toWif key) u hu)
  · exact isSpace_of_isLowHex (List.all_eq_true.mp hhex u hu)
  · exact isSpace_of_isLowHex (List.all_eq_true.mp (all_hex vout 4) u hu)
  · exact isSpace_of_isLowHex (List.all_eq_true.mp (all_hex c 8) u hu)

/-- **A line whose numbers fit is read as it was written**, whatever white space stands around it. -/
theorem parseCoinLine_line {i vout c : Nat} {key : Key} {txid front back : JsString}
    (hi : i < 36 ^ 2) (hvout : vout < 16 ^ 4) (hc : c < 16 ^ 8) (hlen : txid.length = 64)
    (hhex : txid.all isLowHex = true) (hfront : ∀ u ∈ front, isSpace u = true)
    (hback : ∀ u ∈ back, isSpace u = true) :
    parseCoinLine S (some (front ++ lineOf S i key txid vout c ++ back)) =
      some { i, key, txid, vout, sats := c } := by
  have hindex : (padStart 2 (radixText 36 i)).all isBase36 = true := by
    refine List.all_eq_true.mpr fun u hu => ?_
    obtain ⟨d, hd, rfl⟩ := mem_padded (by decide) (by decide) hu
    exact (digit_classes d hd).1
  obtain ⟨hrest, h1, h2, h3, h4, h5⟩ := fields_eq (length_field (b := 36) (by decide) (by decide) hi)
    (S.length_toWif key) hlen (length_field (b := 16) (by decide) (by decide) hvout)
    (length_field (b := 16) (by decide) (by decide) hc)
  have hcons : lineOf S i key txid vout c = 70 :: (padStart 2 (radixText 36 i) ++ (S.toWif key ++ (txid ++
      (padStart 4 (radixText 16 vout) ++ padStart 8 (radixText 16 c))))) := rfl
  have hne : lineOf S i key txid vout c ≠ [] := by
    rw [hcons]
    exact List.cons_ne_nil _ _
  unfold parseCoinLine
  rw [Option.getD_some, trim_padded hfront hback (isSpace_lineOf hhex) hne, hcons]
  dsimp only
  rw [if_pos ⟨rfl, hrest⟩, h1, h2, h3, h4, h5, readFields,
    if_pos ⟨hindex, S.base58_toWif key, hhex, all_hex vout 4, all_hex c 8⟩, S.fromWif_toWif]
  dsimp only
  rw [radixValue_padded (by decide) (by decide), radixValue_padded (by decide) (by decide),
    radixValue_padded (by decide) (by decide)]

/-- An amount that is read has eight digits. -/
theorem sats_lt_of_parse {text : Option JsString} {coin : LineCoin Key}
    (h : parseCoinLine S text = some coin) : coin.sats < 16 ^ 8 := by
  have hvalue : ∀ s : JsString, (∀ u ∈ s, isLowHex u = true) → radixValue 16 s < 16 ^ s.length := by
    intro s
    induction s using List.reverseRecOn with
    | nil => intro _; decide
    | append_singleton s u ih =>
        intro hs
        have hfront := ih fun v hv => hs v (List.mem_append_left _ hv)
        have hlast := hs u (List.mem_append_right _ List.mem_cons_self)
        have hdigit : radixDigit u < 16 := by
          unfold radixDigit
          simp only [isLowHex, isDigit, Bool.or_eq_true, Bool.and_eq_true, decide_eq_true_eq] at hlast
          split
          · omega
          · omega
        rw [radixValue_append_singleton, List.length_append, List.length_singleton, pow_succ]
        omega
  unfold parseCoinLine at h
  split at h
  · next f rest htrim =>
    split at h
    · next hlen =>
      unfold readFields at h
      split at h
      · next hclasses =>
        split at h
        · cases h
        · cases h
          have hsats := hvalue _ (List.all_eq_true.mp hclasses.2.2.2.2)
          rw [List.length_drop, hlen.2] at hsats
          exact hsats
      · cases h
    · cases h
  · cases h

end Lines

/-! ## Every coin of a plan -/

section Claims

variable {Key : Type} (S : WifSdk Key)

/-- Every coin of the fan-out can be claimed from its line, and from no other coin's. -/
structure Claimable (plan : Plan) (key : Nat → Key) (txid : JsString) : Prop where
  reads : ∀ coin ∈ fanoutCoins plan, ∃ line,
    coinLine S coin.i (key coin.i) txid coin.vout coin.sats = .ok line ∧
      ∀ front back : JsString, (∀ u ∈ front, isSpace u = true) → (∀ u ∈ back, isSpace u = true) →
        ∃ sats : Nat, coin.sats = .fin sats ∧ parseCoinLine S (some (front ++ line ++ back)) =
          some { i := coin.i, key := key coin.i, txid, vout := coin.vout, sats }
  differ : ∀ coin ∈ fanoutCoins plan, ∀ coin' ∈ fanoutCoins plan,
    coinLine S coin.i (key coin.i) txid coin.vout coin.sats =
      coinLine S coin'.i (key coin'.i) txid coin'.vout coin'.sats → coin.i = coin'.i

theorem lengthOf_fin (n : Nat) : lengthOf (.fin n) = n := by
  rw [lengthOf]
  simp

/-- **When every coin can be claimed from its line**: when a coin is below 2^32 satoshis. -/
theorem coin_lines_iff (S : WifSdk Key) (N : Node) (o : Options) (plan : Plan)
    (hplan : planFaucet N o = .ok plan) (key : Nat → Key) (hash : Bytes) (hhash : hash.length = 32) :
    Claimable S plan key (Hex.encode hash) ↔ plan.coinSats.lt (.fin 4294967296) = some true := by
  obtain ⟨⟨n, hone, hmax, hcount⟩, hsats⟩ := planFaucet_ok hplan
  have hlen : (Hex.encode hash).length = 64 := by rw [Hex.length_encode, hhash]
  have hhex : (Hex.encode hash).all isLowHex = true := List.all_eq_true.mpr (isLowHex_encode hash)
  have hcoins : fanoutCoins plan =
      (List.range n).map fun i => { i, vout := i, sats := plan.coinSats } := by
    rw [fanoutCoins, hcount, lengthOf_fin]
  constructor
  · intro h
    have hfirst : ({ i := 0, vout := 0, sats := plan.coinSats } : FanoutCoin) ∈ fanoutCoins plan := by
      rw [hcoins]
      exact List.mem_map.mpr ⟨0, List.mem_range.mpr hone, rfl⟩
    obtain ⟨line, -, hread⟩ := h.reads _ hfirst
    obtain ⟨sats, hamount, hparse⟩ := hread [] [] (fun u hu => by cases hu) (fun u hu => by cases hu)
    have hlt : sats < 16 ^ 8 := sats_lt_of_parse hparse
    rw [show plan.coinSats = .fin sats from hamount, JsNum.lt_fin]
    have hcast : (sats : ℚ) < 4294967296 := by exact_mod_cast hlt
    rw [decide_eq_true hcast]
  · intro h
    obtain ⟨c, hc⟩ : ∃ c : Nat, plan.coinSats = .fin c := by
      rcases hsats with ⟨c, -, hc⟩ | hinf
      · exact ⟨c, hc⟩
      · rw [hinf] at h
        cases h
    have hlt : c < 16 ^ 8 := by
      rw [hc, JsNum.lt_fin] at h
      have hcast : (c : ℚ) < 4294967296 := of_decide_eq_true (Option.some.inj h)
      exact_mod_cast hcast
    -- The index and the output of a coin are below the number of coins.
    have hmem : ∀ coin ∈ fanoutCoins plan, coin.i < 1296 ∧ coin.vout = coin.i ∧ coin.sats = .fin c := by
      intro coin hcoin
      rw [hcoins] at hcoin
      obtain ⟨i, hi, rfl⟩ := List.mem_map.mp hcoin
      exact ⟨(List.mem_range.mp hi).trans_le hmax, rfl, hc⟩
    have hread : ∀ coin ∈ fanoutCoins plan, ∀ front back : JsString, (∀ u ∈ front, isSpace u = true) →
        (∀ u ∈ back, isSpace u = true) →
        parseCoinLine S (some (front ++ lineOf S coin.i (key coin.i) (Hex.encode hash) coin.vout c ++ back)) =
          some { i := coin.i, key := key coin.i, txid := Hex.encode hash, vout := coin.vout, sats := c } := by
      intro coin hcoin front back hfront hback
      obtain ⟨hi, hvout, -⟩ := hmem coin hcoin
      exact parseCoinLine_line (by omega) (by omega) hlt hlen hhex hfront hback
    refine ⟨fun coin hcoin => ?_, fun coin hcoin coin' hcoin' heq => ?_⟩
    · refine ⟨_, ?_, fun front back hfront hback => ⟨c, (hmem coin hcoin).2.2,
        hread coin hcoin front back hfront hback⟩⟩
      rw [(hmem coin hcoin).2.2, coinLine_fin]
    · rw [(hmem coin hcoin).2.2, (hmem coin' hcoin').2.2, coinLine_fin, coinLine_fin] at heq
      have hleft := hread coin hcoin [] [] (fun u hu => by cases hu) (fun u hu => by cases hu)
      have hright := hread coin' hcoin' [] [] (fun u hu => by cases hu) (fun u hu => by cases hu)
      rw [Except.ok.inj heq, hright] at hleft
      exact (congrArg LineCoin.i (Option.some.inj hleft)).symm

/-- Two keys. -/
def sampleWif : WifSdk Bool where
  toWif key := List.replicate 51 75 ++ [if key then 76 else 77]
  fromWif wif := .ok (wif.getLast? = some 76)
  length_toWif := by decide
  base58_toWif := by decide
  fromWif_toWif := by decide

/-- Three coins of 1000 satoshis. -/
def sampleOptions : Options where
  coinSats := .fin 1000
  count := some (.fin 3)
  total := none

theorem coin_lines_sample :
    ∃ plan, planFaucet sampleNode sampleOptions = .ok plan ∧
      (Claimable sampleWif plan (fun i => i = 1) (Hex.encode (List.replicate 32 7)) ↔
        plan.coinSats.lt (.fin 4294967296) = some true) :=
  have hplan := Outcome.exists_ok (x := planFaucet sampleNode sampleOptions) (by decide +kernel)
  hplan.imp fun plan h =>
    ⟨h, coin_lines_iff sampleWif sampleNode sampleOptions plan h _ _ (List.length_replicate ..)⟩

/-- **A coin of 2^32 satoshis**: its line has one character more, and cannot be read. -/
theorem long_line_lost :
    (planFaucet sampleNode { sampleOptions with coinSats := .fin 4294967296 }).toOption.isSome = true ∧
      ((coinLine sampleWif 0 true (Hex.encode (List.replicate 32 7)) 0 (.fin 4294967296)).toOption.any
        fun line => parseCoinLine sampleWif (some line) = none) = true := by
  decide +kernel

end Claims

end DtnCustody.Radio.CoinLines
