/-
# DtnCustody.Radio.Wallet — `buildFromCoins` of `radio/lib/wallet.mjs`.

Coins are taken largest first until they cover the amount and the fee for as many inputs. Each input raises
the fee, so a coin can cost more than it is worth, and taking one more can be a step back. But the fee depends
on the number of inputs only, so the first `k` coins do better than any other `k`: a payment is refused for
lack of funds only where no coins of the key would do (`payment_from_coins`).
-/
import DtnCustody.Base.Largest
import DtnCustody.Base.Text
import DtnCustody.Js.Operators
import Mathlib.Data.List.Sort
import Mathlib.Data.Rat.Floor
import Mathlib.Tactic.Positivity

namespace DtnCustody.Radio

open Base Js

namespace Wallet

/-! ## The code -/

/-- `{ tx, vout, sats }`. -/
structure Utxo (Tx : Type) where
  tx : Tx
  vout : Nat
  sats : Nat
  deriving DecidableEq

/-- An unsigned transaction: the coins it spends, and the script and amount of each output. -/
structure Spending (Tx : Type) where
  inputs : List (Utxo Tx)
  outputs : List (JsString × ℤ)

/-- What the code takes from the transaction library; an error is thrown. -/
structure WalletSdk (Tx Key : Type) where
  /-- `new P2PKH().lock(address).toHex()`. -/
  lock : JsString → Outcome JsString
  /-- `key.toAddress()`. -/
  toAddress : Key → JsString
  /-- `tx.outputs[vout]?.lockingScript.toHex()`. -/
  script : Tx → Nat → Option JsString
  /-- `tx.sign()`, with every input unlocked by the key. -/
  sign : Key → Spending Tx → Outcome Unit

/-- Why no payment is built. -/
inductive Refusal where
  | amount
  | short (total : Nat) (sats fee : ℤ)
  | thrown (e : Err)

def Refusal.message : Refusal → Err
  | .amount => .error "give an amount in satoshis"
  | .short total sats fee =>
      .error s!"not enough: you have {total} sat, and this needs {sats} sat plus a {fee} sat fee"
  | .thrown e => e

/-- `feeFor(inputs)`. -/
def feeFor (feeRate : ℚ) (inputs : Nat) : ℤ := ⌈((10 + inputs * 148 + 2 * 34 : ℕ) * feeRate) / 1000⌉

/-- `have >= sats + feeFor(picked.length)`. -/
def enough (sats : ℤ) (feeRate : ℚ) (inputs sum : Nat) : Bool := decide (sats + feeFor feeRate inputs ≤ sum)

variable {Tx Key : Type} (S : WalletSdk Tx Key)

/-- `mine`: the coins locked to the script, largest first. -/
def mine (ours : JsString) (coins : List (Utxo Tx)) : List (Utxo Tx) :=
  (coins.filter fun c => S.script c.tx c.vout = some ours).insertionSort fun a b => b.sats ≤ a.sats

def thrown {α : Type} (x : Outcome α) : Except Refusal α := x.mapError Refusal.thrown

/-- `buildFromCoins({ key, coins, to, sats, feeRate })`, with `Number(sats)` for `sats`. -/
def buildFromCoins (key : Key) (coins : List (Utxo Tx)) (to_ : JsString) (sats feeRate : ℚ) :
    Except Refusal (Spending Tx) :=
  if ¬ 0 < ⌊sats⌋ then .error .amount
  else do
    let theirs ← thrown (S.lock to_)
    let ours ← thrown (S.lock (S.toAddress key))
    let (picked, sum) := Largest.pick Utxo.sats (enough ⌊sats⌋ feeRate) [] 0 (mine S ours coins)
    let change := sum - ⌊sats⌋ - feeFor feeRate picked.length
    if change < 0 then
      .error (.short ((mine S ours coins).map Utxo.sats).sum ⌊sats⌋ (feeFor feeRate picked.length))
    else do
      let tx := { inputs := picked
                  outputs := (theirs, ⌊sats⌋) :: if 0 < change then [(ours, change)] else [] }
      thrown (S.sign key tx)
      return tx

/-! ## What is built, and what is refused -/

/-- The coin is locked to the key. -/
def Owns (key : Key) (c : Utxo Tx) : Prop :=
  ∃ ours, S.lock (S.toAddress key) = .ok ours ∧ S.script c.tx c.vout = some ours

/-- The change that a payment gives back. -/
def Spending.change (tx : Spending Tx) : ℤ := (tx.outputs.tail.map Prod.snd).sum

/-- **A payment conserves value**: distinct coins of the key, to the amount in whole satoshis, the change and
the fee. -/
structure Conserves (key : Key) (coins : List (Utxo Tx)) (sats feeRate : ℚ) (tx : Spending Tx) : Prop where
  distinct : tx.inputs.Nodup
  owned : ∀ c ∈ tx.inputs, c ∈ coins ∧ Owns S key c
  pays : ∃ theirs, tx.outputs.head? = some (theirs, ⌊sats⌋)
  change : 0 ≤ tx.change
  balance : ((tx.inputs.map Utxo.sats).sum : ℤ) = ⌊sats⌋ + tx.change + feeFor feeRate tx.inputs.length

/-- No coins of the key cover the amount and the fee for as many inputs. -/
def NothingCovers (key : Key) (coins : List (Utxo Tx)) (sats feeRate : ℚ) : Prop :=
  ∀ s : List (Utxo Tx), s.Nodup → (∀ c ∈ s, c ∈ coins ∧ Owns S key c) →
    ((s.map Utxo.sats).sum : ℤ) < ⌊sats⌋ + feeFor feeRate s.length

theorem enough_mono {sats : ℤ} {feeRate : ℚ} (n s t : Nat) (h : s ≤ t) (hs : enough sats feeRate n s = true) :
    enough sats feeRate n t = true := by
  unfold enough at hs ⊢
  rw [decide_eq_true_iff] at hs ⊢
  omega

theorem enough_eq_false {sats : ℤ} {feeRate : ℚ} {n s : Nat} :
    enough sats feeRate n s = false ↔ (s : ℤ) < sats + feeFor feeRate n := by
  rw [enough, decide_eq_false_iff_not, not_le]

theorem feeFor_nonneg {feeRate : ℚ} (h : 0 < feeRate) (inputs : Nat) : 0 ≤ feeFor feeRate inputs := by
  refine Int.ceil_nonneg ?_
  positivity

variable {S} {key : Key} {coins : List (Utxo Tx)} {ours : JsString}

theorem mem_mine {c : Utxo Tx} : c ∈ mine S ours coins ↔ c ∈ coins ∧ S.script c.tx c.vout = some ours := by
  rw [mine, List.mem_insertionSort, List.mem_filter, decide_eq_true_iff]

theorem mine_nodup (h : coins.Nodup) : (mine S ours coins).Nodup :=
  (List.perm_insertionSort _ _).nodup_iff.mpr (h.filter _)

theorem mine_sorted : (mine S ours coins).Pairwise fun a b => b.sats ≤ a.sats :=
  List.pairwise_insertionSort _ _

/-- What was taken: the first few of the coins, and what they add up to. -/
theorem pick_mine (sats : ℤ) (feeRate : ℚ) (ours : JsString) (coins : List (Utxo Tx)) :
    ∃ n, Largest.pick Utxo.sats (enough sats feeRate) [] 0 (mine S ours coins) =
        ((mine S ours coins).take n, (((mine S ours coins).take n).map Utxo.sats).sum) ∧
      (sats + feeFor feeRate ((mine S ours coins).take n).length ≤
          ((((mine S ours coins).take n).map Utxo.sats).sum : ℤ) ∨
        ∀ k, 0 < k → k ≤ (mine S ours coins).length →
          enough sats feeRate k (((mine S ours coins).take k).map Utxo.sats).sum = false) := by
  obtain ⟨n, hn, hpick, hcases⟩ := @Largest.pick_spec _ _ _ Utxo.sats (enough sats feeRate)
    (mine S ours coins) [] 0
  rw [List.nil_append, zero_add] at hpick
  refine ⟨n, hpick, hcases.imp (fun henough => ?_) fun hnone k hk hle => ?_⟩
  · rw [List.length_nil, zero_add, zero_add] at henough
    rw [List.length_take_of_le hn]
    exact of_decide_eq_true henough
  · simpa using hnone.2 k hk hle

theorem thrown_eq_ok {α : Type} {x : Outcome α} {a : α} : thrown x = .ok a ↔ x = .ok a := by
  cases x <;> simp [thrown, Except.mapError]

theorem thrown_ne_short {α : Type} {x : Outcome α} {total : Nat} {sats fee : ℤ} :
    thrown x ≠ .error (.short total sats fee) := by
  cases x <;> simp [thrown, Except.mapError]

/-- **Nothing covers the amount** where no first few of the coins do. -/
theorem nothingCovers_of_take (hours : S.lock (S.toAddress key) = .ok ours) {sats feeRate : ℚ}
    (hsats : 0 < ⌊sats⌋) (hrate : 0 < feeRate)
    (hnone : ∀ k, 0 < k → k ≤ (mine S ours coins).length →
      enough ⌊sats⌋ feeRate k (((mine S ours coins).take k).map Utxo.sats).sum = false) :
    NothingCovers S key coins sats feeRate := by
  intro s hs hown
  by_cases hempty : s = []
  · subst hempty
    have hfee := feeFor_nonneg hrate 0
    show (0 : ℤ) < _
    exact lt_add_of_pos_of_le hsats hfee
  have hsub : s.Subperm (mine S ours coins) := by
    refine List.subperm_of_subset hs fun c hc => ?_
    obtain ⟨hmem, ours', hours', hscript⟩ := hown c hc
    cases hours.symm.trans hours'
    exact mem_mine.mpr ⟨hmem, hscript⟩
  exact enough_eq_false.mp (Largest.not_enough_of_pick mine_sorted enough_mono hnone hsub hempty)

/-- The change output, which is there when there is change. -/
theorem change_eq (inputs : List (Utxo Tx)) (pay : JsString × ℤ) {d : ℤ} (h : 0 ≤ d) (script : JsString) :
    Spending.change { inputs, outputs := pay :: if 0 < d then [(script, d)] else [] } = d := by
  unfold Spending.change
  rw [List.tail_cons]
  split
  · simp
  · next hzero => exact le_antisymm h (not_lt.mp hzero)

/-- **A payment from coins conserves value, and is refused for lack of funds only where nothing covers it.** -/
theorem payment_from_coins (S : WalletSdk Tx Key) (key : Key) (coins : List (Utxo Tx)) (to_ : JsString)
    (sats feeRate : ℚ) (hcoins : coins.Nodup) (hrate : 0 < feeRate) :
    (∀ tx, buildFromCoins S key coins to_ sats feeRate = .ok tx →
      Conserves S key coins sats feeRate tx) ∧
      ∀ total need fee, buildFromCoins S key coins to_ sats feeRate = .error (.short total need fee) →
        NothingCovers S key coins sats feeRate := by
  unfold buildFromCoins
  split
  · exact ⟨fun tx h => (by cases h), fun total need fee h => (by cases h)⟩
  next hamount =>
  cases htheirs : thrown (S.lock to_) with
  | error e =>
      refine ⟨fun tx h => (by cases h), fun total need fee h => ?_⟩
      cases h
      exact absurd htheirs thrown_ne_short
  | ok theirs =>
  cases hours : thrown (S.lock (S.toAddress key)) with
  | error e =>
      refine ⟨fun tx h => (by cases h), fun total need fee h => ?_⟩
      cases h
      exact absurd hours thrown_ne_short
  | ok ours =>
  obtain ⟨n, hpick, hcases⟩ := pick_mine (S := S) ⌊sats⌋ feeRate ours coins
  dsimp only [bind, Except.bind]
  rw [hpick]
  dsimp only
  split
  · next hshort =>
    refine ⟨fun tx h => (by cases h), fun total need fee _ => ?_⟩
    refine nothingCovers_of_take (thrown_eq_ok.mp hours) (not_not.mp hamount) hrate
      (hcases.resolve_left fun henough => ?_)
    omega
  next hcovered =>
  cases hsign : thrown (S.sign key _) with
  | error e =>
      refine ⟨fun tx h => (by cases h), fun total need fee h => ?_⟩
      cases h
      exact absurd hsign thrown_ne_short
  | ok _ =>
  refine ⟨fun tx h => ?_, fun total need fee h => (by cases h)⟩
  cases h
  have hmem : ∀ c ∈ (mine S ours coins).take n, c ∈ coins ∧ Owns S key c := fun c hc =>
    (mem_mine.mp (List.mem_of_mem_take hc)).imp_right fun hscript => ⟨ours, thrown_eq_ok.mp hours, hscript⟩
  have hchange := change_eq ((mine S ours coins).take n) (theirs, ⌊sats⌋) (not_lt.mp hcovered) ours
  refine ⟨(mine_nodup hcoins).sublist (List.take_sublist _ _), hmem, ⟨theirs, rfl⟩, ?_, ?_⟩
  · rw [hchange]
    exact not_lt.mp hcovered
  · rw [hchange]
    ring

/-! ## Three coins of a key -/

def walletSdk : WalletSdk Unit Unit where
  lock := fun address => .ok address
  toAddress := fun _ => js "mine"
  script := fun _ vout => some (js (if vout < 3 then "mine" else "other"))
  sign := fun _ _ => .ok ()

/-- Three coins of the key, the smallest worth less than its fee, and one of another. -/
def fourCoins : List (Utxo Unit) := [⟨(), 0, 5⟩, ⟨(), 1, 300⟩, ⟨(), 2, 500⟩, ⟨(), 3, 10000⟩]

/-- Two of the coins pay 700 sat with a fee of 38; for 770 there is nothing. -/
theorem payment_from_coins_sample :
    (∃ tx, buildFromCoins walletSdk () fourCoins (js "shop") 700 100 = .ok tx ∧
      Conserves walletSdk () fourCoins 700 100 tx ∧ tx.inputs.length = 2) ∧
    NothingCovers walletSdk () fourCoins 770 100 := by
  have hcoins : fourCoins.Nodup := by decide
  have hbuilt : (buildFromCoins walletSdk () fourCoins (js "shop") 700 100).toOption.map
      (fun tx => tx.inputs.length) = some 2 := by decide +kernel
  have hshort : (match buildFromCoins walletSdk () fourCoins (js "shop") 770 100 with
      | .error (.short _ _ _) => true
      | _ => false) = true := by decide +kernel
  constructor
  · cases hbuild : buildFromCoins walletSdk () fourCoins (js "shop") 700 100 with
    | error e =>
        rw [hbuild] at hbuilt
        cases hbuilt
    | ok tx =>
        rw [hbuild] at hbuilt
        exact ⟨tx, rfl, (payment_from_coins walletSdk () fourCoins (js "shop") 700 100 hcoins
          (by norm_num)).1 tx hbuild, Option.some.inj hbuilt⟩
  · split at hshort
    · next total need fee hbuild =>
      exact (payment_from_coins walletSdk () fourCoins (js "shop") 770 100 hcoins
        (by norm_num)).2 _ _ _ hbuild
    · cases hshort

end Wallet

end DtnCustody.Radio
