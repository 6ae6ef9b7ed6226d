/-
# DtnCustody.Radio.Faucet — `faucetClaims` of `radio/faucet/claims.mjs`, with its ledger file.

A claim is handled as a whole before the next, since the handler is a queue of one. What the model adds
to it is the outside: whether the network takes the transaction, what the broadcaster answers, how far
the line of the ledger gets onto the disk, and stops and restarts in between. `world` is the list of
payments the network took, which the faucet never sees.
-/
import DtnCustody.Radio.Text
import DtnCustody.Radio.Frame
import DtnCustody.Base.Journal

namespace DtnCustody.Radio

open Base Js

namespace Faucet

/-- The transaction library, with the keys of one faucet; `none` is a throw. -/
structure FaucetSdk (Tx Key : Type) extends Sdk Tx where
  /-- `new P2PKH().lock(address)` does not throw. -/
  lockable : JsString → Bool
  publicKey : JsString → Option Key
  /-- The verdict on a text and a signature of DER bytes. -/
  verifyText : Key → JsString → Bytes → Option Bool
  /-- `spendCoin` of the coin at an index to an address. -/
  spendCoin : Nat → JsString → Except JsString Tx

/-- What the faucet's options and `faucet.json` say. -/
structure Config where
  id : JsString
  count : Nat
  perSender : Nat := 1
  perAddress : Nat := 1

/-! ## Claims -/

inductive Claim where
  | bad (reason : String)
  | plain (address : JsString)
  | device (address key : JsString)
  deriving DecidableEq, Repr

/-- `claimMessage(id, address)`. -/
def claimMessage (id address : JsString) : JsString :=
  js "bsvkey-faucet/1 claim " ++ id ++ js " " ++ address

def isAddressWord (w : JsString) : Bool := decide (1 ≤ w.length ∧ w.length ≤ 100)

/-- `([0-9a-f]{66})` in either case. -/
def isKeyWord (w : JsString) : Bool := decide (w.length = 66) && w.all isHexUnit

/-- `([A-Za-z0-9+/=]{60,120})`. -/
def isSigWord (w : JsString) : Bool :=
  decide (60 ≤ w.length ∧ w.length ≤ 120) && w.all isBase64Unit

section Program

variable {Tx Key : Type} (S : FaucetSdk Tx Key) (cfg : Config)

/-- A claim signed by a device key. -/
def deviceClaim (address key sig : JsString) : Claim :=
  match S.publicKey key with
  | none => .bad "the device signature does not match"
  | some pub =>
      match S.verifyText pub (claimMessage cfg.id address) (Base64.decode (scalars sig)) with
      | some true => .device address key
      | _ => .bad "the device signature does not match"

/-- `parseClaim(text, id)`. -/
def parseClaim (text : Option JsString) : Option Claim :=
  match words (text.getD []) with
  | tag :: verb :: address :: rest =>
      if tag.map lower = js "bsv1" ∧ verb.map lower = js "claim" ∧ isAddressWord address then
        match rest with
        | [] => some (if S.lockable address then .plain address else .bad "that is not a valid address")
        | [key, sig] =>
            if isKeyWord key ∧ isSigWord sig then
              some (if S.lockable address then deviceClaim S cfg address key sig
                else .bad "that is not a valid address")
            else none
        | _ => none
      else none
  | _ => none

/-! ## The ledger -/

/-- One line of `claims.jsonl`. -/
structure Record where
  coin : Nat
  who : JsString
  to_ : JsString
  txid : JsString
  sats : JsNum
  status : Status
  ok : Bool
  detail : JsString

/-- `records.filter((r) => r.ok && r.who === who).length`. -/
def countWho (records : List Record) (who : JsString) : Nat :=
  records.countP fun r => r.ok && decide (r.who = who)

/-- `records.filter((r) => r.ok && r.to === to).length`. -/
def countTo (records : List Record) (address : JsString) : Nat :=
  records.countP fun r => r.ok && decide (r.to_ = address)

/-- The first coin from `coin` on that is not used, below `count`. -/
def freeCoin (records : List Record) (count : Nat) : Option Nat :=
  (List.range count).find? fun coin => !records.any fun r => decide (r.coin = coin)

/-! ## One claim -/

/-- Who a payment is to: a sender, or a device by its public key. -/
inductive Claimant (Key : Type) where
  | sender (s : JsString)
  | device (k : Key)
  deriving DecidableEq

structure Payment (Key : Type) where
  claimant : Claimant Key
  who : JsString
  to_ : JsString
  coin : Nat

/-- What the outside does with a claim. -/
structure Course where
  /-- The network takes the transaction. -/
  accepted : Bool
  /-- The broadcaster's answer; without one the process stops. -/
  answer : Option (Except JsString Answer)
  /-- How far `appendFileSync` gets. -/
  written : Journal.Written
  /-- The process lives on, even where the append threw. -/
  goesOn : Bool

/-- The file, the records of the process if one is running, and the payments the network took. -/
structure State (Key : Type) where
  file : List (Journal.Item Record)
  running : Option (List Record)
  world : List (Payment Key)

def State.new : State Key := { file := [], running := none, world := [] }

/-- `` `key:${device}` `` or `` `from:${from}` ``. -/
def whoOf (sender : JsString) : Claim → JsString
  | .device _ key => js "key:" ++ key
  | _ => js "from:" ++ sender

/-- The address of a claim. -/
def Claim.address : Claim → JsString
  | .device address _ => address
  | .plain address => address
  | .bad _ => []

/-- Who a claim that parsed is by. -/
def claimantOf (sender : JsString) : Claim → Option (Claimant Key)
  | .device _ key => (S.publicKey key).map .device
  | .plain _ => some (.sender sender)
  | .bad _ => none

/-- A claim within the limits, and the transaction for it. -/
structure Granted (Tx Key : Type) where
  who : JsString
  to_ : JsString
  coin : Nat
  tx : Tx
  claimant : Claimant Key

/-- `claim(from, body)` up to the broadcast. -/
def grant (records : List Record) (sender : JsString) (body : Option JsString) :
    Option (Granted Tx Key) := do
  let c ← parseClaim S cfg body
  let claimant ← claimantOf S sender c
  let who := whoOf sender c
  if cfg.perSender ≤ countWho records who ∨ cfg.perAddress ≤ countTo records c.address then none
  else
    let coin ← freeCoin records cfg.count
    let tx ← (S.spendCoin coin c.address).toOption
    return { who, to_ := c.address, coin, tx, claimant }

/-- The record of a claim. -/
def recordOf (g : Granted Tx Key) (answer : Except JsString Answer) : Record :=
  let b := match answer with
    | .ok b => b
    | .error message => { ok := false, sent := true, detail := message }
  { coin := g.coin, who := g.who, to_ := g.to_, txid := S.txid g.tx
    sats := ((S.outputs g.tx).head?.map Coin.satoshis).getD .nan
    status := if !b.ok then .broadcastFailed else if b.sent then .accepted else .validNotSent
    ok := b.ok, detail := b.detail }

/-- The payment of a claim, if the network takes it. -/
def paymentOf (g : Granted Tx Key) (accepted : Bool) : List (Payment Key) :=
  if accepted then [{ claimant := g.claimant, who := g.who, to_ := g.to_, coin := g.coin }] else []

/-- `claim` from the broadcast on. -/
def State.settle (s : State Key) (records : List Record) (g : Granted Tx Key) (course : Course) :
    State Key :=
  let s := { s with world := s.world ++ paymentOf g course.accepted }
  match course.answer with
  | none => { s with running := none }
  | some answer =>
      let r := recordOf S g answer
      { s with
        file := s.file ++ course.written.items r
        running := if course.goesOn then some (records ++ [r]) else none }

inductive Event where
  | start
  | stop
  | text (sender : JsString) (body : Option JsString) (course : Course)

def State.step (s : State Key) : Event → State Key
  | .start => { s with running := Journal.load s.file }
  | .stop => { s with running := none }
  | .text sender body course =>
      match s.running with
      | none => s
      | some records =>
          match grant S cfg records sender body with
          | none => s
          | some g => s.settle S records g course

def State.run (s : State Key) (events : List Event) : State Key := events.foldl (·.step S cfg) s

end Program

end Faucet

end DtnCustody.Radio
