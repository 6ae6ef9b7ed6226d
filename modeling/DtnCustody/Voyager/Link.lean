/-
# DtnCustody.Voyager.Link — `voyager/link.mjs`: bundles over links with contact windows, in virtual time.

A link sends one bundle at a time. A bundle goes out in the first window that it fits in, when it is ready
and the link is free. Of those that are lost the receiver sends one NACK when the last of the round has
landed, and they go out again when it has arrived. What arrived over one link is ready for the next.

`sent` keeps every transmission; the code keeps the one that got through (`legs`). The loss is decided by
the numbers drawn, one for each transmission that can be lost; `makePrng` is one source of them.
-/
import DtnCustody.Agent.Batch
import DtnCustody.Agent.Custody
import DtnCustody.Base.JsMap
import Mathlib.Data.List.Sort
import Mathlib.Data.Rat.Floor

namespace DtnCustody.Voyager

open Base Js

/-! ## Windows -/

abbrev Window := ℚ × ℚ

/-- `nextStart(windows, t, txMs)`: the earliest start at which a transmission fits inside a window. -/
def nextStart (windows : Option (List Window)) (t txMs : ℚ) : Option ℚ :=
  match windows with
  | none => some t
  | some ws => ws.findSome? fun w => if max t w.1 + txMs ≤ w.2 then some (max t w.1) else none

def txMsOf (bytes : Nat) (bps : ℚ) : ℚ := ⌈(bytes * 8 * 1000 : ℚ) / bps⌉

def nackBytes (n : Nat) : Nat := 48 + 4 * n

/-- The state of `makePrng(seed)` after some numbers. -/
def prngState (seed : Nat) : Nat → Nat
  | 0 => if seed % 2 ^ 32 = 0 then 1 else seed % 2 ^ 32
  | n + 1 => (prngState seed n * 1664525 + 1013904223) % 2 ^ 32

/-- `makePrng(seed)`: the numbers it draws. -/
def makePrng (seed n : Nat) : ℚ := prngState seed (n + 1) / 2 ^ 32

/-! ## Links and items -/

/-- `{ owltMs, bps, windows }`. -/
structure Reverse where
  owltMs : ℚ
  bps : ℚ
  windows : Option (List Window)
  owlt_nonneg : 0 ≤ owltMs
  bps_pos : 0 < bps

/-- `{ id, owltMs, bps, windows, ber, reverse }`; no `ber` is 0. -/
structure Link where
  id : String
  owltMs : ℚ
  bps : ℚ
  windows : Option (List Window)
  ber : ℚ := 0
  reverse : Option Reverse := none
  owlt_nonneg : 0 ≤ owltMs
  bps_pos : 0 < bps

structure Bundle where
  payloadId : JsString
  bundleId : JsString
  index : Nat

structure Item where
  bundle : Bundle
  bytes : Nat
  readyAt : ℚ

structure Leg where
  link : String
  readyAt : ℚ
  txStart : ℚ
  txEnd : ℚ
  arriveAt : ℚ
  attempts : Nat

/-- `{ kind: "gap/1", … }`, the note apart. -/
structure Gap where
  link : String
  downAt : Option ℚ
  upAt : ℚ
  bundlesDelayed : List JsString

structure Resend where
  link : String
  round : Nat
  bundleIds : List JsString
  lastLandedAt : ℚ
  nackSentAt : ℚ
  nackArriveAt : ℚ

/-! ## One link -/

/-- One transmission: in which round, when the bundle was ready for it, and when the link was free. -/
structure Sent (n : Nat) where
  item : Fin n
  round : Nat
  readyNow : ℚ
  free : Option ℚ
  leg : Leg
  lost : Bool

/-- `Math.max(readyNow[i], free)`. -/
def startFrom (readyNow : ℚ) : Option ℚ → ℚ
  | none => readyNow
  | some f => max readyNow f

/-- The window that a bundle was held for: it went out in it, and was ready before it opened. -/
def heldFor (windows : Option (List Window)) (readyNow start : ℚ) : Outcome (Option Nat) :=
  match windows with
  | none => .ok none
  | some ws =>
      if readyNow < start then
        match ws.zipIdx.find? fun p => p.1.1 ≤ start ∧ start < p.1.2 with
        | none => .error .typeError
        | some (w, k) => .ok (if readyNow < w.1 then some k else none)
      else .ok none

/-- `delayedBy.get(w).add(id)`, with a new set where there is none. -/
def addDelayed (delayedBy : JsMap Nat (List JsString)) (id : JsString) :
    Option Nat → JsMap Nat (List JsString)
  | none => delayedBy
  | some w =>
      let ids := (delayedBy.get? w).getD []
      delayedBy.set w (if id ∈ ids then ids else ids ++ [id])

/-- The variables of a link. -/
structure Turn (n : Nat) where
  free : Option ℚ
  delayedBy : JsMap Nat (List JsString)
  attempts : Fin n → Nat
  legs : Fin n → Option Leg
  roundEnd : Option ℚ
  /-- How many numbers were drawn. -/
  drawn : Nat
  sent : List (Sent n)

/-- `pLoss`. -/
def pLoss (link : Link) (bytes : Nat) : ℚ := if link.ber = 0 then 0 else 1 - (1 - link.ber) ^ (bytes * 8)

variable (draws : Nat → ℚ) (link : Link) (items : List Item)

/-- One turn of the inner loop; the answer says whether the bundle is lost. -/
def send (ready readyNow : Fin items.length → ℚ) (round : Nat) (st : Turn items.length)
    (i : Fin items.length) : Outcome (Turn items.length × Bool) := do
  let item := items.get i
  let txMs := txMsOf item.bytes link.bps
  match nextStart link.windows (startFrom (readyNow i) st.free) txMs with
  | none => .error (.error s!"bundle {i} never fits on {link.id}")
  | some start =>
      let held ← heldFor link.windows (readyNow i) start
      let attempts := Function.update st.attempts i (st.attempts i + 1)
      let arriveAt := start + txMs + link.owltMs
      let leg : Leg :=
        { link := link.id, readyAt := ready i, txStart := start, txEnd := start + txMs, arriveAt
          attempts := attempts i }
      let lossy : Bool := pLoss link item.bytes ≠ 0
      let lost := lossy && decide (draws st.drawn < pLoss link item.bytes)
      let x : Sent items.length := { item := i, round, readyNow := readyNow i, free := st.free, leg, lost }
      return ({ free := some (start + txMs)
                delayedBy := addDelayed st.delayedBy item.bundle.bundleId held
                attempts
                legs := if lost then st.legs else Function.update st.legs i (some leg)
                roundEnd := some (startFrom arriveAt st.roundEnd)
                drawn := if lossy then st.drawn + 1 else st.drawn
                sent := st.sent ++ [x] }, lost)

/-- The inner loop; the answer says which bundles are lost. -/
def sendAll (ready readyNow : Fin items.length → ℚ) (round : Nat) :
    Turn items.length → List (Fin items.length) → Outcome (Turn items.length × List (Fin items.length))
  | st, [] => .ok (st, [])
  | st, i :: rest => do
      let (st, lost) ← send draws link items ready readyNow round st i
      let (st, more) ← sendAll ready readyNow round st rest
      return (st, if lost then i :: more else more)

/-- By the time they are ready, and then in source order. -/
def inReadyOrder {n : Nat} (readyNow : Fin n → ℚ) (pending : List (Fin n)) : List (Fin n) :=
  pending.insertionSort fun i j => readyNow i < readyNow j ∨ readyNow i = readyNow j ∧ i ≤ j

/-- The NACK for the bundles lost in a round. -/
def nack (round : Nat) (lost : List (Fin items.length)) (roundEnd : ℚ) : Outcome Resend :=
  match link.reverse with
  | none => .error (.error s!"{link.id}: bundles lost and no reverse link for a NACK")
  | some rv =>
      let nTx := txMsOf (nackBytes lost.length) rv.bps
      match nextStart rv.windows roundEnd nTx with
      | none => .error (.error s!"{link.id}: no reverse window for the NACK")
      | some nackStart =>
          .ok { link := link.id
                round := round + 1
                bundleIds := lost.map fun i => (items.get i).bundle.bundleId
                lastLandedAt := roundEnd
                nackSentAt := nackStart
                nackArriveAt := nackStart + nTx + rv.owltMs }

/-- The loop over the rounds, of which `left` may still be made. A round is made for some bundle, so
there is a last landing when there is a loss. -/
def rounds (ready : Fin items.length → ℚ) : Nat → Nat → (Fin items.length → ℚ) → Turn items.length →
    List (Fin items.length) → Outcome (Turn items.length × List Resend)
  | _, _, _, st, [] => .ok (st, [])
  | 0, _, _, _, _ :: _ => .error (.error s!"{link.id}: still losing bundles after 50 rounds")
  | left + 1, round, readyNow, st, i :: pending => do
      let order := inReadyOrder readyNow (i :: pending)
      let (st, lost) ← sendAll draws link items ready readyNow round { st with roundEnd := none } order
      match lost, st.roundEnd with
      | j :: more, some roundEnd =>
          let resend ← nack link items round (j :: more) roundEnd
          let later := fun i => if i ∈ j :: more then resend.nackArriveAt else readyNow i
          let (st, resends) ← rounds ready left (round + 1) later st (j :: more)
          return (st, resend :: resends)
      | _, _ => return (st, [])

/-- The gap record of a window. -/
def gapOf (ws : List Window) (w : Nat) (ids : List JsString) : Gap where
  link := link.id
  downAt := if 0 < w then some (ws.getD (w - 1) (0, 0)).2 else none
  upAt := (ws.getD w (0, 0)).1
  bundlesDelayed := Batch.sortIds ids

/-- What a link leaves behind. -/
structure LinkRun (n : Nat) where
  legs : Fin n → Leg
  gaps : List Gap
  resends : List Resend
  drawn : Nat
  sent : List (Sent n)

def Turn.start {n : Nat} (drawn : Nat) : Turn n where
  free := none
  delayedBy := JsMap.empty
  attempts := fun _ => 0
  legs := fun _ => none
  roundEnd := none
  drawn := drawn
  sent := []

/-- The body of `links.forEach`. -/
def runLink (ready : Fin items.length → ℚ) (drawn : Nat) : Outcome (LinkRun items.length) := do
  let (st, resends) ← rounds draws link items ready 51 0 ready (Turn.start drawn)
    (List.finRange items.length)
  if h : ∀ i, (st.legs i).isSome = true then
    return { legs := fun i => (st.legs i).get (h i)
             gaps := st.delayedBy.entries.map fun e => gapOf link (link.windows.getD []) e.1 e.2
             resends
             drawn := st.drawn
             sent := st.sent }
  else .error .typeError

/-- `links.forEach(…)`: what arrived over a link is ready for the next. -/
def runLinks : List Link → (Fin items.length → ℚ) → Nat → Outcome (List (LinkRun items.length))
  | [], _, _ => .ok []
  | link :: rest, ready, drawn => do
      let r ← runLink draws link items ready drawn
      let more ← runLinks rest (fun i => (r.legs i).arriveAt) r.drawn
      return r :: more

/-! ## Custody and arrivals -/

/-- `makeRelay(kp, eid)`. -/
structure Relay where
  kp : AgentKey
  eid : JsString

/-- `stamp(bundle, prevHop, receivedAt, forwardedAt)`. -/
def Relay.stamp (H : Host) (relay : Relay) (bundle : Bundle) (prevHop : JsString)
    (receivedAt forwardedAt : ℚ) : Outcome Json :=
  Receipt.custodyReceipt H relay.kp
    { payloadId := .str bundle.payloadId
      bundleId := .str bundle.bundleId
      prevHop := .str prevHop
      thisHop := .str relay.eid
      receivedAt := .num (.fin receivedAt)
      forwardedAt := .num (.fin forwardedAt) }

/-- `hops`, `links`, `items` and `relays`. -/
structure Input where
  hops : List JsString
  links : List Link
  items : List Item
  relays : JsString → Option Relay

/-- The receipt of one relay for a bundle, from the legs to it and on from it. -/
def stampAt (H : Host) (i : Input) (bundle : Bundle) (prevHop thisHop : JsString) (came went : Leg) :
    Outcome Json :=
  match i.relays thisHop with
  | none => .error .typeError
  | some relay => relay.stamp H bundle prevHop came.arriveAt went.txStart

/-- The receipts of the relays for a bundle: with the node before, on the leg that came to each. -/
def stamps (H : Host) (i : Input) (bundle : Bundle) (prevHop : JsString) :
    List JsString → List Leg → Outcome (List Json)
  | thisHop :: next :: hops, came :: went :: legs => do
      let r ← stampAt H i bundle prevHop thisHop came went
      let more ← stamps H i bundle thisHop (next :: hops) (went :: legs)
      return r :: more
  | _ :: _ :: _, _ => .error .typeError
  | _, _ => .ok []

/-- `recs`: the receipts for a bundle, from its legs. -/
def custodyOf (H : Host) (i : Input) (bundle : Bundle) (legs : List Leg) : Outcome (List Json) :=
  match i.hops with
  | [] => .ok []
  | first :: hops => stamps H i bundle first hops legs

structure Arrival where
  bundle : Bundle
  at_ : ℚ

structure Run (n : Nat) where
  links : List (LinkRun n)
  arrivals : List Arrival
  custodyByBundle : JsMap JsString (List Json)

namespace Run

variable {n : Nat} (r : Run n)

/-- `legs[i]`. -/
def legs (i : Fin n) : List Leg := r.links.map fun l => l.legs i

def gaps : List Gap := r.links.flatMap LinkRun.gaps

def resends : List Resend := r.links.flatMap LinkRun.resends

end Run

/-- `runPath({ hops, links, items, relays })`. -/
def runPath (H : Host) (i : Input) : Outcome (Run i.items.length) := do
  let runs ← runLinks draws i.items i.links (fun k => (i.items.get k).readyAt) 0
  let legs := fun k => runs.map fun (l : LinkRun i.items.length) => l.legs k
  let custody ← (List.finRange i.items.length).foldlM (fun custody k => do
    let recs ← custodyOf H i (i.items.get k).bundle (legs k)
    return custody.set (i.items.get k).bundle.bundleId recs) JsMap.empty
  let arrivals ← (List.finRange i.items.length).mapM fun k =>
    match (legs k).getLast? with
    | none => (.error .typeError : Outcome Arrival)
    | some leg => .ok { bundle := (i.items.get k).bundle, at_ := leg.arriveAt }
  return { links := runs
           arrivals := arrivals.insertionSort fun a b =>
             a.at_ < b.at_ ∨ a.at_ = b.at_ ∧ a.bundle.index ≤ b.bundle.index
           custodyByBundle := custody }

end DtnCustody.Voyager
