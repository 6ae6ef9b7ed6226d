/-
# DtnCustody.Ssi.Network — `ssi/network.mjs`: bundles moved hop by hop over a contact plan.

`runNetwork` takes the events in the order of time. A bundle that arrives gives up the key records it
carries and is delivered, or routed with the size it has, stamped, loaded with key news, and sent: the
contact is busy from the departure for as long as the bundle takes as it leaves.

A key event and an arrival hook may change the key state of the network in any way. What they close
over is `outside`.
-/
import DtnCustody.Keyring.Carry
import DtnCustody.Ssi.Route
import DtnCustody.Transport.AcceptedV2
import Mathlib.Data.List.DropRight

namespace DtnCustody.Network

open Base Js

/-! ## Bundles -/

/-- `dtn(ms)`: milliseconds since 2000. -/
def dtn (ms : Int) : Int := ms - 946684800000

def day : Int := 86400000

def hopCountType : Cbor := .int 10

/-- `{ src, dst, bytes, created, label, lifetimeDays }`. -/
structure Traffic where
  src : String
  dst : String
  bytes : Nat
  created : Int
  label : String
  lifetimeDays : Int := 7

/-- `s.replace(".0", ".1")`. -/
def serviceOne : List Char → List Char
  | '.' :: '0' :: rest => '.' :: '1' :: rest
  | c :: rest => c :: serviceOne rest
  | [] => []

def endpoint (s : String) : String := String.ofList (serviceOne s.toList)

section Bundles

variable (N : Node)

/-- `makeBundle(tr)`, when `seq` bundles have been made before. -/
def makeBundle (seq : Nat) (tr : Traffic) : Outcome Bytes := do
  let payload := (List.range tr.bytes).map fun i => UInt8.ofNat (i * 131 + seq * 17)
  let count ← Cbor.encode (.array [.int 64, .int 0])
  Bundle.encodeBundle N
    { primary := { crcType := some (.int 2), dest := endpoint tr.dst, source := endpoint tr.src,
                   created := (.val (.int (dtn tr.created)), .val (.int (seq + 1))),
                   lifetime := some (.int (tr.lifetimeDays * day)) }
      blocks := [{ type := some hopCountType, number := some (.int 2), crcType := some (.int 2),
                   data := count },
        { type := some Bundle.payloadType, number := some (.int 1), crcType := some (.int 2),
          data := payload }] }

/-- `encode([64, decode(x.data)[1] + 1])`. -/
def bumped (data : Bytes) : Outcome Bytes := do
  match ReceiptV2.countIn (← Cbor.decode data) with
  | some n => Cbor.encode (.array [.int 64, .int (n + 1)])
  | none => .error .typeError

def bumpHopCount (bytes : Bytes) : Outcome Bytes := do
  let b ← Bundle.decodeBundle N bytes
  let blocks ← b.blocks.mapM fun x => do
    if x.type = hopCountType then return { x with data := ← bumped x.data } else return x
  Bundle.encodeBundle N { b with blocks := blocks }.toObject

end Bundles

/-! ## Keys -/

/-- What is known of keys: `signer`, `rings`, `firstSeen` and `groundRecords` of the network. -/
structure Keys (σ : Type) where
  signer : JsMap String Keyring.KeyPair
  rings : JsMap String Keyring
  firstSeen : JsMap (String × Bytes) Int
  groundRecords : List (Cbor × Int)
  /-- What the events and hooks close over. -/
  outside : σ

/-- A function of `arrivalHooks`. -/
abbrev Hook (σ : Type) := Keys σ → String → Int → Outcome (Keys σ)

/-- `{ at, what, apply(net) }`. -/
structure KeyEvent (σ : Type) where
  due : Int
  what : String
  apply : Keys σ × List (Hook σ) → Int → Outcome (Keys σ × List (Hook σ))

/-- `recordId(record)`, as bytes. -/
def recordId (record : Cbor) : Outcome Bytes := do return (← Cbor.encode record).take 12

section Keys

variable {σ : Type} (N : Node)

def Keys.ring (k : Keys σ) (eid : String) : Outcome Keyring :=
  match k.rings.get? eid with
  | some ring => .ok ring
  | none => .error .typeError

/-- `noteRecord(eid, record, at)`. -/
def noteRecord (k : Keys σ) (eid : String) (record : Cbor) (time : Int) : Outcome (Keys σ) := do
  let (ring, fresh) ← (← k.ring eid).add N record (dtn time)
  let k := { k with rings := k.rings.set eid ring }
  if fresh then
    let id ← recordId record
    if k.firstSeen.has (eid, id) then return k
    else return { k with firstSeen := k.firstSeen.set (eid, id) time }
  else return k

/-- `news(net, node)`: the keys issued after launch. -/
def news (start : Int) (ring : Keyring) : Outcome (List Keyring.KeyId) := do
  let issued := ring.records.values.filter fun r =>
    r.f.kind.isInt Keyring.kindKey && dtn start < r.seenAt
  issued.mapM fun r => do return Keyring.keyIdOf N (← Keyring.spkiOfField r.f.pub)

end Keys

/-! ## The network -/

structure NodeInfo where
  custodian : Bool
  /-- A station or an operations centre. -/
  ground : Bool := false

/-- An entry of a bundle's `path`. -/
structure Visit where
  node : String
  arrive : Int
  depart : Option Int := none
  signed : Bool := false
  hopCount : Option Int := none
  contact : Option String := none

/-- A bundle under way. -/
structure Parcel where
  traffic : Traffic
  /-- Its place in the traffic. -/
  ref : Nat
  data : Bytes
  path : List Visit
  prev : String

inductive Event (σ : Type) where
  | arrive (t : Int) (node : String) (b : Parcel)
  | key (t : Int) (ev : KeyEvent σ)

def Event.time {σ : Type} : Event σ → Int
  | .arrive t _ _ => t
  | .key t _ => t

structure Delivered where
  b : Parcel
  deliveredAt : Int
  atDest : ReceiptV2.Verdict

structure Stuck where
  b : Parcel
  stuckAt : String
  t : Int

/-- What a bundle did on a contact. The code keeps the times in `path` and `nextFree`. -/
structure Transmission where
  /-- The place of the contact in the list. -/
  contact : Nat
  arrived : Int
  depart : Int
  /-- The size as it arrived, and as it left. -/
  bytesIn : Nat
  bytesOut : Nat

/-- What does not change in a run. -/
structure World where
  start : Int
  nodes : JsMap String NodeInfo

structure Net (σ : Type) where
  contacts : List Contact
  keys : Keys σ
  arrivalHooks : List (Hook σ) := []
  deliveries : List Delivered := []
  undelivered : List Stuck := []
  log : List (Int × String) := []
  queue : List (Event σ) := []
  sent : List Transmission := []

variable {σ : Type}

/-- `push(e)`: behind every event that is not later, counted from the end. -/
def push (q : List (Event σ)) (e : Event σ) : List (Event σ) :=
  q.rdropWhile (fun x => e.time < x.time) ++ e :: q.rtakeWhile fun x => e.time < x.time

/-- `net.publish(record, at)`: the ground has it at once. -/
def publish (N : Node) (W : World) (k : Keys σ) (record : Cbor) (time : Int) : Outcome (Keys σ) :=
  let groundNodes := (W.nodes.entries.filter fun p => p.2.ground).map Prod.fst
  groundNodes.foldlM (fun k g => noteRecord N k g record time)
    { k with groundRecords := k.groundRecords ++ [(record, time)] }

variable (H : NetHost) (W : World)

/-- `nodes[node].custodian`. -/
def World.custodian (node : String) : Outcome Bool :=
  match W.nodes.get? node with
  | some info => .ok info.custodian
  | none => .error .typeError

/-- The key news riding in the bundle, and the hooks; with the hop count of the bundle. -/
def takeIn (net : Net σ) (node : String) (b : Parcel) (t : Int) :
    Outcome (Net σ × Option Int) := do
  let bundle ← Bundle.decodeBundle H.toNode b.data
  let records ← Keyring.readKeyBlock bundle
  let keys ← records.foldlM (fun k r => noteRecord H.toNode k node r t) net.keys
  let keys ← net.arrivalHooks.foldlM (fun k h => h k node t) keys
  let hc ← ReceiptV2.hopCountOf bundle
  return ({ net with keys }, hc)

/-- `stampBundleV2(data, { kp: net.signer[node], eid: node }, { prevHop, …, chain, hops, … })`. -/
def sign (k : Keys σ) (node : String) (b : Parcel) (receivedAt forwardedAt : Int)
    (hopsReleased : JsVal) : Outcome Bytes :=
  match k.signer.get? node with
  | none => .error .typeError
  | some kp =>
      ReceiptV2.stampBundleV2 H.toNode b.data ⟨kp.priv, node⟩
        { prevHop := some b.prev, receivedAt := some (.int (dtn receivedAt)),
          forwardedAt := some (.int (dtn forwardedAt)), chain := true, hops := true, hopsReleased }

/-- The bundle at its destination, stamped if that is a custodian. -/
def received (k : Keys σ) (node : String) (b : Parcel) (t : Int) (custodian : Bool) :
    Outcome Bytes :=
  if custodian then sign H k node b t t none else .ok b.data

/-- The bundle is where it was going. -/
def deliver (net : Net σ) (node : String) (b : Parcel) (t : Int) (hc : Option Int) :
    Outcome (Net σ) := do
  let signed ← W.custodian node
  let data ← received H net.keys node b t signed
  let b := { b with data, path := b.path ++ [{ node, arrive := t, signed, hopCount := hc }] }
  let ring ← net.keys.ring node
  let atDest ← ReceiptV2.verifyBundleV2 H.toNode data
    { keyring := some ring, arrivedAt := some (.fin (dtn t)), origin := some b.traffic.src,
      lastNode := some (some node) }
  return { net with deliveries := net.deliveries ++ [⟨b, t, atDest⟩] }

/-- `route(contacts, node, b.dst, t, b.data.length, …)`, and its first contact. -/
def choose (net : Net σ) (node : String) (b : Parcel) (t : Int) :
    Outcome (Option (Nat × Contact)) := do
  let r ← route H
    { contacts := net.contacts, node, dst := b.traffic.dst, t, bytes := b.data.length,
      exclude := b.path.map Visit.node }
  match r with
  | none => return none
  | some (hops, _) =>
      if 20 < b.path.length then return none
      else match hops.head? with
        | none => .error .typeError
        | some i =>
            match net.contacts[i]? with
            | none => .error .typeError
            | some c => return some (i, c)

/-- The bundle signed and loaded with key news, by a custodian. -/
def loaded (k : Keys σ) (node : String) (b : Parcel) (t depart : Int) (hc : Option Int)
    (custodian : Bool) : Outcome Bytes :=
  if custodian then do
    let stamped ← sign H k node b t depart (some (.int (hc.getD 0 + 1)))
    let ring ← k.ring node
    Keyring.carryRecords H.toNode stamped
      (← ring.forCarriage H.toNode (← news H.toNode W.start ring))
  else .ok b.data

/-- The bundle as it leaves, its hop counted. -/
def outgoing (k : Keys σ) (node : String) (b : Parcel) (t depart : Int) (hc : Option Int)
    (custodian : Bool) : Outcome Bytes := do
  bumpHopCount H.toNode (← loaded H W k node b t depart hc custodian)

/-- The bundle goes out on contact `i`. -/
def forward (net : Net σ) (node : String) (b : Parcel) (t : Int) (hc : Option Int) (i : Nat)
    (c : Contact) : Outcome (Net σ) := do
  let depart := departure t c
  let signed ← W.custodian node
  let data ← outgoing H W net.keys node b t depart hc signed
  let tx := txMs H data.length c
  let visit : Visit :=
    { node, arrive := t, depart := some depart, signed, hopCount := hc, contact := some c.id }
  return { net with
    contacts := net.contacts.set i { c with nextFree := some (depart + tx) },
    queue := push net.queue (.arrive (depart + tx + c.owltMs) c.toEid
      { b with data, prev := node, path := b.path ++ [visit] }),
    sent := net.sent ++ [⟨i, t, depart, b.data.length, data.length⟩] }

/-- No contact reaches the destination, or the path is too long. -/
def giveUp (net : Net σ) (node : String) (b : Parcel) (t : Int) : Net σ :=
  let b := { b with path := b.path ++ [{ node, arrive := t }] }
  { net with undelivered := net.undelivered ++ [⟨b, node, t⟩] }

/-- One arrival. -/
def stepArrive (net : Net σ) (node : String) (b : Parcel) (t : Int) : Outcome (Net σ) := do
  let (net, hc) ← takeIn H net node b t
  if node = b.traffic.dst then deliver H W net node b t hc
  else
    match ← choose H net node b t with
    | none => return giveUp net node b t
    | some (i, c) => forward H W net node b t hc i c

/-- One turn of `while (q.length)`. -/
def step (net : Net σ) : Outcome (Option (Net σ)) :=
  match net.queue with
  | [] => .ok none
  | .key t ev :: queue => do
      let (keys, arrivalHooks) ← ev.apply (net.keys, net.arrivalHooks) t
      return some { net with queue, keys, arrivalHooks, log := net.log ++ [(t, ev.what)] }
  | .arrive t node b :: queue => do return some (← stepArrive H W { net with queue } node b t)

/-! ## Running -/

/-- `{ start, contacts, keys, traffic, events, nodes }`, and the bundles made before. -/
structure Inputs (σ : Type) extends World where
  contacts : List Contact
  anchors : List Keyring.Anchor
  launchRecords : List Cbor
  nodeKeys : JsMap String Keyring.KeyPair
  traffic : List Traffic
  events : List (KeyEvent σ) := []
  seq : Nat := 0
  outside : σ

/-- The ring of a node at launch. -/
def launchRing (I : Inputs σ) : Outcome Keyring :=
  I.launchRecords.foldlM
    (fun ring r => do return (← ring.add H.toNode r (dtn I.start - day)).1)
    (Keyring.new H.toNode I.anchors)

/-- The traffic is made into bundles, one after the other, and pushed. -/
def pushTraffic (seq : Nat) : (ref : Nat) → List (Event σ) → List Traffic → Outcome (List (Event σ))
  | _, q, [] => .ok q
  | ref, q, tr :: rest => do
      let data ← makeBundle H.toNode (seq + ref) tr
      pushTraffic seq (ref + 1)
        (push q (.arrive tr.created tr.src { traffic := tr, ref, data, path := [], prev := tr.src }))
        rest

def launch (I : Inputs σ) : Outcome (Net σ) := do
  let ring ← launchRing H I
  let q ← pushTraffic H I.seq 0 [] I.traffic
  return { contacts := I.contacts,
           keys := { signer := I.nodeKeys, rings := JsMap.ofList (I.nodes.keys.map (·, ring)),
                     firstSeen := JsMap.empty, groundRecords := [], outside := I.outside },
           queue := I.events.foldl (fun q ev => push q (.key ev.due ev)) q }

/-- How many turns an event can still cause: a path of more than 20 nodes ends. -/
def Event.weight : Event σ → Nat
  | .key _ _ => 1
  | .arrive _ _ b => 22 - min b.path.length 21

def weight (q : List (Event σ)) : Nat := (q.map Event.weight).sum

/-- The loop. Every turn takes from the weight of the queue. -/
def loop : (fuel : Nat) → Net σ → Outcome (Net σ)
  | 0, net => .ok net
  | fuel + 1, net => do
      match ← step H W net with
      | none => return net
      | some net => loop fuel net

def runNetwork (I : Inputs σ) : Outcome (Net σ) := do
  let net ← launch H I
  loop H I.toWorld (weight net.queue) net

end DtnCustody.Network
