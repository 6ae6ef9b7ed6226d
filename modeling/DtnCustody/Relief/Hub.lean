/-
# DtnCustody.Relief.Hub — `makeHub` of `relief/kit/lib/roles.mjs`, and the hub of `relief/kit/node.mjs` around it.

The hub keeps an entry for each report: the manifest, the destination made from it, and the chunks
by the index they claim. A chunk that comes before the manifest is parked unchecked; every later
`finalize` checks what is not `ok` yet and drops what fails. A frame whose index is in the map
already is a duplicate, whatever it carries.

A check can throw. What was written before the throw stays written, so every step here returns the
state beside its outcome. `tick`, `setDirectory` and the summaries of `state` are not needed for
what a report comes to.

The node logs every frame, has it judged, and writes the report it touched to the inbox when it has become
a verified one. At the start the log is gone through in the same way, with the times it has. A throw of
`ingest` or of the writing ends the node. The line that is printed about a report, the requests for
resends and the dashboard are left out.
-/
import DtnCustody.Agent.Dest
import DtnCustody.Relief.Clinic

namespace DtnCustody

open Base Js

namespace Relief

/-! ## The directory -/

structure Revoked where
  eid : JsString
  pub : JsString
  revokedAt : Int

structure Directory where
  clinics : List (JsString × Json)
  relays : List (JsString × Json)
  revoked : List Revoked := []

def isRevoked (revoked : List Revoked) (pub : JsonVal) (t : Int) : Bool :=
  revoked.any fun r => JsonVal.strictEq (some (.str r.pub)) pub && decide (r.revokedAt ≤ t)

/-- The first key of `eid` to be revoked after `t`. -/
def laterKey (revoked : List Revoked) (eid : JsonVal) (t : Int) : Option Revoked :=
  ((revoked.filter fun r => JsonVal.strictEq (some (.str r.eid)) eid && decide (t < r.revokedAt)
    ).insertionSort fun r s => r.revokedAt ≤ s.revokedAt).head?

def keyAt (N : Node) (current : List (JsString × Json)) (revoked : List Revoked) (eid : JsonVal)
    (t : Int) : Outcome Pin :=
  match laterKey revoked eid t with
  | some r => .ok (.own (.str r.pub))
  | none => do return Pin.find current (← JsonVal.toStr N eid)

/-- `keysAt(current, revoked, t)[name]`. -/
def keysAt (current : List (JsString × Json)) (revoked : List Revoked) (t : Int) (name : JsString) :
    Pin :=
  match laterKey revoked (some (.str name)) t with
  | some r => .own (.str r.pub)
  | none => Pin.find current name

/-! ## Entries -/

/-- `{ bundle, custody, arrivedAt, ok }`. -/
structure Stored where
  bundle : JsonVal
  custody : JsonVal
  arrivedAt : Int
  ok : Bool := false

structure Hop where
  fromEid : JsonVal
  toEid : JsonVal
  transitMs : JsNum

structure Verified where
  clinic : JsonVal
  root : JsonVal
  chunkCount : JsonVal
  createdAt : JsonVal
  verifiedAt : Int
  fileName : JsonVal
  fileType : JsonVal
  fileSize : Nat
  bytes : Bytes
  summary : Json
  route : List JsonVal
  hops : List Hop
  resends : Nat
  holds : List Hop

inductive Report where
  | verified (r : Verified)
  | refused (reason : String)

def Report.isVerified : Report → Bool
  | .verified _ => true
  | .refused _ => false

structure Entry where
  manifest : JsonVal := some .null
  manifestAt : Int := 0
  dest : Option Dest := none
  clinic : JsonVal := none
  chunks : JsMap Dest.Key Stored := JsMap.empty
  report : Option Report := none
  lastAt : Option Int := none
  via : JsonVal := none
  origin : JsonVal := none
  route : Option (List JsonVal) := none
  resends : Nat := 0
  /-- The identity of the next object used as an index. -/
  fresh : Nat := 0

/-- A reason of the code's own, or what was thrown. -/
inductive Reason where
  | code (reason : String)
  | thrown (e : Err)

structure Refusal where
  refusedAt : Int
  payloadId : JsonVal := none
  index : Option Dest.Key := none
  reason : Reason
  hop : Option Nat := none
  claimedBy : JsonVal := none
  gaps : List Gap := []
  clinic : JsonVal := none

/-- The bundles a relay is owed for. -/
structure Owed where
  relay : JsonVal
  ids : List Prim

/-- What the hub keeps across reports. -/
structure Books where
  refusals : List Refusal := []
  paid : JsMap Dest.Key Owed := JsMap.empty
  duplicates : Nat := 0
  fresh : Nat := 0

namespace Books

def refuse (b : Books) (r : Refusal) : Books := { b with refusals := b.refusals ++ [r] }

/-- `paid.get(relay).add(bundleId)`. The audit has compared the identifier with `===`, so it is no
object. -/
def credit (b : Books) (relay bundleId : JsonVal) : Books :=
  let k := Dest.keyOf relay b.fresh
  let o := (b.paid.get? k).getD { relay, ids := [] }
  let ids := match JsonVal.key? bundleId with
    | some id => if id ∈ o.ids then o.ids else o.ids ++ [id]
    | none => o.ids
  { b with paid := b.paid.set k { o with ids }, fresh := b.fresh + 1 }

end Books

structure HubConfig where
  eid : JsString
  encPriv : Bytes
  directory : Directory
  holdThresholdMs : Int := 600000

/-- `setDirectory(d)`. -/
def HubConfig.under (cfg : HubConfig) (d : Directory) : HubConfig := { cfg with directory := d }

/-! ## Checking a chunk -/

variable (H : ReliefHost) (cfg : HubConfig)

/-- What a chunk whose bundle passed is dropped for. -/
structure Denial where
  reason : String
  hop : Option Nat := none
  claimedBy : JsonVal := none
  gaps : List Gap := []

/-- `custody.findIndex(rec => isRevoked(…, rec.signerPub, arrivedAt))`, from position `i` on. -/
def revokedHop (t : Int) (i : Nat) : List Json → Outcome (Option (Nat × Json))
  | [] => .ok none
  | rec :: rest => do
      let signerPub ← JsonVal.get (some rec) "signerPub"
      if isRevoked cfg.directory.revoked signerPub t then return some (i, rec)
      else revokedHop t (i + 1) rest

/-- The custody list of a chunk, for a report of `clinic`. -/
def judgeCustody (clinic : JsonVal) (c : Stored) : Outcome (Option Denial) :=
  match c.custody with
  | some (.arr rs) => do
      match ← revokedHop cfg c.arrivedAt 0 rs with
      | some (hop, rec) =>
          return some { reason := "key_revoked", hop := some hop, claimedBy := rec.get "thisHop" }
      | none =>
          let a ← Receipt.auditCustodyChain H.toHost c.custody
            { bundleId := JsonVal.get? c.bundle "bundleId",
              keys := keysAt cfg.directory.relays cfg.directory.revoked c.arrivedAt,
              origin := clinic.getD .null }
          match a with
          | .fail reason hop =>
              return some { reason, hop, claimedBy := (hop.bind (rs[·]?)).bind (·.get "thisHop") }
          | .ok _ gaps =>
              return if gaps.isEmpty then none else some { reason := "uncustodied_gap", gaps }
  | _ => .error .typeError

/-- An entry and the books. -/
abbrev Desk := Entry × Books

def Entry.drop (p : Entry) (k : Dest.Key) : Entry := { p with chunks := p.chunks.delete k }

/-- The receipts of a chunk, each credited to its relay. -/
def creditAll (b : Books) (c : Stored) : Books :=
  match c.custody with
  | some (.arr rs) =>
      rs.foldl (fun b rec => b.credit (rec.get "thisHop") (JsonVal.get? c.bundle "bundleId")) b
  | _ => b

/-- `check(id, p, index)`, for the chunk `c` at `k` and the destination `d` of the entry. -/
def check (now : Int) (id : JsonVal) (k : Dest.Key) (c : Stored) (d : Dest) (s : Desk) :
    Outcome Unit × Desk :=
  let p := { s.1 with dest := some (d.receiveBundle H.toHost c.bundle).2 }
  match (d.receiveBundle H.toHost c.bundle).1 with
  | .error e => (.error e, p, s.2)
  | .ok (some refusal) =>
      (.ok (), p.drop k, s.2.refuse
        { refusedAt := now, payloadId := id, index := some k, reason := .code refusal.text })
  | .ok none =>
      match judgeCustody H cfg p.clinic c with
      | .error e => (.error e, p, s.2)
      | .ok (some denial) =>
          (.ok (), p.drop k, s.2.refuse
            { refusedAt := now, payloadId := id, index := some k, reason := .code denial.reason,
              hop := denial.hop, claimedBy := denial.claimedBy, gaps := denial.gaps })
      | .ok none =>
          (.ok (), { p with chunks := p.chunks.set k { c with ok := true } }, creditAll s.2 c)

/-- The loop of `finalize` over the keys there were when it started. -/
def checkAll (now : Int) (id : JsonVal) : List Dest.Key → Desk → Outcome Unit × Desk
  | [], s => (.ok (), s)
  | k :: ks, s =>
      match s.1.chunks.get? k, s.1.dest with
      | some c, some d =>
          if c.ok then checkAll now id ks s
          else
            match check H cfg now id k c d s with
            | (.ok (), s) => checkAll now id ks s
            | (.error e, s) => (.error e, s)
      | _, _ => (.error .typeError, s)

/-! ## Finalizing -/

/-- A destination for a manifest, or the reason it is refused for. -/
def openDest (m : Json) (t : Int) : Outcome (Reason ⊕ Dest) := do
  let clinic := JsonVal.get? (m.get "meta") "clinic"
  let sourcePub ← keyAt H.toNode cfg.directory.clinics cfg.directory.revoked clinic t
  if isRevoked cfg.directory.revoked (m.get "signerPub") t then return .inl (.code "key_revoked")
  else if sourcePub.truthy = false then return .inl (.code "unknown_clinic")
  else match Dest.makeDest H.toHost (some m) sourcePub with
    | .ok (.inr d) => return .inr d
    | .ok (.inl reason) => return .inl (.code reason)
    | .error e => return .inl (.thrown e)

/-- `unpackFile(openAt(encPriv, dest.reassemble(), id))`. -/
def openReport (id : JsonVal) (d : Dest) : Option (Json × Bytes) := do
  let payload ← (d.reassemble).toOption
  let aad ← (JsonVal.toBuffer H.toHost toUtf8 id).toOption
  let inner ← Seal.openAt H cfg.encPriv payload aad
  unpackFile H inner

/-- `v - w`. -/
def minus (v w : JsonVal) : Outcome JsNum := do
  let x ← (← JsonVal.toPrim H.toNode v).toNumber H.toNode
  let y ← (← JsonVal.toPrim H.toNode w).toNumber H.toNode
  return x.sub y

/-- The links of a chunk's way, from a node that had it since `since`. -/
def hopsFrom (arrivedAt : Int) (node since : JsonVal) : List Json → Outcome (List Hop)
  | [] => do
      return [{ fromEid := node, toEid := some (.str cfg.eid),
                transitMs := ← minus H (some (.int arrivedAt)) since }]
  | rec :: rest => do
      let transitMs ← minus H (rec.get "receivedAt") since
      let hops ← hopsFrom arrivedAt (rec.get "thisHop") (rec.get "forwardedAt") rest
      return { fromEid := node, toEid := rec.get "thisHop", transitMs } :: hops

/-- `/\.json$/i.test(name)`. -/
def isJsonName (name : JsString) : Bool := (js ".json").isSuffixOf (toLowerCase name)

/-- The report, from the manifest, the first chunk and what was opened. -/
def makeReport (now : Int) (p : Entry) (m file : Json) (bytes : Bytes) : Outcome Verified := do
  let name ← JsonVal.get (some file) "name"
  let summary :=
    if isJsonName (← JsonVal.toStr H.toNode name) then (H.parseJson (ofUtf8 bytes)).getD .null
    else .null
  match p.chunks.get? (.prim (.int 0)) with
  | some ⟨_, some (.arr rs), arrivedAt, _⟩ => do
      let createdAt ← JsonVal.get (m.get "meta") "createdAt"
      let hops ← hopsFrom H cfg arrivedAt p.clinic createdAt rs
      return { clinic := p.clinic, root := m.get "root", chunkCount := m.get "chunkCount", createdAt,
               verifiedAt := now, fileName := name, fileType := file.get "type",
               fileSize := bytes.length, bytes, summary,
               route := p.clinic :: rs.map (·.get "thisHop") ++ [some (.str cfg.eid)], hops,
               resends := p.resends,
               holds := hops.filter fun h =>
                 Prim.ge H.toNode (.num h.transitMs) (.int cfg.holdThresholdMs) }
  | _ => .error .typeError

/-- `finalize` once every chunk has been checked and there are enough of them. -/
def conclude (now : Int) (id : JsonVal) (m : Json) (d : Dest) (s : Desk) : Outcome Unit × Desk :=
  match openReport H cfg id d with
  | none =>
      (.ok (), { s.1 with report := some (.refused "decrypt_failed") },
        s.2.refuse { refusedAt := now, payloadId := id, reason := .code "decrypt_failed" })
  | some (file, bytes) =>
      match makeReport H cfg now s.1 m file bytes with
      | .error e => (.error e, s)
      | .ok r => (.ok (), { s.1 with report := some (.verified r) }, s.2)

/-- `finalize` once there is a destination. -/
def settle (now : Int) (id : JsonVal) (m : Json) (s : Desk) : Outcome Unit × Desk :=
  match checkAll H cfg now id s.1.chunks.keys s with
  | (.error e, s) => (.error e, s)
  | (.ok (), s) =>
      match JsonVal.lt H.toNode (some (.int s.1.chunks.size)) (m.get "chunkCount"), s.1.dest with
      | .error e, _ => (.error e, s)
      | .ok false, some d => conclude H cfg now id m d s
      | .ok _, _ => (.ok (), s)

def finalize (now : Int) (id : JsonVal) (s : Desk) : Outcome Unit × Desk :=
  match s.1.manifest, s.1.report with
  | some m, none =>
      if m.truthy = false then (.ok (), s)
      else
        match s.1.dest with
        | some _ => settle H cfg now id m s
        | none =>
            let clinic := JsonVal.get? (m.get "meta") "clinic"
            match openDest H cfg m s.1.manifestAt with
            | .error e => (.error e, s)
            | .ok (.inl reason) =>
                (.ok (), { s.1 with manifest := some .null },
                  s.2.refuse { refusedAt := now, payloadId := id, reason, clinic })
            | .ok (.inr d) => settle H cfg now id m ({ s.1 with clinic, dest := some d }, s.2)
  | _, _ => (.ok (), s)

/-! ## Frames -/

/-- `dec(buf)`. -/
def dec (buf : Bytes) : Option Json := do
  let f ← H.parseJson (ofUtf8 buf)
  if f.truthy && JsonVal.strictEq (f.get "v") (some (.int 1)) then some f else none

def payloadOf (f : Json) : JsonVal :=
  (((JsonVal.get? (f.get "manifest") "payloadId").orElse
    (JsonVal.get? (f.get "bundle") "payloadId")).orElse
      (JsonVal.get? (f.get "request") "payloadId")).orElse (some .null)

/-- `v?.length`. -/
def lengthOf : JsonVal → JsonVal
  | some (.arr xs) => some (.int xs.length)
  | some (.str s) => some (.int s.length)
  | v => JsonVal.get? v "length"

/-- `v?.[0]`. -/
def headOf : JsonVal → JsonVal
  | some (.arr xs) => xs.head?
  | some (.str s) => s.head?.map fun u => .str [u]
  | v => JsonVal.get? v "0"

/-- `[custody[0].prevHop, ...custody.map(r => r.thisHop)]`, for a list that is not empty. -/
def routeOf (custody : JsonVal) : Outcome (Option (List JsonVal)) :=
  if JsonVal.truthy (lengthOf custody) = false then .ok none
  else do
    let source ← JsonVal.get (headOf custody) "prevHop"
    match custody with
    | some (.arr rs) => return some (source :: (← rs.mapM fun r => JsonVal.get (some r) "thisHop"))
    | _ => .error .typeError

/-- `v || w`. -/
def orElseFalsy (v w : JsonVal) : JsonVal := if JsonVal.truthy v then v else w

/-- `p.lastAt = arrivedAt; if (f.lastHop) p.via = f.lastHop`. -/
def Entry.touch (p : Entry) (f : Json) (arrivedAt : Int) : Entry :=
  { p with lastAt := some arrivedAt, via := orElseFalsy (f.get "lastHop") p.via }

/-- A manifest frame. -/
def takeManifest (now : Int) (id : JsonVal) (f : Json) (arrivedAt : Int) (s : Desk) :
    Outcome Unit × Desk :=
  let p := s.1.touch f arrivedAt
  if JsonVal.truthy p.manifest then
    finalize H cfg now id (p, { s.2 with duplicates := s.2.duplicates + 1 })
  else finalize H cfg now id ({ p with manifest := f.get "manifest", manifestAt := arrivedAt }, s.2)

/-- The chunk a frame carries. -/
def storedOf (f : Json) (arrivedAt : Int) : Stored where
  bundle := f.get "bundle"
  custody := orElseFalsy (f.get "custody") (some (.arr []))
  arrivedAt

/-- `p.chunks.set(f.bundle.index, …)`. -/
def Entry.park (p : Entry) (k : Dest.Key) (c : Stored) : Entry :=
  { p with chunks := p.chunks.set k c, fresh := p.fresh + 1 }

/-- A chunk frame. -/
def takeChunk (now : Int) (id : JsonVal) (f : Json) (arrivedAt : Int) (s : Desk) :
    Outcome Unit × Desk :=
  let p := s.1.touch f arrivedAt
  let source := JsonVal.get? (headOf (f.get "custody")) "prevHop"
  let p := if JsonVal.truthy p.clinic || !JsonVal.truthy source then p else { p with origin := source }
  match routeOf (f.get "custody") with
  | .error e => (.error e, p, s.2)
  | .ok route =>
      let p := { p with route := route.or p.route }
      match JsonVal.get (f.get "bundle") "index" with
      | .error e => (.error e, p, s.2)
      | .ok index =>
          let k := Dest.keyOf index p.fresh
          if p.chunks.has k || p.report.any Report.isVerified then
            (.ok (), p, { s.2 with duplicates := s.2.duplicates + 1 })
          else finalize H cfg now id (p.park k (storedOf f arrivedAt), s.2)

/-! ## The hub -/

structure Hub where
  payloads : JsMap Dest.Key Entry := JsMap.empty
  books : Books := {}
  /-- The identity of the next object used as a payload identifier. -/
  fresh : Nat := 0

/-- One step on the entry of a report, made if it is not there. -/
def Hub.onEntry (hub : Hub) (id : JsonVal) (step : Desk → Outcome Unit × Desk) :
    Outcome JsonVal × Hub :=
  let k := Dest.keyOf id hub.fresh
  let r := step ((hub.payloads.get? k).getD {}, hub.books)
  (r.1.map fun _ => id, { payloads := hub.payloads.set k r.2.1, books := r.2.2, fresh := hub.fresh + 1 })

def Hub.refuse (hub : Hub) (now : Int) (reason : String) : Hub :=
  { hub with books := hub.books.refuse { refusedAt := now, reason := .code reason } }

/-- A frame that reaches the hub: its bytes, and the hub's clock as it is kept and as it is read. -/
structure Arrival where
  buf : Bytes
  arrivedAt : Int
  now : Int

/-- `ingest(buf, arrivedAt)`. -/
def Hub.ingest (hub : Hub) (x : Arrival) : Outcome JsonVal × Hub :=
  match dec H x.buf with
  | none => (.ok (some .null), hub.refuse x.now "unreadable_frame")
  | some f =>
      let id := payloadOf f
      if JsonVal.isText (f.get "kind") "manifest" && JsonVal.truthy id then
        hub.onEntry id (takeManifest H cfg x.now id f x.arrivedAt)
      else if JsonVal.isText (f.get "kind") "chunk" && JsonVal.truthy id then
        hub.onEntry id (takeChunk H cfg x.now id f x.arrivedAt)
      else (.ok (some .null), hub.refuse x.now "unknown_frame_kind")

/-- A run of `ingest`, whatever each call answers. -/
def Hub.ingestAll (hub : Hub) (xs : List Arrival) : Hub :=
  xs.foldl (fun hub x => (hub.ingest H cfg x).2) hub

/-- A run of `ingest` that ends where a call throws. -/
def Hub.replay (hub : Hub) : List Arrival → Outcome Hub
  | [] => .ok hub
  | x :: rest =>
      match hub.ingest H cfg x with
      | (.ok _, hub) => hub.replay rest
      | (.error e, _) => .error e

/-- The order of `sort()`: by text, and `undefined` last. -/
def textLe (p q : Prim) : Bool :=
  q = .undef || p ≠ .undef && decide (Prim.toJsString H.toNode p ≤ Prim.toJsString H.toNode q)

/-- `paidIds()`: the bundles by the names of the relays, of which equal ones count once. -/
def Hub.paidIds (hub : Hub) : Outcome (JsMap JsString (List Prim)) :=
  hub.books.paid.values.foldlM (fun m o => do
    return m.set (← JsonVal.toStr H.toNode o.relay) (o.ids.insertionSort fun p q => textLe H p q))
    JsMap.empty

/-- `report(id)`. -/
def Hub.report (hub : Hub) (id : JsString) : Option Report :=
  (hub.payloads.get? (.prim (.str id))).bind (·.report)

end Relief

end DtnCustody

namespace DtnCustody

open Base Js

namespace Relief

/-! ## Writing a report -/

/-- `node:fs` and `node:path`, as far as the inbox needs them. -/
structure Disk where
  /-- `basename`, of a string. -/
  basename : JsString → JsString
  /-- `mkdirSync(join(inbox, dir), { recursive: true })`. -/
  mkdir : JsString → Outcome Unit
  /-- `writeFileSync(join(inbox, dir, name), …)`. -/
  writeFile : JsString → JsString → Outcome Unit

/-- `[A-Za-z0-9._-]`. -/
def isSafeUnit (u : UInt16) : Bool :=
  (65 ≤ u && u ≤ 90) || (97 ≤ u && u ≤ 122) || (48 ≤ u && u ≤ 57) || u = 46 || u = 95 || u = 45

/-- Every run of other characters becomes one underscore; `inRun` says that the run has begun. -/
def collapse : (inRun : Bool) → JsString → JsString
  | _, [] => []
  | inRun, u :: rest =>
      if isSafeUnit u then u :: collapse false rest
      else if inRun then collapse true rest
      else 95 :: collapse true rest

/-- `safe(id)`; what is not a string has no `replace`. -/
def safe : JsonVal → Outcome JsString
  | some (.str s) => .ok (collapse false s)
  | _ => .error .typeError

/-- `basename(name)`, which takes strings only. -/
def Disk.basenameOf (disk : Disk) : JsonVal → Outcome JsString
  | some (.str s) => .ok (disk.basename s)
  | _ => .error .typeError

/-- The directory and the two files of a report. -/
def Disk.save (disk : Disk) (id fileName : JsonVal) : Outcome Unit := do
  let out ← safe id
  disk.mkdir out
  disk.writeFile out (← disk.basenameOf fileName)
  disk.writeFile out (js "evidence.json")

variable (H : ReliefHost) (cfg : HubConfig) (disk : Disk)

/-! ## The node -/

/-- The hub, and the identifiers of the reports that have been written. -/
structure HubNode where
  hub : Hub := {}
  written : List Prim := []

/-- `hub.report(id)` for the identifier that a frame touched: if it is an object, it is the last one that
was used as an identifier. -/
def Hub.reportFor (hub : Hub) (id : JsonVal) : Option Report :=
  (hub.payloads.get? (Dest.keyOf id (hub.fresh - 1))).bind (·.report)

/-- `persist(id)`. -/
def HubNode.persist (s : HubNode) (id : JsonVal) : Outcome HubNode :=
  if JsonVal.truthy id = false then .ok s
  else
    match s.hub.reportFor id with
    | some (.verified r) =>
        match JsonVal.key? id with
        | some p =>
            if p ∈ s.written then .ok s
            else do
              disk.save id r.fileName
              return { s with written := s.written ++ [p] }
        | none => do
            -- an object is in the set only as itself, so it is a new one
            disk.save id r.fileName
            return s
    | _ => .ok s

/-- A frame, with the directory the hub has at that moment. -/
def HubNode.onFrame (s : HubNode) (d : Directory) (x : Arrival) : Outcome HubNode :=
  match s.hub.ingest H (cfg.under d) x with
  | (.ok id, hub) => HubNode.persist disk { s with hub } id
  | (.error e, _) => .error e

/-- A run of frames, each under the directory of its moment. A node that starts goes through its log
under the directory in its configuration. -/
def HubNode.serve (s : HubNode) : List (Directory × Arrival) → Outcome HubNode
  | [] => .ok s
  | (d, x) :: rest => do HubNode.serve (← s.onFrame H cfg disk d x) rest

end Relief

end DtnCustody
