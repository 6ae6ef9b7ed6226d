/-
# DtnCustody.Ground.Ledger — `ground/lib.mjs`: the signed ledger of a ground station, and what `buildLedger` puts
in it.

The station signs two records for each file that it received, a manifest and a custody receipt, and one
report for each pass that was scheduled; a pass that brought nothing carries a gap. The ledger is sealed
with the root of the tree over the record ids and their number, under the station's key. Every record is
some content with no credential fields of its own, signed by the station (`Made`); so it verifies, its
`claimId` is its content id, and its leaf is the digest in that id. The manifests among the records are those
of the files, and of nothing else (`Built`).

`verifyLedger` checks records that it did not make. The leaf of a record is `claimId.slice(2)`, of which
all that is known by then is that it prints as the content id: a `claimId` may be an array around it.
-/
import DtnCustody.Agent.Binding
import DtnCustody.Agent.Custody
import DtnCustody.Agent.Source
import DtnCustody.Base.JsMap
import Mathlib.Data.List.Sort

namespace DtnCustody

open Base Js

/-! ## A gap, `agent/lib/gap.mjs` -/

structure LinkEvent where
  link : JsString
  event : String
  t : JsNum

/-- A number, or `null` where there is none. -/
def numOrNull (x : Option JsNum) : Json := (x.map Json.num).getD .null

def gapNote : String := "occultation window; delivery resumed on link reopen (store-and-forward)."

/-- The properties of the gap; `delayed` and `lost` are empty unless given. -/
def gapObject (link : JsString) (linkEvents : List LinkEvent) (delayed lost : List JsString) :
    List (JsString × Json) :=
  let evs := (linkEvents.filter fun e => e.link = link).insertionSort
    fun a b => JsNum.inOrder a.t b.t
  let down := evs.find? fun e => e.event = "down"
  let up := evs.find? fun e => e.event = "up" && down.all fun d => JsNum.ge e.t d.t
  [(js "kind", .text "gap/1"), (js "link", .str link), (js "downAt", numOrNull (down.map (·.t))),
    (js "upAt", numOrNull (up.map (·.t))),
    (js "durationMs", numOrNull (down.bind fun d => up.map fun u => u.t.sub d.t)),
    (js "bundlesDelayed", .arr ((delayed.insertionSort (· ≤ ·)).map .str)),
    (js "bundlesLostConfirmed", .arr ((lost.insertionSort (· ≤ ·)).map .str)),
    (js "note", .text gapNote)]

namespace Ground

/-- The runtime of the station. -/
structure StationHost extends Host where
  /-- `Date.parse`. -/
  dateParse : JsString → JsNum
  /-- `a.localeCompare(b)`. -/
  localeCompare : JsString → JsString → Int
  /-- What the loop of `fingerprint` cuts with a step that is not a positive whole number. -/
  oddChunks : Json → Bytes → Outcome (List Bytes)

variable (H : StationHost)

/-! ## Products -/

structure Fingerprint where
  root : JsString
  chunkCount : Nat
  sha256 : JsString
  bytes : Nat
  chunkSize : Json

/-- A step that cuts off some bytes every time. -/
def wholeStep : Json → Option Nat
  | .num (.fin q) => if q.den = 1 ∧ 0 < q.num then some q.num.toNat else none
  | _ => none

/-- The pieces that the loop of `fingerprint` hashes. -/
def pieces (bytes : Bytes) (chunkSize : Json) : Outcome (List Bytes) :=
  match wholeStep chunkSize with
  | some n => .ok (Source.chunk bytes n)
  | none => do
      let cs ← H.oddChunks chunkSize bytes
      return if cs = [] then [[]] else cs

def defaultChunkSize : Json := .int 65536

def fingerprint (bytes : Bytes) (chunkSize : JsonVal) : Outcome Fingerprint := do
  let size := chunkSize.getD defaultChunkSize
  let cs ← pieces H bytes size
  let tree ← Merkle.buildTree H.toNode (cs.map (Merkle.leafHash H.toNode))
  return {
    root := tree.root
    chunkCount := cs.length
    sha256 := Hex.encode (H.sha256 bytes)
    bytes := bytes.length
    chunkSize := size }

/-! ## The input -/

/-- A time of the schedule: epoch milliseconds, or a date. -/
inductive Time where
  | num (t : JsNum)
  | date (s : JsString)

def ms : Time → JsNum
  | .num t => t
  | .date s => H.dateParse s

structure File where
  name : JsString
  bytes : Bytes
  receivedAt : JsNum

/-- A scheduled pass; `stop` is the property `end`. -/
structure Pass where
  passId : Json
  start : Time
  stop : Time

structure Input where
  station : JsString
  spacecraft : JsString
  files : List File
  passes : List Pass
  chunkSize : Json := defaultChunkSize

/-- `(a, b) => a.receivedAt - b.receivedAt || a.name.localeCompare(b.name)`, as in `inOrder`. -/
def fileInOrder (a b : File) : Bool :=
  let d := a.receivedAt.sub b.receivedAt
  if d = .fin 0 ∨ d = .nan then decide (H.localeCompare a.name b.name ≤ 0)
  else JsNum.inOrder a.receivedAt b.receivedAt

/-- A pass with its place in the schedule. -/
abbrev Slot := Pass × Nat

/-- Which scheduled pass a time falls in. -/
def passFor (passes : List Slot) (t : JsNum) : Option Slot :=
  passes.find? fun p => JsNum.ge t (ms H p.1.start) && JsNum.ge (ms H p.1.stop) t

/-- Whether `byPass` has one entry for two passes. An id that is an array or an object is found only
through itself. -/
def sameEntry (p q : Slot) : Bool :=
  match p.1.passId.key?, q.1.passId.key? with
  | some a, some b => decide (a = b)
  | none, none => decide (p.2 = q.2)
  | _, _ => false

/-! ## Records -/

/-- What the loop over the files makes of one. -/
structure Product where
  name : JsString
  receivedAt : JsNum
  payloadId : JsString
  pass : Option Slot
  records : List Json

def manifestMeta (i : Input) (f : File) (fp : Fingerprint) (pass : Option Slot) :
    List (JsString × Json) :=
  [(js "observedBy", .str i.station), (js "name", .str f.name), (js "bytes", .int fp.bytes),
    (js "sha256", .str fp.sha256), (js "chunkSize", fp.chunkSize),
    (js "passId", (pass.map fun p => p.1.passId).getD .null)]

def product (kp : AgentKey) (i : Input) (f : File) : Outcome Product := do
  let fp ← fingerprint H f.bytes (some i.chunkSize)
  let pass := passFor H i.passes.zipIdx f.receivedAt
  let payloadId ← (Json.obj [(js "station", .str i.station), (js "sha256", .str fp.sha256),
    (js "name", .str f.name)]).contentId H.toNode
  let manifest ← Receipt.signRecord H.toHost kp
    (Source.buildManifest (.str payloadId) fp.chunkCount fp.root (manifestMeta i f fp pass))
  let receipt ← Receipt.custodyReceipt H.toHost kp {
    payloadId := .str payloadId
    bundleId := (manifest.get "claimId").getD .null
    prevHop := .str i.spacecraft
    thisHop := .str i.station
    receivedAt := .num f.receivedAt
    forwardedAt := .num f.receivedAt }
  return {
    name := f.name
    receivedAt := f.receivedAt
    payloadId
    pass
    records := [manifest, receipt] }

def silentNote : String :=
  "scheduled pass produced no data at this station; gap runs until data next arrived."

/-- The gap of a pass that brought nothing. -/
def silentGap (i : Input) (products : List Product) (p : Pass) : List (JsString × Json) :=
  let link := i.spacecraft ++ js ">" ++ i.station
  let next := products.find? fun f => (ms H p.stop).lt f.receivedAt = some true
  let up := next.toList.map fun f => (⟨link, "up", f.receivedAt⟩ : LinkEvent)
  Receipt.setField (gapObject link (⟨link, "down", ms H p.start⟩ :: up) [] []) "note" (.text silentNote)

def report (i : Input) (products : List Product) (p : Slot) : List (JsString × Json) :=
  let got := products.filter fun f => f.pass.any fun q => sameEntry q p
  let silent := got.isEmpty
  [(js "kind", .text "station.pass/1"), (js "station", .str i.station),
    (js "spacecraft", .str i.spacecraft), (js "passId", p.1.passId),
    (js "scheduledStart", .num (ms H p.1.start)), (js "scheduledEnd", .num (ms H p.1.stop)),
    (js "products", .int got.length), (js "firstAt", numOrNull (got.head?.map (·.receivedAt))),
    (js "lastAt", numOrNull (got.getLast?.map (·.receivedAt))),
    (js "payloadIds", .arr (got.map fun g => .str g.payloadId)),
    (js "status", .text (if silent then "no-data" else "received"))]
    ++ if silent then [(js "gap", .obj (silentGap H i products p.1))] else []

def unscheduledReport (i : Input) (unscheduled : List Product) : List (JsString × Json) :=
  [(js "kind", .text "station.unscheduled/1"), (js "station", .str i.station),
    (js "spacecraft", .str i.spacecraft),
    (js "products", .arr (unscheduled.map fun u => .obj [(js "name", .str u.name),
      (js "receivedAt", .num u.receivedAt), (js "payloadId", .str u.payloadId)]))]

/-! ## The seal -/

/-- `v.slice(2)`; only strings and arrays have it. -/
def slice2 : JsonVal → Outcome Json
  | some (.str s) => .ok (.str (s.drop 2))
  | some (.arr xs) => .ok (.arr (xs.drop 2))
  | _ => .error .typeError

/-- `r.claimId.slice(2)`. -/
def leafOf (r : Json) : Outcome Json := do slice2 (← JsonVal.get (some r) "claimId")

/-- `buildTree(leaves).root`. A single leaf is the root as it is; of more leaves the tree reads the
bytes. -/
def rootOf (leaves : List Json) : Outcome Json :=
  match leaves with
  | [] => .error (.error "buildTree: need at least one leaf")
  | [x] => .ok x
  | _ => do
      let bytes ← leaves.mapM fun x => Merkle.un H.toHost x
      let tree ← Merkle.buildTree H.toNode (bytes.map Hex.encode)
      return .str tree.root

def sealRoot (records : List Json) : Outcome Json := do rootOf H (← records.mapM leafOf)

/-- `sealRecord` is the property `seal`. -/
structure Ledger where
  station : JsString
  spacecraft : JsString
  stationPub : JsString
  records : List Json
  sealRecord : Json

def sealContent (i : Input) (records : List Json) (root : Json) : List (JsString × Json) :=
  [(js "kind", .text "station.ledger/1"), (js "station", .str i.station),
    (js "spacecraft", .str i.spacecraft), (js "recordCount", .int records.length), (js "root", root)]

def buildLedger (kp : AgentKey) (i : Input) : Outcome Ledger := do
  let sorted := i.files.insertionSort fun a b => fileInOrder H a b
  let products ← sorted.mapM (product H kp i)
  let slots := i.passes.zipIdx.insertionSort fun a b =>
    JsNum.inOrder (ms H a.1.start) (ms H b.1.start)
  let reports ← slots.mapM fun p => Receipt.signRecord H.toHost kp (report H i products p)
  let unscheduled := products.filter fun f => f.pass.isNone
  let rest ← (if unscheduled = [] then [] else [unscheduled]).mapM fun us =>
    Receipt.signRecord H.toHost kp (unscheduledReport i us)
  let records := products.flatMap (·.records) ++ reports ++ rest
  let root ← sealRoot H records
  let sealRecord ← Receipt.signRecord H.toHost kp (sealContent i records root)
  return {
    station := i.station
    spacecraft := i.spacecraft
    stationPub := kp.pub
    records
    sealRecord }

/-! ## Verifying -/

structure Report where
  records : Nat
  products : Nat
  productsRehashed : Nat
  passes : Nat
  silentPasses : Nat
  sealRoot : JsonVal

/-- `{ ok: false, reason }`, with the property that says what it is about. -/
structure Failure where
  reason : String
  about : Option (String × JsonVal) := none

inductive Verdict where
  | ok (r : Report)
  | fail (f : Failure)

def Verdict.isOk : Verdict → Bool
  | .ok _ => true
  | .fail _ => false

/-- The first record that does not verify under the key, and why. -/
def checkRecords (stationPub : JsString) : List Json → Outcome (Option Failure)
  | [] => .ok none
  | r :: rest => do
      match ← Receipt.verifyRecord H.toHost (some r) with
      | .fail reason => return some ⟨reason, some ("claimId", ← JsonVal.get (some r) "claimId")⟩
      | .ok signer =>
          if JsonVal.strictEq (some signer) (some (.str stationPub)) then checkRecords stationPub rest
          else return some ⟨"signer_not_pinned_station_key",
            some ("claimId", ← JsonVal.get (some r) "claimId")⟩

/-- `files.get(name)`. -/
def fileNamed (files : JsMap JsString Bytes) : JsonVal → Option Bytes
  | some (.str name) => files.get? name
  | _ => none

/-- One product on disk against its manifest. -/
def recheck (files : JsMap JsString Bytes) (m : Json) : Outcome (Option Failure) := do
  let info := m.get "meta"
  let name ← info.get "name"
  match fileNamed files name with
  | none => return some ⟨"product_missing", some ("name", name)⟩
  | some b =>
      let fp ← fingerprint H b (← info.get "chunkSize")
      if JsonVal.strictEq (some (.str fp.root)) (m.get "root") &&
          JsonVal.strictEq (some (.str fp.sha256)) (← info.get "sha256") then return none
      else return some ⟨"product_altered", some ("name", name)⟩

/-- The first product that is not as its manifest says. -/
def recheckAll (files : JsMap JsString Bytes) : List Json → Outcome (Option Failure)
  | [] => .ok none
  | m :: rest => do
      match ← recheck H files m with
      | some f => return some f
      | none => recheckAll files rest

/-- The products are looked at when they are given. -/
def recheckGiven (files : Option (JsMap JsString Bytes)) (manifests : List Json) :
    Outcome (Option Failure) :=
  match files with
  | none => .ok none
  | some files => recheckAll H files manifests

def ofKind (kind : String) (records : List Json) : List Json :=
  records.filter fun r => JsonVal.isText (r.get "kind") kind

/-- What is said of a ledger that verifies. -/
def reportOf (L : Ledger) (files : Option (JsMap JsString Bytes)) : Report :=
  let manifests := ofKind "manifest/1" L.records
  let passes := ofKind "station.pass/1" L.records
  { records := L.records.length
    products := manifests.length
    productsRehashed := if files.isSome then manifests.length else 0
    passes := passes.length
    silentPasses := (passes.filter fun p => JsonVal.isText (p.get "status") "no-data").length
    sealRoot := L.sealRecord.get "root" }

def verifyLedger (L : Ledger) (stationPub : Option JsString) (files : Option (JsMap JsString Bytes)) :
    Outcome Verdict := do
  let pub := stationPub.getD []
  if pub = [] then return .fail ⟨"unpinned: verifier must supply the station public key", none⟩
  else
    match ← checkRecords H pub (L.records ++ [L.sealRecord]) with
    | some f => return .fail f
    | none =>
        let root ← sealRoot H L.records
        if JsonVal.strictEq (some root) (L.sealRecord.get "root") &&
            JsonVal.strictEq (L.sealRecord.get "recordCount") (some (.int L.records.length)) then
          match ← recheckGiven H files (ofKind "manifest/1" L.records) with
          | some f => return .fail f
          | none => return .ok (reportOf L files)
        else return .fail ⟨"seal_mismatch", none⟩

end Ground

end DtnCustody

namespace DtnCustody

open Base Js

namespace Ground

/-! ## Signed contents -/

/-- A content id, written out. -/
def idText (d : Bytes) : JsString := js "0x" ++ Hex.encode d

theorem contentId_eq {N : Node} {v : Json} {id : JsString} (h : v.contentId N = .ok id) :
    ∃ x, id = idText (N.sha256 x) := by
  obtain ⟨s, -, h⟩ := Outcome.bind_eq_ok.mp h
  cases h
  exact ⟨_, rfl⟩

/-- A digest as a leaf. -/
def hexLeaf (d : Bytes) : Json := .str (Hex.encode d)

variable (H : StationHost)

/-- A content without credential fields, signed. -/
def Made (kp : AgentKey) (r : Json) : Prop :=
  ∃ content, Receipt.Plain content ∧ Receipt.signRecord H.toHost kp content = .ok r

variable {H} {kp : AgentKey}

theorem plain_of_keys {content : List (JsString × Json)}
    (h : ∀ k ∈ content.map Prod.fst, ∀ name ∈ Json.credentialFields, k ≠ js name) :
    Receipt.Plain content := fun p hp => h p.1 (List.mem_map_of_mem hp)

theorem Made.verify (hkey : Receipt.Signs H.toHost kp) {r : Json} (h : Made H kp r) :
    Receipt.verifyRecord H.toHost (some r) = .ok (.ok (.str kp.pub)) := by
  obtain ⟨content, hplain, hsigned⟩ := h
  exact Receipt.verifyRecord_signRecord hkey hplain hsigned

/-- A record that was made names its content, and its leaf is the digest. -/
theorem Made.leaf {r : Json} (h : Made H kp r) :
    ∃ x, leafOf r = .ok (hexLeaf (H.sha256 x)) ∧ r.contentId H.toNode = .ok (idText (H.sha256 x)) := by
  obtain ⟨content, hplain, hsigned⟩ := h
  obtain ⟨claimId, hid, rfl⟩ := Receipt.signRecord_eq hplain hsigned
  obtain ⟨x, rfl⟩ := contentId_eq hid
  refine ⟨x, ?_, ?_⟩
  · have hfind : (Json.obj (content ++ [(js "claimId", Json.str (idText (H.sha256 x))),
        (js "sig", .str (Receipt.signClaim H.toHost kp.priv (idText (H.sha256 x)))),
        (js "signerPub", .str kp.pub)])).get "claimId" = some (.str (idText (H.sha256 x))) := by
      show Option.map Prod.snd (List.find? _ (content ++ _)) = _
      rw [List.find?_append, List.find?_eq_none.mpr fun p hp => by simpa using hplain p hp _ (by decide)]
      simp
    show (JsonVal.get (some _) "claimId" >>= slice2) = _
    show (Except.ok (Json.get _ "claimId") >>= slice2 : Outcome Json) = _
    rw [hfind]
    rfl
  · rw [← hid, Json.contentId, Json.contentId, Receipt.pickContent_append]
    intro p hp
    simp only [List.mem_cons, List.not_mem_nil, or_false] at hp
    rcases hp with rfl | rfl | rfl
    · exact ⟨"claimId", by decide, rfl⟩
    · exact ⟨"sig", by decide, rfl⟩
    · exact ⟨"signerPub", by decide, rfl⟩

theorem leaves_of_made {rs : List Json} (h : ∀ r ∈ rs, Made H kp r) :
    ∃ xs : List Bytes, rs.mapM leafOf = .ok ((xs.map H.sha256).map hexLeaf) ∧
      List.Forall₂ (fun r x => r.contentId H.toNode = .ok (idText (H.sha256 x))) rs xs := by
  induction rs with
  | nil => exact ⟨[], rfl, .nil⟩
  | cons r rs ih =>
      obtain ⟨hr, hrs⟩ := List.forall_mem_cons.mp h
      obtain ⟨x, hleaf, hid⟩ := hr.leaf
      obtain ⟨xs, hleaves, hids⟩ := ih hrs
      refine ⟨x :: xs, ?_, .cons hid hids⟩
      rw [List.mapM_cons, hleaf, hleaves]
      rfl

/-! ## The ledger -/

variable (H kp)

/-- The manifest of a file that was fingerprinted. -/
structure ManifestOf (i : Input) (f : File) (m : Json) : Prop where
  made : Made H kp m
  kind : m.get "kind" = some (.text "manifest/1")
  content : ∃ fp pass, fingerprint H f.bytes (some i.chunkSize) = .ok fp ∧
    m.get "root" = some (.str fp.root) ∧ m.get "meta" = some (.obj (manifestMeta i f fp pass))

/-- The records are made by the station, the manifests among them are those of the files, and the seal is
over all of them. -/
structure Built (i : Input) (L : Ledger) : Prop where
  made : ∀ r ∈ L.records, Made H kp r
  manifest : ∀ r ∈ L.records, r.get "kind" = some (.text "manifest/1") →
    ∃ f ∈ i.files, ManifestOf H kp i f r
  covered : ∀ f ∈ i.files, ∃ m ∈ L.records, ManifestOf H kp i f m
  sealed : ∃ root, sealRoot H L.records = .ok root ∧
    Receipt.signRecord H.toHost kp (sealContent i L.records root) = .ok L.sealRecord

variable {H kp}

/-- The records of one file: its manifest, and a receipt, which is none. -/
theorem product_records {i : Input} {f : File} {p : Product} (h : product H kp i f = .ok p) :
    ∃ m receipt, p.records = [m, receipt] ∧ ManifestOf H kp i f m ∧ Made H kp receipt ∧
      receipt.get "kind" = some (.text "custody/1") := by
  obtain ⟨fp, hfp, h⟩ := Outcome.bind_eq_ok.mp h
  obtain ⟨payloadId, hid, h⟩ := Outcome.bind_eq_ok.mp h
  obtain ⟨m, hm, h⟩ := Outcome.bind_eq_ok.mp h
  obtain ⟨receipt, hreceipt, h⟩ := Outcome.bind_eq_ok.mp h
  cases h
  have hget := fun name => @Receipt.get_signRecord H.toHost kp _ m hm name
  refine ⟨m, receipt, rfl, ⟨⟨_, plain_of_keys ?_, hm⟩, ?_, fp,
    passFor H i.passes.zipIdx f.receivedAt, hfp, ?_, ?_⟩,
    ⟨_, plain_of_keys ?_, hreceipt⟩, ?_⟩
  · show ∀ k ∈ [js "kind", js "payloadId", js "chunkCount", js "root", js "meta"], _
    decide
  · rw [hget "kind" (by decide) (by decide) (by decide)]
    rfl
  · rw [hget "root" (by decide) (by decide) (by decide)]
    rfl
  · rw [hget "meta" (by decide) (by decide) (by decide)]
    rfl
  · show ∀ k ∈ [js "kind", js "payloadId", js "bundleId", js "prevHop", js "thisHop", js "receivedAt",
      js "forwardedAt"], _
    decide
  · rw [Receipt.get_signRecord H.toHost hreceipt (by decide) (by decide) (by decide)]
    rfl

/-- A report of a pass is no manifest. -/
theorem plain_report (i : Input) (products : List Product) (p : Slot) :
    Receipt.Plain (report H i products p) ∧
      (Json.obj (report H i products p)).get "kind" = some (.text "station.pass/1") := by
  refine ⟨plain_of_keys ?_, rfl⟩
  rw [report]
  cases (products.filter fun f => f.pass.any fun q => sameEntry q p).isEmpty with
  | true =>
      show ∀ k ∈ [js "kind", js "station", js "spacecraft", js "passId", js "scheduledStart",
        js "scheduledEnd", js "products", js "firstAt", js "lastAt", js "payloadIds", js "status",
        js "gap"], _
      decide
  | false =>
      show ∀ k ∈ [js "kind", js "station", js "spacecraft", js "passId", js "scheduledStart",
        js "scheduledEnd", js "products", js "firstAt", js "lastAt", js "payloadIds", js "status"], _
      decide

theorem plain_unscheduled (i : Input) (us : List Product) : Receipt.Plain (unscheduledReport i us) := by
  refine plain_of_keys ?_
  show ∀ k ∈ [js "kind", js "station", js "spacecraft", js "products"], _
  decide

theorem plain_seal (i : Input) (records : List Json) (root : Json) :
    Receipt.Plain (sealContent i records root) := by
  refine plain_of_keys ?_
  show ∀ k ∈ [js "kind", js "station", js "spacecraft", js "recordCount", js "root"], _
  decide

/-- The records in their three parts: those of the files, the reports of the passes, and the report of
what came outside the schedule. -/
structure Parts (H : StationHost) (kp : AgentKey) (i : Input) (L : Ledger) (products : List Product)
    (reports rest : List Json) : Prop where
  made : (i.files.insertionSort fun a b => fileInOrder H a b).mapM (product H kp i) = .ok products
  signed : (i.passes.zipIdx.insertionSort fun a b =>
    JsNum.inOrder (ms H a.1.start) (ms H b.1.start)).mapM
      (fun p => Receipt.signRecord H.toHost kp (report H i products p)) = .ok reports
  last : (if (products.filter fun f => f.pass.isNone) = [] then [] else
    [products.filter fun f => f.pass.isNone]).mapM
      (fun us => Receipt.signRecord H.toHost kp (unscheduledReport i us)) = .ok rest
  records : L.records = products.flatMap (·.records) ++ reports ++ rest
  sealed : ∃ root, sealRoot H L.records = .ok root ∧
    Receipt.signRecord H.toHost kp (sealContent i L.records root) = .ok L.sealRecord

theorem parts_of_buildLedger {i : Input} {L : Ledger} (h : buildLedger H kp i = .ok L) :
    ∃ products reports rest, Parts H kp i L products reports rest := by
  obtain ⟨products, hproducts, h⟩ := Outcome.bind_eq_ok.mp h
  obtain ⟨reports, hreports, h⟩ := Outcome.bind_eq_ok.mp h
  obtain ⟨rest, hrest, h⟩ := Outcome.bind_eq_ok.mp h
  obtain ⟨root, hroot, h⟩ := Outcome.bind_eq_ok.mp h
  obtain ⟨sealRecord, hseal, h⟩ := Outcome.bind_eq_ok.mp h
  cases h
  exact ⟨products, reports, rest, hproducts, hreports, hrest, rfl, root, hroot, hseal⟩

section

variable {i : Input} {L : Ledger} {products : List Product} {reports rest : List Json}

theorem kind_ne {a b : String} (h : a ≠ b) : some (Json.text a) ≠ some (.text b) := fun heq =>
  h (js_inj.mp (Json.str.inj (Option.some.inj heq)))

theorem Parts.report (h : Parts H kp i L products reports rest) {r : Json} (hr : r ∈ reports) :
    Made H kp r ∧ r.get "kind" = some (.text "station.pass/1") := by
  obtain ⟨p, -, hsigned⟩ := Outcome.mem_of_mapM h.signed hr
  obtain ⟨hplain, hget⟩ := plain_report (H := H) i products p
  refine ⟨⟨_, hplain, hsigned⟩, ?_⟩
  rw [Receipt.get_signRecord H.toHost hsigned (by decide) (by decide) (by decide), hget]

theorem Parts.unscheduled (h : Parts H kp i L products reports rest) {r : Json} (hr : r ∈ rest) :
    Made H kp r ∧ r.get "kind" = some (.text "station.unscheduled/1") := by
  obtain ⟨us, -, hsigned⟩ := Outcome.mem_of_mapM h.last hr
  refine ⟨⟨_, plain_unscheduled i us, hsigned⟩, ?_⟩
  rw [Receipt.get_signRecord H.toHost hsigned (by decide) (by decide) (by decide)]
  rfl

theorem Parts.file (h : Parts H kp i L products reports rest) {r : Json}
    (hr : r ∈ products.flatMap (·.records)) : ∃ f ∈ i.files, ManifestOf H kp i f r ∨
      (Made H kp r ∧ r.get "kind" = some (.text "custody/1")) := by
  obtain ⟨p, hp, hr⟩ := List.mem_flatMap.mp hr
  obtain ⟨f, hf, hproduct⟩ := Outcome.mem_of_mapM h.made hp
  obtain ⟨m, receipt, hrecords, hm, hreceipt, hcustody⟩ := product_records hproduct
  refine ⟨f, (List.mem_insertionSort _).mp hf, ?_⟩
  rw [hrecords, List.mem_cons, List.mem_singleton] at hr
  rcases hr with rfl | rfl
  · exact .inl hm
  · exact .inr ⟨hreceipt, hcustody⟩

/-- The part that a record is in, by its kind. -/
theorem Parts.mem_records (h : Parts H kp i L products reports rest) {r : Json} :
    r ∈ L.records ↔ r ∈ products.flatMap (·.records) ∨ r ∈ reports ∨ r ∈ rest := by
  rw [h.records, List.mem_append, List.mem_append, or_assoc]

/-- **What `buildLedger` makes.** -/
theorem built_of_buildLedger (hbuild : buildLedger H kp i = .ok L) : Built H kp i L := by
  obtain ⟨products, reports, rest, h⟩ := parts_of_buildLedger hbuild
  refine ⟨?_, ?_, ?_, h.sealed⟩
  · intro r hr
    rcases h.mem_records.mp hr with hr | hr | hr
    · obtain ⟨f, -, hm | ⟨hmade, -⟩⟩ := h.file hr
      · exact hm.made
      · exact hmade
    · exact (h.report hr).1
    · exact (h.unscheduled hr).1
  · intro r hr hmanifest
    rcases h.mem_records.mp hr with hr | hr | hr
    · obtain ⟨f, hf, hm | ⟨-, hcustody⟩⟩ := h.file hr
      · exact ⟨f, hf, hm⟩
      · exact absurd (hcustody.symm.trans hmanifest) (kind_ne (by decide))
    · exact absurd ((h.report hr).2.symm.trans hmanifest) (kind_ne (by decide))
    · exact absurd ((h.unscheduled hr).2.symm.trans hmanifest) (kind_ne (by decide))
  · intro f hf
    obtain ⟨p, hp, hproduct⟩ := Outcome.exists_of_mapM h.made ((List.mem_insertionSort _).mpr hf)
    obtain ⟨m, receipt, hrecords, hm, -, -⟩ := product_records hproduct
    refine ⟨m, h.mem_records.mpr (.inl (List.mem_flatMap.mpr ⟨p, hp, ?_⟩)), hm⟩
    rw [hrecords]
    exact List.mem_cons_self

end

end Ground

end DtnCustody
