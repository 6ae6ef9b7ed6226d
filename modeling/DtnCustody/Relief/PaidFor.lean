/-
# DtnCustody.Relief.PaidFor — what the hub pays for, in chunks.

The hub lists the `bundleId` a frame carries. It has checked the leaf of the chunk and its branch, and the
receipts name that `bundleId`, but nothing has compared it with the content it should be the identifier
of, and an index past the last chunk passes wherever its low bits do. So a relay can have any text listed,
and one chunk listed under as many texts as there are indices it passes at.

Where every chunk that passes is filed under its own identifier and number (`Filed`), what is listed are
chunks, each once (`pays_for_chunks`).
-/
import DtnCustody.Relief.Earned
import DtnCustody.Agent.Delivery
import DtnCustody.Base.Gather
import DtnCustody.Json.Parse

namespace DtnCustody

open Base Js

namespace Relief

variable (H : ReliefHost) (cfg : HubConfig) (xs : List Arrival)

/-! ## Chunks -/

/-- What a bundle identifier is made of. -/
structure ChunkRef where
  payloadId : JsonVal
  index : Nat
  leafHex : JsString

namespace ChunkRef

/-- `{ payloadId, index, leafHex }`; a property that is `undefined` is not written. -/
def body (c : ChunkRef) : List (JsString × Json) :=
  c.payloadId.toList.map (fun id => (js "payloadId", id)) ++
    [(js "index", .int c.index), (js "leafHex", .str c.leafHex)]

def bundleId (c : ChunkRef) : Outcome JsString := (Json.obj c.body).contentId H.toNode

end ChunkRef

/-- **The condition on a chunk that passes**: its bundle is filed under the identifier of its content, for
the report of the manifest, at the number of a chunk. -/
def Filed (m : Json) (bundle : JsonVal) : Prop :=
  ∃ c : ChunkRef, c.payloadId = m.get "payloadId" ∧
    JsonVal.get? bundle "index" = some (.int c.index) ∧
    JsonVal.get? bundle "leafHex" = some (.str c.leafHex) ∧
    JsonVal.lt H.toNode (some (.int c.index)) (m.get "chunkCount") = .ok true ∧
    ∃ id, c.bundleId H = .ok id ∧ JsonVal.get? bundle "bundleId" = some (.str id)

/-- A chunk of a manifest that is signed by the clinic it names. -/
structure RealChunk (m : Json) (t : Int) (c : ChunkRef) : Prop where
  signed : ∃ pin signer, keyAt H.toNode cfg.directory.clinics cfg.directory.revoked
      (JsonVal.get? (m.get "meta") "clinic") t = .ok pin ∧
    Receipt.verifyRecord H.toHost (some m) = .ok (.ok signer) ∧ pin.isKey signer = true
  payload : c.payloadId = m.get "payloadId"
  inRange : JsonVal.lt H.toNode (some (.int c.index)) (m.get "chunkCount") = .ok true
  leaf : ∃ branch,
    Merkle.verifyProof H.toHost c.leafHex branch (some (.int c.index)) (m.get "root") = .ok true
  /-- Of the chunks that the root stands for it is the one with its number. -/
  atIndex : MerkleTree.CollisionFree H.sha256 → ∀ chunks, Dest.Commits H.toHost m chunks →
    (chunks[c.index]?).map (Merkle.leafHash H.toNode) = some c.leafHex

/-- A receipt of the run for the bundle `id`, signed by the key of the relay `name`. -/
def SignedFor (name : JsString) (id : Prim) : Prop :=
  ∃ p c rs rec signer, ChunkIn H xs p c ∧ c.custody = some (.arr rs) ∧ rec ∈ rs ∧
    JsonVal.key? (rec.get "bundleId") = some id ∧ JsonVal.toStr H.toNode (rec.get "thisHop") = .ok name ∧
    Receipt.verifyRecord H.toHost (some rec) = .ok (.ok signer) ∧
    (keysAt cfg.directory.relays cfg.directory.revoked c.arrivedAt name).isKey signer = true

/-! ## What a credit was given for -/

variable {H cfg xs}

/-- A manifest that the hub opened is signed by its clinic. -/
theorem openDest_signed {m : Json} {t : Int} {d : Dest} (h : openDest H cfg m t = .ok (.inr d)) :
    ∃ pin signer, keyAt H.toNode cfg.directory.clinics cfg.directory.revoked
        (JsonVal.get? (m.get "meta") "clinic") t = .ok pin ∧
      Receipt.verifyRecord H.toHost (some m) = .ok (.ok signer) ∧ pin.isKey signer = true := by
  obtain ⟨pin, hpin, h⟩ := Outcome.bind_eq_ok.mp h
  split at h
  · cases h
  · split at h
    · cases h
    · split at h
      · next d' hd' =>
        unfold Dest.makeDest at hd'
        split at hd'
        · cases hd'
        · obtain ⟨verdict, hverdict, hd'⟩ := Outcome.bind_eq_ok.mp hd'
          cases verdict with
          | fail reason => cases hd'
          | ok signer =>
              dsimp only at hd'
              split at hd'
              · next hkey => exact ⟨pin, signer, hpin, hverdict, hkey⟩
              · cases hd'
      · cases h
      · cases h

theorem revokedHop_arr {clinic : JsonVal} {c : Stored} (h : judgeCustody H cfg clinic c = .ok none) :
    ∃ rs, c.custody = some (.arr rs) ∧ ∀ rec ∈ rs, Receipt.checkReceipt H.toHost
      { bundleId := JsonVal.get? c.bundle "bundleId",
        keys := keysAt cfg.directory.relays cfg.directory.revoked c.arrivedAt,
        origin := clinic.getD .null } rec = .ok none := by
  unfold judgeCustody at h
  split at h
  · next rs hrs =>
    refine ⟨rs, hrs, ?_⟩
    obtain ⟨hop, -, h⟩ := Outcome.bind_eq_ok.mp h
    cases hop with
    | some hit => cases h
    | none =>
        obtain ⟨a, ha, h⟩ := Outcome.bind_eq_ok.mp h
        cases a with
        | fail reason hop => cases h
        | ok n gaps =>
            rw [hrs] at ha
            unfold Receipt.auditCustodyChain at ha
            split at ha
            · cases ha
            · next rs' _ hrs' =>
              cases hrs'
              exact Receipt.auditFrom_ok H.toHost ha
            · cases ha
  · cases h

/-- **The relay signed for what it is credited with.** -/
theorem Credit.signedFor {p : Prim} {m : Json} {t : Int} {c : Stored} {rec : Json}
    (h : Credit H cfg xs p m t c rec) {id : Prim}
    (hid : JsonVal.key? (JsonVal.get? c.bundle "bundleId") = some id) {name : JsString}
    (hname : JsonVal.toStr H.toNode (rec.get "thisHop") = .ok name) : SignedFor H cfg xs name id := by
  obtain ⟨rs, hrs, hall⟩ := revokedHop_arr h.audited
  obtain ⟨rs', hrs', hrec⟩ := h.signed
  rw [hrs] at hrs'
  cases hrs'
  obtain ⟨signer, name', hverify, hbundle, hname', hkey⟩ :=
    Receipt.checkReceipt_ok H.toHost (hall rec hrec)
  rw [hname] at hname'
  cases hname'
  exact ⟨p, c, rs, rec, signer, h.chunk, hrs, hrec, JsonVal.eq_of_strictEq hbundle ▸ hid, hname, hverify, hkey⟩

theorem lt_int (N : Node) (i n : Int) :
    JsonVal.lt N (some (.int i)) (some (.int n)) = .ok (decide (i < n)) := by
  show Except.ok (decide ((i : ℚ) < n)) = _
  simp only [Int.cast_lt]

theorem get_eq_get? {v w : JsonVal} {name : String} (h : JsonVal.get v name = .ok w) :
    w = JsonVal.get? v name := by
  unfold JsonVal.get at h
  split at h
  · cases h
  · cases h
  · cases h
    rfl

/-- The leaf that a bundle names is that of its bytes, if it passes. -/
theorem checkChunk_leafHex {root bundle : JsonVal} {bytes : Bytes}
    (h : Dest.checkChunk H.toHost root bundle = .ok (.inr bytes)) :
    JsonVal.get? bundle "leafHex" = some (.str (Merkle.leafHash H.toNode bytes)) := by
  obtain ⟨b64, -, h⟩ := Outcome.bind_eq_ok.mp h
  obtain ⟨got, -, h⟩ := Outcome.bind_eq_ok.mp h
  obtain ⟨leafHex, hget, h⟩ := Outcome.bind_eq_ok.mp h
  dsimp only at h
  split at h
  · cases h
  · next heq =>
    obtain ⟨_, -, h⟩ := Outcome.bind_eq_ok.mp h
    obtain ⟨_, -, h⟩ := Outcome.bind_eq_ok.mp h
    obtain ⟨valid, -, h⟩ := Outcome.bind_eq_ok.mp h
    split at h
    · cases h
      rw [Bool.not_eq_false] at heq
      rw [← get_eq_get? hget, JsonVal.eq_of_strictEq heq]
    · cases h

/-- **A filed chunk that passed is a chunk of the report.** -/
theorem Credit.realChunk {p : Prim} {m : Json} {t : Int} {c : Stored} {rec : Json}
    (h : Credit H cfg xs p m t c rec) (hfiled : Filed H m c.bundle) {id : Prim}
    (hid : JsonVal.key? (JsonVal.get? c.bundle "bundleId") = some id) :
    ∃ ref s, RealChunk H cfg m t ref ∧ ref.bundleId H = .ok s ∧ id = .str s := by
  obtain ⟨ref, hpayload, hindex, hleaf, hrange, s, hs, hbundle⟩ := hfiled
  rw [hbundle] at hid
  cases hid
  obtain ⟨d, hd⟩ := h.opened
  obtain ⟨bytes, hbytes⟩ := h.leaf
  obtain ⟨branch, -, hproof⟩ := Dest.checkChunk_ok H.toHost hbytes
  have hsame : ref.leafHex = Merkle.leafHash H.toNode bytes := by
    rw [checkChunk_leafHex hbytes, Option.some.injEq, Json.str.injEq] at hleaf
    exact hleaf.symm
  rw [hindex] at hproof
  refine ⟨ref, s, ⟨openDest_signed hd, hpayload, hrange, ⟨branch, ?_⟩, ?_⟩, hs, rfl⟩
  · rw [hsame]
    exact hproof
  · intro hH chunks hcommits
    rw [hcommits.count, lt_int, Except.ok.injEq, decide_eq_true_eq, Nat.cast_lt] at hrange
    rw [Dest.checkChunk_binds hH hcommits hbytes hrange hindex, hsame]
    rfl

/-! ## Lists -/

theorem exists_forall₂ {α β : Type} {R : α → β → Prop} {bs : List β} (h : ∀ b ∈ bs, ∃ a, R a b) :
    ∃ as, List.Forall₂ R as bs := by
  induction bs with
  | nil => exact ⟨[], .nil⟩
  | cons b rest ih =>
      rw [List.forall_mem_cons] at h
      obtain ⟨a, ha⟩ := h.1
      obtain ⟨as, has⟩ := ih h.2
      exact ⟨a :: as, .cons ha has⟩

/-- What a function takes to distinct things is distinct. -/
theorem nodup_of_forall₂ {α β : Type} {R : α → β → Prop} {as : List α} {bs : List β}
    (h : List.Forall₂ R as bs) (hfun : ∀ a b b', R a b → R a b' → b = b') (hbs : bs.Nodup) :
    as.Nodup := by
  induction h with
  | nil => exact List.nodup_nil
  | cons hab hrest ih =>
      rw [List.nodup_cons] at hbs ⊢
      refine ⟨fun ha => ?_, ih hbs.2⟩
      obtain ⟨b, hb, hr⟩ := Gather.mem_of_forall₂ hrest _ ha
      rw [hfun _ _ _ hab hr] at hbs
      exact hbs.1 hb

/-- **Where every chunk that passes is filed, what is listed for a relay are chunks of manifests that
clinics signed, each listed once, and signed for by the relay.** -/
theorem pays_for_chunks (H : ReliefHost) (cfg : HubConfig) (xs : List Arrival)
    (hfiled : ∀ p m t c rec, Credit H cfg xs p m t c rec → Filed H m c.bundle)
    {listed : JsMap JsString (List Prim)}
    (hlisted : (({} : Hub).ingestAll H cfg xs).paidIds H = .ok listed) {name : JsString}
    {ids : List Prim} (hids : listed.get? name = some ids) :
    ∃ chunks : List ChunkRef, chunks.Nodup ∧
      List.Forall₂ (fun c id => (∃ s, c.bundleId H = .ok s ∧ id = .str s) ∧
        (∃ p m t, ManifestIn H xs p m t ∧ RealChunk H cfg m t c) ∧ SignedFor H cfg xs name id)
        chunks ids := by
  obtain ⟨hnodup, relay, hname, hall⟩ := earned hlisted hids
  have hchunk : ∀ id ∈ ids, ∃ c : ChunkRef, (∃ s, c.bundleId H = .ok s ∧ id = .str s) ∧
      (∃ p m t, ManifestIn H xs p m t ∧ RealChunk H cfg m t c) ∧ SignedFor H cfg xs name id := by
    intro id hid
    obtain ⟨p, m, t, c, rec, hcredit, hrelay, hbundle⟩ := hall id hid
    obtain ⟨ref, s, hreal, hs, rfl⟩ := hcredit.realChunk (hfiled p m t c rec hcredit) hbundle
    rw [← hrelay] at hname
    exact ⟨ref, ⟨s, hs, rfl⟩, ⟨p, m, t, hcredit.manifest, hreal⟩, hcredit.signedFor hbundle hname⟩
  obtain ⟨chunks, hchunks⟩ := exists_forall₂ hchunk
  refine ⟨chunks, nodup_of_forall₂ hchunks ?_ hnodup, hchunks⟩
  rintro c id id' ⟨⟨s, hs, rfl⟩, -⟩ ⟨⟨s', hs', rfl⟩, -⟩
  rw [hs] at hs'
  cases hs'
  rfl

/-! ## Two runs -/

/-- A hash of one byte. -/
def checksum (b : Bytes) : Bytes := [b.foldl (fun h x => 31 * h + x) 7]

/-- A runtime that reads JSON, hashes to one byte, and seals nothing. -/
def sampleRelief : ReliefHost where
  toHost := { Path.sampleHost with
    sha256 := checksum
    ed25519Verify := fun der m sig => sig == der.drop 12 ++ checksum m
    ed25519Sign := fun priv m => priv ++ checksum m }
  parseJson := Json.parse sampleNode
  importPublic := some
  diffieHellman _ _ := []
  hkdf b := b
  gcmSeal _ _ _ plaintext := (plaintext, List.replicate 16 0)
  gcmOpen _ _ _ ct _ := some ct

/-- One clinic and one relay. -/
def sampleConfig : HubConfig where
  eid := js "h"
  encPriv := []
  directory := { clinics := [(js "c", .str Path.sampleKey.pub)],
                 relays := [(js "r", .str Path.sampleKey.pub)] }

/-- A report of two chunks. -/
def sampleOut : Source.Prepared :=
  match Source.prepare sampleRelief.toHost Path.sampleKey [1, 2]
      { payloadId := some (.text "p"), chunkSize := 1, chunkSize_pos := Nat.one_pos,
        metaFields := [(js "clinic", .text "c"), (js "createdAt", .int 0)] } with
  | .ok out => out
  | .error _ => ⟨.null, []⟩

/-- A frame that arrives. -/
def arriving (kind : String) (fields : List (JsString × Json)) : Arrival where
  buf := toUtf8 ((Json.obj ([(js "v", .int 1), (js "kind", .text kind)] ++ fields)).stringify sampleNode)
  arrivedAt := 1
  now := 1

def manifestArrival : Arrival := arriving "manifest" [(js "manifest", sampleOut.manifest)]

/-- The relay's receipt for a bundle. -/
def receiptFor (bundleId : JsonVal) : Json :=
  match Receipt.signRecord sampleRelief.toHost Path.sampleKey
      (bundleId.toList.map (fun id => (js "bundleId", id)) ++ [(js "kind", .text "custody/1"),
        (js "payloadId", .text "p"), (js "prevHop", .text "c"), (js "thisHop", .text "r"),
        (js "receivedAt", .int 1), (js "forwardedAt", .int 1)]) with
  | .ok v => v
  | .error _ => .null

def chunkArrival (bundle : Json) : Arrival :=
  arriving "chunk" [(js "bundle", bundle),
    (js "custody", .arr [receiptFor (bundle.get "bundleId")])]

/-- The bundle of the first chunk, and the same under another name and number. -/
def firstBundle : Json := (sampleOut.bundles[0]?).getD .null

def renamed (bundleId : String) (index : Int) : Json :=
  match firstBundle with
  | .obj fields =>
      .obj (Receipt.setField (Receipt.setField fields "bundleId" (.text bundleId)) "index" (.int index))
  | v => v

def firstRef : ChunkRef where
  payloadId := some (.text "p")
  index := 0
  leafHex := Merkle.leafHash sampleRelief.toNode [1]

/-- The manifest and the first chunk. -/
def honestRun : List Arrival := [manifestArrival, chunkArrival firstBundle]

theorem honestRun_filed : ∀ p m t c rec,
    Credit sampleRelief sampleConfig honestRun p m t c rec → Filed sampleRelief m c.bundle := by
  intro p m t c rec h
  have hkinds : (dec sampleRelief manifestArrival.buf).all (fun f =>
        !JsonVal.isText (f.get "kind") "chunk") = true ∧
      (dec sampleRelief (chunkArrival firstBundle).buf).all (fun f =>
        !JsonVal.isText (f.get "kind") "manifest") = true := by decide +kernel
  have hmanifest : (dec sampleRelief manifestArrival.buf).all (fun f => (f.get "manifest").all fun m =>
      JsonVal.strictEq (some (.text "p")) (m.get "payloadId") &&
        decide (JsonVal.lt sampleRelief.toNode (some (.int 0)) (m.get "chunkCount") = .ok true)) = true := by
    decide +kernel
  have hchunk : (dec sampleRelief (chunkArrival firstBundle).buf).all (fun f =>
      JsonVal.strictEq (JsonVal.get? (f.get "bundle") "index") (some (.int 0)) &&
        JsonVal.strictEq (JsonVal.get? (f.get "bundle") "leafHex") (some (.str firstRef.leafHex)) &&
        (firstRef.bundleId sampleRelief).toOption.any fun id =>
          JsonVal.strictEq (JsonVal.get? (f.get "bundle") "bundleId") (some (.str id))) = true := by
    decide +kernel
  obtain ⟨x, hx, f, hf, hkind, -, hm, -⟩ := h.manifest
  obtain ⟨y, hy, g, hg, hkind', -, hc⟩ := h.chunk
  have hbundle : c.bundle = g.get "bundle" := congrArg Stored.bundle hc
  simp only [honestRun, List.mem_cons, List.not_mem_nil, or_false] at hx hy
  rcases hx with rfl | rfl
  · rcases hy with rfl | rfl
    · rw [hg, Option.all_some, hkind'] at hkinds
      exact absurd hkinds.1 (by decide)
    · rw [hf, Option.all_some, hm, Option.all_some, Bool.and_eq_true, decide_eq_true_eq] at hmanifest
      rw [hg, Option.all_some, Bool.and_eq_true, Bool.and_eq_true] at hchunk
      obtain ⟨⟨hindex, hleaf⟩, hid⟩ := hchunk
      rw [hbundle]
      refine ⟨firstRef, JsonVal.eq_of_strictEq hmanifest.1, JsonVal.eq_of_strictEq hindex, JsonVal.eq_of_strictEq hleaf,
        hmanifest.2, ?_⟩
      cases hname : firstRef.bundleId sampleRelief with
      | error e =>
          rw [hname] at hid
          cases hid
      | ok id =>
          rw [hname] at hid
          exact ⟨id, rfl, JsonVal.eq_of_strictEq hid⟩
  · rw [hf, Option.all_some, hkind] at hkinds
    exact absurd hkinds.2 (by decide)

/-- The honest run pays for one chunk. -/
theorem honestRun_pays : ∃ listed ids,
    (({} : Hub).ingestAll sampleRelief sampleConfig honestRun).paidIds sampleRelief = .ok listed ∧
      listed.get? (js "r") = some ids ∧ ids.length = 1 ∧
      ∃ chunks : List ChunkRef, chunks.Nodup ∧
        List.Forall₂ (fun c id => (∃ s, c.bundleId sampleRelief = .ok s ∧ id = .str s) ∧
          (∃ p m t, ManifestIn sampleRelief honestRun p m t ∧
            RealChunk sampleRelief sampleConfig m t c) ∧
          SignedFor sampleRelief sampleConfig honestRun (js "r") id) chunks ids := by
  have hlength : ((({} : Hub).ingestAll sampleRelief sampleConfig honestRun).paidIds sampleRelief).map
      (fun listed => (listed.get? (js "r")).map List.length) = .ok (some 1) := by decide +kernel
  cases hlisted : (({} : Hub).ingestAll sampleRelief sampleConfig honestRun).paidIds sampleRelief with
  | error e =>
      rw [hlisted] at hlength
      cases hlength
  | ok listed =>
      rw [hlisted] at hlength
      obtain ⟨ids, hids, hone⟩ := Option.map_eq_some_iff.mp (Except.ok.inj hlength)
      exact ⟨listed, ids, rfl, hids, hone,
        pays_for_chunks sampleRelief sampleConfig honestRun honestRun_filed hlisted hids⟩

/-- **Any text is paid, and one chunk twice**: the first chunk as "x", and as "y" at an index past the
end. -/
theorem one_chunk_two_names :
    ((({} : Hub).ingestAll sampleRelief sampleConfig [manifestArrival, chunkArrival (renamed "x" 0),
        chunkArrival (renamed "y" 2)]).paidIds sampleRelief).map (·.get? (js "r"))
      = .ok (some [.str (js "x"), .str (js "y")]) ∧
      ∀ (c : ChunkRef) (s : JsString), c.bundleId sampleRelief = .ok s → s ≠ js "x" ∧ s ≠ js "y" := by
  refine ⟨by decide +kernel, fun c s hs => ?_⟩
  obtain ⟨text, -, hs⟩ := Outcome.bind_eq_ok.mp hs
  cases hs
  have hzero : js "0x" = 48 :: js "x" := by decide
  rw [hzero, List.cons_append]
  constructor
  · intro h
    exact absurd (List.cons.inj h).1 (by decide)
  · intro h
    exact absurd (List.cons.inj h).1 (by decide)

end Relief

end DtnCustody
