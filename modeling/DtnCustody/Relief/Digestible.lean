/-
# DtnCustody.Relief.Digestible — which frames `ingest` can take.

Nothing in `ingest` catches what its checks throw, so every property it reads of a frame must be there to
be read: of the bundle and the receipts of a chunk, of the manifest that a clinic signed, and of the file
that a report opens to. `Digestible` says what each of them must be like. A frame can only be asked for
what the hub comes to read of it, so most of it is asked of a manifest and a chunk of one report, where a
directory has the key that signed the manifest.
-/
import DtnCustody.Agent.Chain
import DtnCustody.Agent.Delivery
import DtnCustody.Relief.Hub
import DtnCustody.Relief.PaidFor

namespace DtnCustody

open Base Js

/-! ## Bundles -/

namespace Merkle

variable {H : Host}

theorem returns_climb {xs : List Json} : ∀ {idx : JsNum} {acc : JsString},
    Outcome.Returns (climb H idx acc xs) ↔ ∀ x ∈ xs, Outcome.Returns (un H x) := by
  induction xs with
  | nil => exact fun {_ _} => ⟨fun _ x hx => absurd hx List.not_mem_nil, fun _ => Outcome.returns_ok _⟩
  | cons x xs ih =>
      intro idx acc
      have hstep : Outcome.Returns (climbStep H idx acc x) ↔ Outcome.Returns (un H x) := by
        unfold climbStep
        split
        · exact Outcome.returns_map
        · exact Outcome.returns_map
      rw [climb, Outcome.returns_bind, hstep, List.forall_mem_cons]
      refine and_congr_right fun hx => ?_
      obtain ⟨a, ha⟩ := hstep.mpr hx
      exact ⟨fun h => ih.mp (h a ha), fun h a _ => ih.mpr h⟩

end Merkle

/-- Converting a primitive of a JSON value to a number does not throw. -/
theorem JsonVal.returns_toNumber {N : Node} {v : JsonVal} {p : Prim} (h : JsonVal.toPrim N v = .ok p) :
    Outcome.Returns (p.toNumber N) := by
  cases p with
  | big z =>
      cases v with
      | none => cases h
      | some v =>
          cases v with
          | arr xs =>
              obtain ⟨s, -, h⟩ := Outcome.bind_eq_ok.mp h
              cases h
          | obj fields =>
              obtain ⟨s, -, h⟩ := Outcome.bind_eq_ok.mp h
              cases h
          | _ => cases h
  | _ => exact Outcome.returns_ok _

namespace Dest

variable (H : Host)

/-- The bytes of a bundle can be read, and where they match its leaf, so can its branch, and its index if
there is a branch. -/
def Readable (bundle : JsonVal) : Prop :=
  ∃ bytes, Receipt.fromBase64 H (JsonVal.get? bundle "bytesB64") = .ok bytes ∧
    (JsonVal.strictEq (some (.str (Merkle.leafHash H.toNode bytes))) (JsonVal.get? bundle "leafHex")
        = true → ∃ siblings, Merkle.iterate (JsonVal.get? bundle "branch") = .ok siblings ∧
      (∀ s ∈ siblings, Outcome.Returns (Merkle.un H s)) ∧
      (siblings ≠ [] → JsonVal.printable (JsonVal.get? bundle "index") = true))

variable {H}

theorem returns_fold {leafHex : JsString} {siblings : List Json} {index : JsonVal} :
    Outcome.Returns (Merkle.fold H leafHex siblings index) ↔
      (∀ s ∈ siblings, Outcome.Returns (Merkle.un H s)) ∧
        (siblings ≠ [] → JsonVal.printable index = true) := by
  cases siblings with
  | nil =>
      refine ⟨fun _ => ⟨fun s hs => absurd hs List.not_mem_nil, fun h => absurd rfl h⟩, fun _ => ?_⟩
      exact Outcome.returns_ok _
  | cons s rest =>
      show Outcome.Returns (JsonVal.toPrim H.toNode index >>= fun p =>
        p.toNumber H.toNode >>= fun idx => Merkle.climb H idx leafHex (s :: rest)) ↔ _
      rw [Outcome.returns_bind, JsonVal.returns_toPrim]
      constructor
      · rintro ⟨hindex, hrest⟩
        obtain ⟨p, hp⟩ := (JsonVal.returns_toPrim (N := H.toNode) index).mpr hindex
        obtain ⟨⟨idx, hidx⟩, hclimb⟩ := Outcome.returns_bind.mp (hrest p hp)
        exact ⟨Merkle.returns_climb.mp (hclimb idx hidx), fun _ => hindex⟩
      · rintro ⟨hall, hindex⟩
        refine ⟨hindex (List.cons_ne_nil _ _), fun p hp => ?_⟩
        exact Outcome.returns_bind.mpr ⟨JsonVal.returns_toNumber hp, fun _ _ =>
          Merkle.returns_climb.mpr hall⟩

/-- **A bundle is checked without a throw exactly when it can be read.** -/
theorem returns_checkChunk {root : JsonVal} {b : Json} (hb : b ≠ .null) :
    Outcome.Returns (checkChunk H root (some b)) ↔ Readable H (some b) := by
  have hget : ∀ name, JsonVal.get (some b) name = .ok (JsonVal.get? (some b) name) := by
    intro name
    obtain ⟨w, hw⟩ := JsonVal.returns_get.mpr ⟨b, rfl, hb⟩
    rw [hw, Relief.get_eq_get? hw]
  unfold checkChunk Readable
  simp only [hget, Outcome.ok_bind]
  rw [Outcome.returns_bind]
  have hverify : ∀ bytes, Outcome.Returns (if JsonVal.strictEq
        (some (.str (Merkle.leafHash H.toNode bytes))) (JsonVal.get? (some b) "leafHex") = false
      then (return .inl .leafHashMismatch : Outcome (Refusal ⊕ Bytes)) else do
        let valid ← Merkle.verifyProof H (Merkle.leafHash H.toNode bytes)
          (JsonVal.get? (some b) "branch") (JsonVal.get? (some b) "index") root
        return if valid then .inr bytes else .inl .merkleBranchInvalid) ↔
      (JsonVal.strictEq (some (.str (Merkle.leafHash H.toNode bytes)))
        (JsonVal.get? (some b) "leafHex") = true → ∃ siblings,
          Merkle.iterate (JsonVal.get? (some b) "branch") = .ok siblings ∧
          (∀ s ∈ siblings, Outcome.Returns (Merkle.un H s)) ∧
          (siblings ≠ [] → JsonVal.printable (JsonVal.get? (some b) "index") = true)) := by
    intro bytes
    rw [Outcome.returns_ite, Outcome.returns_map, Merkle.verifyProof, Outcome.returns_bind]
    simp only [Outcome.returns_map, returns_fold, Bool.not_eq_false]
    constructor
    · rintro ⟨-, h⟩ heq
      obtain ⟨⟨siblings, hsiblings⟩, hfold⟩ := h heq
      exact ⟨siblings, hsiblings, hfold siblings hsiblings⟩
    · intro h
      refine ⟨fun _ => Outcome.returns_pure _, fun heq => ?_⟩
      obtain ⟨siblings, hsiblings, hfold⟩ := h heq
      refine ⟨⟨siblings, hsiblings⟩, fun siblings' hsiblings' => ?_⟩
      rw [hsiblings] at hsiblings'
      cases hsiblings'
      exact hfold
  constructor
  · rintro ⟨⟨bytes, hbytes⟩, h⟩
    exact ⟨bytes, hbytes, (hverify bytes).mp (h bytes hbytes)⟩
  · rintro ⟨bytes, hbytes, h⟩
    refine ⟨⟨bytes, hbytes⟩, fun bytes' hbytes' => ?_⟩
    rw [hbytes] at hbytes'
    cases hbytes'
    exact (hverify bytes).mpr h

end Dest

namespace Relief

variable (H : ReliefHost) (disk : Disk) (cfg : HubConfig) (D : Set Directory)

/-! ## What is asked of the frames of a report -/

/-- A directory of the hub has the key that signed the manifest, as a clinic's. -/
def ByClinic (m : Json) (t : Int) : Prop :=
  ∃ d ∈ D, ∃ pin signer, keyAt H.toNode d.clinics d.revoked (JsonVal.get? (m.get "meta") "clinic") t
    = .ok pin ∧ Receipt.verifyRecord H.toHost (some m) = .ok (.ok signer) ∧ pin.isKey signer = true

/-- Of a manifest: its clinic can be printed, and when it is the clinic's, its number of chunks and its
date can be. -/
structure PlainManifest (m : Json) (t : Int) : Prop where
  clinic : JsonVal.printable (JsonVal.get? (m.get "meta") "clinic") = true
  chunkCount : ByClinic H D m t → JsonVal.printable (m.get "chunkCount") = true
  createdAt : ByClinic H D m t →
    ∃ v, JsonVal.get (m.get "meta") "createdAt" = .ok v ∧ JsonVal.printable v = true

/-- Of a chunk frame: there is a bundle, and what has a length is a list without `null`. -/
structure PlainChunk (f : Json) : Prop where
  bundle : ∃ b, f.get "bundle" = some b ∧ b ≠ .null
  custody : JsonVal.truthy (lengthOf (f.get "custody")) = true →
    ∃ rs, f.get "custody" = some (.arr rs) ∧ ∀ r ∈ rs, r ≠ .null

/-- What the audit of a chunk is given, for a report of `clinic`. -/
def auditOptions (d : Directory) (clinic : JsonVal) (c : Stored) : Receipt.AuditOptions where
  bundleId := JsonVal.get? c.bundle "bundleId"
  keys := keysAt d.relays d.revoked c.arrivedAt
  origin := clinic.getD .null

/-- The receipts of a chunk can be read, one after another up to the first that fails. -/
def Judgeable (clinic : JsonVal) (c : Stored) : Prop :=
  ∃ rs, c.custody = some (.arr rs) ∧ (∀ r ∈ rs, r ≠ .null) ∧
    ∀ d ∈ D, revokedHop (cfg.under d) c.arrivedAt 0 rs = .ok none →
      ∀ front r back, rs = front ++ r :: back →
        (∀ x ∈ front, Receipt.checkReceipt H.toHost (auditOptions d clinic c) x = .ok none) →
          Receipt.Auditable H.toHost (auditOptions d clinic c) r

/-- The times of a chunk's receipts can be converted to numbers. -/
def Timely (c : Stored) : Prop :=
  ∀ rs, c.custody = some (.arr rs) → ∀ r ∈ rs,
    JsonVal.printable (r.get "receivedAt") = true ∧ JsonVal.printable (r.get "forwardedAt") = true

/-- A file that can be put into the inbox: its name is a string, and the disk takes it. -/
def Storable (id : JsonVal) (file : Json) : Prop :=
  ∃ name, file.get "name" = some (.str name) ∧ Outcome.Returns (disk.save id (some (.str name)))

/-- **What the manifests `M` and the chunks `C` of a report must be like.** -/
structure PlainReport (id : JsonVal) (M : Json → Int → Prop) (C : Stored → Prop) : Prop where
  manifest : ∀ m t, M m t → PlainManifest H D m t
  bundle : ∀ m t c, M m t → ByClinic H D m t → C c →
    ∃ b, c.bundle = some b ∧ b ≠ .null ∧ Dest.Readable H.toHost (some b)
  custody : ∀ m t c bytes, M m t → ByClinic H D m t → C c →
    Dest.checkChunk H.toHost (m.get "root") c.bundle = .ok (.inr bytes) →
      Judgeable H cfg D (JsonVal.get? (m.get "meta") "clinic") c
  timely : ∀ m t c bytes, M m t → ByClinic H D m t → C c →
    Dest.checkChunk H.toHost (m.get "root") c.bundle = .ok (.inr bytes) →
      JsonVal.get? c.bundle "index" = some (.int 0) → Timely c
  /-- A payload that is made of such chunks, when it opens. -/
  file : ∀ m t parts, M m t → ByClinic H D m t → parts ≠ [] →
    m.get "chunkCount" = some (.int (parts.length : Nat)) →
      (∀ (i : Nat) bytes, parts[i]? = some bytes → ∃ c, C c ∧ JsonVal.get? c.bundle "index" = some (.int i) ∧
        Dest.checkChunk H.toHost (m.get "root") c.bundle = .ok (.inr bytes)) →
        ∀ aad file bytes, JsonVal.toBuffer H.toHost toUtf8 id = .ok aad →
          (Seal.openAt H cfg.encPriv parts.flatten aad).bind (unpackFile H) = some (file, bytes) →
            Storable disk id file

/-! ## Custody -/

variable {H disk cfg D}

theorem returns_revokedHop {cfg : HubConfig} {t : Int} {rs : List Json} (h : ∀ r ∈ rs, r ≠ .null) :
    ∀ i, Outcome.Returns (revokedHop cfg t i rs) := by
  induction rs with
  | nil => exact fun _ => Outcome.returns_ok _
  | cons r rest ih =>
      intro i
      rw [List.forall_mem_cons] at h
      rw [revokedHop, Outcome.returns_bind]
      refine ⟨JsonVal.returns_get.mpr ⟨r, rfl, h.1⟩, fun signerPub _ => ?_⟩
      split
      · exact Outcome.returns_pure _
      · exact ih h.2 _

/-- **The custody of a chunk is judged without a throw** when it can be read. -/
theorem returns_judgeCustody {d : Directory} (hd : d ∈ D) {clinic : JsonVal} {c : Stored}
    (h : Judgeable H cfg D clinic c) : Outcome.Returns (judgeCustody H (cfg.under d) clinic c) := by
  obtain ⟨rs, hrs, hnull, haudit⟩ := h
  unfold judgeCustody
  rw [hrs]
  dsimp only
  rw [Outcome.returns_bind]
  refine ⟨returns_revokedHop hnull 0, fun hop hhop => ?_⟩
  cases hop with
  | some hit => exact Outcome.returns_pure _
  | none =>
      have hchain : Outcome.Returns (Receipt.auditCustodyChain H.toHost (some (.arr rs))
          (auditOptions d clinic c)) := by
        unfold Receipt.auditCustodyChain
        split
        · exact Outcome.returns_ok _
        · next rs' _ heq =>
          cases heq
          exact Receipt.returns_auditFrom.mpr (haudit d hd hhop)
        · exact Outcome.returns_ok _
      dsimp only
      rw [Outcome.returns_bind]
      refine ⟨hchain, fun a _ => ?_⟩
      cases a with
      | fail reason hop => exact Outcome.returns_pure _
      | ok n gaps => exact Outcome.returns_pure _

theorem returns_minus {v w : JsonVal} (hv : JsonVal.printable v = true)
    (hw : JsonVal.printable w = true) : Outcome.Returns (minus H v w) := by
  have hnum : ∀ v : JsonVal, JsonVal.printable v = true →
      Outcome.Returns (JsonVal.toPrim H.toNode v >>= fun p => p.toNumber H.toNode) := by
    intro v hv
    apply Outcome.returns_bind.mpr
    exact ⟨(JsonVal.returns_toPrim v).mpr hv, fun p hp => JsonVal.returns_toNumber hp⟩
  obtain ⟨⟨p, hp⟩, hx⟩ := Outcome.returns_bind.mp (hnum v hv)
  obtain ⟨⟨q, hq⟩, hy⟩ := Outcome.returns_bind.mp (hnum w hw)
  obtain ⟨x, hx⟩ := hx p hp
  obtain ⟨y, hy⟩ := hy q hq
  refine ⟨x.sub y, ?_⟩
  simp only [minus, hp, hq, hx, hy, Outcome.ok_bind, Outcome.pure_eq_ok]

theorem returns_hopsFrom {cfg : HubConfig} {t : Int} {rs : List Json}
    (h : ∀ r ∈ rs, JsonVal.printable (r.get "receivedAt") = true ∧
      JsonVal.printable (r.get "forwardedAt") = true) :
    ∀ {node since : JsonVal}, JsonVal.printable since = true →
      Outcome.Returns (hopsFrom H cfg t node since rs) := by
  induction rs with
  | nil =>
      intro node since hsince
      rw [hopsFrom, Outcome.returns_map]
      exact returns_minus rfl hsince
  | cons r rest ih =>
      intro node since hsince
      rw [List.forall_mem_cons] at h
      rw [hopsFrom, Outcome.returns_bind]
      refine ⟨returns_minus h.1.1 hsince, fun transit _ => ?_⟩
      rw [Outcome.returns_map]
      exact ih h.2 h.1.2

end Relief

end DtnCustody
