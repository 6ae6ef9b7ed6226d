/-
# DtnCustody.Relief.Restart — a hub that ran starts again, where every frame could be taken.

`ingest` catches nothing, and a frame is in the log before it is judged. So one frame that makes it throw,
such as a chunk frame without a bundle (`chunk_without_bundle`), stops the hub, and stops it again whenever
the log is replayed. Where every frame is `Digestible`, no run throws and no replay does
(`hub_restarts`).
-/
import DtnCustody.Relief.Intact
import DtnCustody.Relief.Replay

namespace DtnCustody

open Base Js

namespace Relief

variable (H : ReliefHost) (disk : Disk) (cfg : HubConfig) (D : Set Directory)

/-- **The frames that can be taken** under the directories of `D`: each by itself, and the manifests and
chunks of a report together. -/
structure Digestible (log : List Arrival) : Prop where
  manifests : ∀ x ∈ log, ∀ f, dec H x.buf = some f → JsonVal.isText (f.get "kind") "manifest" = true →
    JsonVal.truthy (payloadOf f) = true → ∀ m, f.get "manifest" = some m → PlainManifest H D m x.arrivedAt
  chunks : ∀ x ∈ log, ∀ f, dec H x.buf = some f → JsonVal.isText (f.get "kind") "chunk" = true →
    JsonVal.truthy (payloadOf f) = true → PlainChunk f
  reports : ∀ p, JsonVal.truthy (valueOf p) = true →
    PlainReport H disk cfg D (valueOf p) (ManifestIn H log p) (ChunkIn H log p)

/-- The entries of a hub that was handed such frames. -/
structure HubIntact (log : List Arrival) (hub : Hub) : Prop where
  entries : ∀ p e, JsonVal.truthy (valueOf p) = true → hub.payloads.get? (.prim p) = some e →
    Intact H disk D (valueOf p) (ManifestIn H log p) (ChunkIn H log p) e
  fresh : ∀ n e, hub.payloads.get? (.ref n) = some e → n < hub.fresh

variable {H disk cfg D} {log : List Arrival}

theorem intact_new {id : JsonVal} {M : Json → Int → Prop} {C : Stored → Prop} :
    Intact H disk D id M C {} := by
  refine ⟨?_, ?_, ?_, ?_, ?_, ?_⟩
  · intro m hm htruthy
    cases hm
    cases htruthy
  · intro k c hc
    cases hc
  · intro _ k c hc
    cases hc
  · intro d hd
    cases hd
  · intro d k c hd
    cases hd
  · intro r hr
    cases hr

theorem hubIntact_new : HubIntact H disk D log {} := by
  constructor
  · intro p e _ he
    cases he
  · intro n e he
    cases he

/-- What the report that was touched comes to can be written. -/
def Kept (disk : Disk) (hub : Hub) (id : JsonVal) : Prop :=
  ∀ r, hub.reportFor id = some (.verified r) → Outcome.Returns (disk.save id r.fileName)

/-- **A step on an entry**: it returns at a report of the log, and on the new entry of an identifier that
is an object. -/
theorem HubIntact.onEntry {hub : Hub} (h : HubIntact H disk D log hub) {id : JsonVal}
    (htruthy : JsonVal.truthy id = true) {step : Desk → Outcome Unit × Desk}
    (hstep : ∀ p s, JsonVal.key? id = some p →
      Intact H disk D id (ManifestIn H log p) (ChunkIn H log p) s.1 → ∃ s', step s = (.ok (), s') ∧
        Intact H disk D id (ManifestIn H log p) (ChunkIn H log p) s'.1)
    (hnew : ∀ b, ∃ s', step ({}, b) = (.ok (), s') ∧
      ∀ r, s'.1.report = some (.verified r) → Outcome.Returns (disk.save id r.fileName)) :
    ∃ hub', hub.onEntry id step = (.ok id, hub') ∧ HubIntact H disk D log hub' ∧ Kept disk hub' id := by
  unfold Hub.onEntry
  dsimp only
  have hkept : ∀ (e : Entry) (b : Books),
      (∀ r, e.report = some (.verified r) → Outcome.Returns (disk.save id r.fileName)) →
        Kept disk { payloads := hub.payloads.set (Dest.keyOf id hub.fresh) e, books := b,
                    fresh := hub.fresh + 1 } id := by
    intro e b he r hr
    unfold Hub.reportFor at hr
    rw [Nat.add_sub_cancel, JsMap.get?_set_self] at hr
    exact he r hr
  cases hk : Dest.keyOf id hub.fresh with
  | prim p =>
      have hid : id = valueOf p := eq_valueOf (keyOf_prim hk)
      have hentry : Intact H disk D id (ManifestIn H log p) (ChunkIn H log p)
          ((hub.payloads.get? (.prim p)).getD {}) := by
        cases he : hub.payloads.get? (.prim p) with
        | none => exact intact_new
        | some e =>
            rw [hid]
            exact h.entries p e (hid ▸ htruthy) he
      obtain ⟨s', hs', hintact⟩ := hstep p ((hub.payloads.get? (.prim p)).getD {}, hub.books)
        (keyOf_prim hk) hentry
      rw [hs']
      rw [hk] at hkept
      have hset := payloads_set (P := fun q e => JsonVal.truthy (valueOf q) = true →
        Intact H disk D (valueOf q) (ManifestIn H log q) (ChunkIn H log q) e) h.fresh
        (fun q e he hq => h.entries q e hq he) hk (e := s'.1) fun q hq => by
          cases hq
          rw [← hid]
          exact fun _ => hintact
      exact ⟨_, rfl, ⟨fun q e hq he => hset.1 q e he hq, hset.2⟩, hkept _ _ hintact.report⟩
  | ref n =>
      obtain ⟨-, rfl⟩ := keyOf_ref hk
      rw [get?_payloads_fresh h.fresh]
      obtain ⟨s', hs', hreport⟩ := hnew hub.books
      rw [Option.getD_none, hs']
      rw [hk] at hkept
      have hset := payloads_set (P := fun q e => JsonVal.truthy (valueOf q) = true →
        Intact H disk D (valueOf q) (ManifestIn H log q) (ChunkIn H log q) e) h.fresh
        (fun q e he hq => h.entries q e hq he) hk (e := s'.1) fun q hq => by cases hq
      exact ⟨_, rfl, ⟨fun q e hq he => hset.1 q e he hq, hset.2⟩, hkept _ _ hreport⟩

/-- **One frame returns**, and the report that it touched can be written. -/
theorem HubIntact.ingest (hlog : Digestible H disk cfg D log) (hkey : H.importPublic [] = none) {hub : Hub}
    (h : HubIntact H disk D log hub) {dir : Directory} (hdir : dir ∈ D) {x y : Arrival} (hy : y ∈ log)
    (hline : SameLine y x) : ∃ id hub', hub.ingest H (cfg.under dir) x = (.ok id, hub') ∧
      HubIntact H disk D log hub' ∧ (JsonVal.truthy id = true → Kept disk hub' id) := by
  obtain ⟨hbuf, hat⟩ := hline
  unfold Hub.ingest
  rw [hbuf, hat]
  split
  · exact ⟨_, _, rfl, ⟨h.entries, h.fresh⟩, fun hid => by cases hid⟩
  · next f hf =>
    dsimp only
    split
    · next hkind =>
      rw [Bool.and_eq_true] at hkind
      have hmanifest := hlog.manifests y hy f hf hkind.1 hkind.2
      obtain ⟨hub', hrun, hhub', hkept⟩ : ∃ hub', hub.onEntry (payloadOf f)
          (takeManifest H (cfg.under dir) x.now (payloadOf f) f y.arrivedAt) =
            (.ok (payloadOf f), hub') ∧ HubIntact H disk D log hub' ∧ Kept disk hub' (payloadOf f) := by
        apply h.onEntry hkind.2
        · intro p s hp hs
          have hid := eq_valueOf hp
          have hplain := hlog.reports p (hid ▸ hkind.2)
          rw [← hid] at hplain
          apply hs.takeManifest hplain hkey hdir
          exact fun m hm _ => ⟨y, hy, f, hf, hkind.1, hp, hm, rfl⟩
        · intro b
          -- the manifest is all that there is of this report
          have hplain : PlainReport H disk cfg D (payloadOf f)
              (fun m t => f.get "manifest" = some m ∧ t = y.arrivedAt) (fun _ => False) := by
            refine ⟨?_, fun _ _ _ _ _ hc => hc.elim, fun _ _ _ _ _ _ hc => hc.elim,
              fun _ _ _ _ _ _ hc => hc.elim, ?_⟩
            · rintro m t ⟨hm, rfl⟩
              exact hmanifest m hm
            · intro m t parts _ _ hne _ hparts
              obtain ⟨part, rest, rfl⟩ := List.exists_cons_of_ne_nil hne
              obtain ⟨c, hc, -⟩ := hparts 0 part rfl
              exact hc.elim
          obtain ⟨s', hs', hintact⟩ := @Intact.takeManifest H disk D (payloadOf f) _ _ cfg hplain hkey dir
            hdir x.now ({}, b) intact_new f y.arrivedAt fun m hm _ => ⟨hm, rfl⟩
          exact ⟨s', hs', hintact.report⟩
      exact ⟨_, hub', hrun, hhub', fun _ => hkept⟩
    · split
      · next hkind =>
        rw [Bool.and_eq_true] at hkind
        have hchunk := hlog.chunks y hy f hf hkind.1 hkind.2
        obtain ⟨hub', hrun, hhub', hkept⟩ : ∃ hub', hub.onEntry (payloadOf f)
            (takeChunk H (cfg.under dir) x.now (payloadOf f) f y.arrivedAt) =
              (.ok (payloadOf f), hub') ∧ HubIntact H disk D log hub' ∧ Kept disk hub' (payloadOf f) := by
          apply h.onEntry hkind.2
          · intro p s hp hs
            have hid := eq_valueOf hp
            have hplain := hlog.reports p (hid ▸ hkind.2)
            rw [← hid] at hplain
            apply hs.takeChunk hplain hkey hdir hchunk
            exact ⟨y, hy, f, hf, hkind.1, hp, rfl⟩
          · intro b
            -- there is no manifest of this report
            have hplain : PlainReport H disk cfg D (payloadOf f) (fun _ _ => False)
                (fun c => c = storedOf f y.arrivedAt) :=
              ⟨fun _ _ hm => hm.elim, fun _ _ _ hm => hm.elim, fun _ _ _ _ hm => hm.elim,
                fun _ _ _ _ hm => hm.elim, fun _ _ _ hm => hm.elim⟩
            obtain ⟨s', hs', hintact⟩ := @Intact.takeChunk H disk D (payloadOf f) _ _ cfg hplain hkey dir
              hdir x.now ({}, b) intact_new f y.arrivedAt hchunk rfl
            exact ⟨s', hs', hintact.report⟩
        exact ⟨_, hub', hrun, hhub', fun _ => hkept⟩
      · exact ⟨_, _, rfl, ⟨h.entries, h.fresh⟩, fun hid => by cases hid⟩

/-! ## The node -/

theorem HubNode.persist_returns {s : HubNode} {id : JsonVal}
    (h : JsonVal.truthy id = true → Kept disk s.hub id) :
    ∃ s', s.persist disk id = .ok s' ∧ s'.hub = s.hub := by
  unfold HubNode.persist
  split
  · exact ⟨s, rfl, rfl⟩
  · next htruthy =>
    rw [Bool.not_eq_false] at htruthy
    split
    · next r hr =>
      obtain ⟨u, hsave⟩ := h htruthy r hr
      split
      · split
        · exact ⟨s, rfl, rfl⟩
        · rw [hsave]
          exact ⟨_, rfl, rfl⟩
      · rw [hsave]
        exact ⟨_, rfl, rfl⟩
    · exact ⟨s, rfl, rfl⟩

/-- **A run over frames that can be taken** comes to its end. -/
theorem HubNode.serve_returns (hlog : Digestible H disk cfg D log) (hkey : H.importPublic [] = none)
    {served : List (Directory × Arrival)} : ∀ {s : HubNode}, HubIntact H disk D log s.hub →
      (∀ p ∈ served, p.1 ∈ D ∧ ∃ y ∈ log, SameLine y p.2) →
        ∃ s', s.serve H cfg disk served = .ok s' := by
  induction served with
  | nil => exact fun {s} _ _ => ⟨s, rfl⟩
  | cons p rest ih =>
      intro s h hserved
      obtain ⟨dir, x⟩ := p
      rw [List.forall_mem_cons] at hserved
      obtain ⟨⟨hdir, y, hy, hline⟩, hrest⟩ := hserved
      obtain ⟨id, hub', hrun, hhub', hkept⟩ := h.ingest hlog hkey hdir hy hline
      obtain ⟨s₁, hpersist, hsame⟩ := @HubNode.persist_returns disk { s with hub := hub' } id hkept
      have hframe : s.onFrame H cfg disk dir x = .ok s₁ := by
        unfold HubNode.onFrame
        rw [hrun]
        exact hpersist
      rw [HubNode.serve, hframe, Outcome.ok_bind]
      apply ih _ hrest
      rw [hsame]
      exact hhub'

/-- **A hub that was handed such frames has served them all, and can always start again** from its log,
under any of its directories. -/
theorem hub_restarts (H : ReliefHost) (disk : Disk) (cfg : HubConfig) (hkey : H.importPublic [] = none)
    {D : Set Directory} {served : List (Directory × Arrival)} (hdirs : ∀ p ∈ served, p.1 ∈ D)
    (hlog : Digestible H disk cfg D (served.map Prod.snd)) :
    (∃ s, ({} : HubNode).serve H cfg disk served = .ok s) ∧
      ∀ d ∈ D, ∀ log, List.Forall₂ SameLine (served.map Prod.snd) log →
        ∃ s, ({} : HubNode).serve H cfg disk (log.map fun x => (d, x)) = .ok s := by
  constructor
  · apply HubNode.serve_returns hlog hkey hubIntact_new
    exact fun p hp => ⟨hdirs p hp, p.2, List.mem_map_of_mem hp, sameLine_refl _⟩
  · intro d hd log hlines
    apply HubNode.serve_returns hlog hkey hubIntact_new
    intro p hp
    obtain ⟨x, hx, rfl⟩ := List.mem_map.mp hp
    obtain ⟨y, hy, hline⟩ := Gather.mem_of_forall₂ hlines.flip x hx
    exact ⟨hd, y, hy, hline⟩

/-! ## Two runs -/

/-- A runtime to which no bytes are no key. -/
def plainRelief : ReliefHost :=
  { sampleRelief with importPublic := fun b => if b = [] then none else some b }

/-- A disk that takes everything. -/
def sampleDisk : Disk where
  basename := id
  mkdir _ := .ok ()
  writeFile _ _ := .ok ()

/-- What is asked of the frames of a report of two chunks, of which only the first came. -/
def plainFrame (f : Json) : Bool :=
  if JsonVal.isText (f.get "kind") "manifest" then
    match f.get "manifest" with
    | some m => JsonVal.printable (JsonVal.get? (m.get "meta") "clinic") &&
        JsonVal.strictEq (m.get "chunkCount") (some (.int 2)) &&
        (JsonVal.get (m.get "meta") "createdAt").toOption.any JsonVal.printable
    | none => false
  else
    match f.get "bundle", f.get "custody" with
    | some b, some (.arr rs) => !b.isNull && JsonVal.strictEq (b.get "index") (some (.int 0)) &&
        (Dest.checkChunk plainRelief.toHost none (some b)).isOk && rs.all fun r => !r.isNull &&
          (Receipt.checkReceipt plainRelief.toHost
            { bundleId := b.get "bundleId", keys := Pin.find [], origin := .null } r).isOk &&
          JsonVal.printable (r.get "receivedAt") && JsonVal.printable (r.get "forwardedAt")
    | _, _ => false

theorem isOk_returns {α : Type} {x : Outcome α} (h : x.isOk = true) : Outcome.Returns x := by
  cases x with
  | error e => cases h
  | ok a => exact Outcome.returns_ok a

theorem plainFrame_manifest {f : Json} (h : plainFrame f = true)
    (hkind : JsonVal.isText (f.get "kind") "manifest" = true) {m : Json}
    (hm : f.get "manifest" = some m) (D : Set Directory) (t : Int) :
    PlainManifest plainRelief D m t ∧ m.get "chunkCount" = some (.int 2) := by
  unfold plainFrame at h
  rw [if_pos hkind, hm] at h
  dsimp only at h
  rw [Bool.and_eq_true, Bool.and_eq_true] at h
  obtain ⟨⟨hclinic, hcount⟩, hcreated⟩ := h
  have hcount' := JsonVal.eq_of_strictEq hcount
  refine ⟨⟨hclinic, fun _ => ?_, fun _ => ?_⟩, hcount'⟩
  · rw [hcount']
    rfl
  · cases hget : JsonVal.get (m.get "meta") "createdAt" with
    | error e =>
        rw [hget] at hcreated
        cases hcreated
    | ok v =>
        rw [hget] at hcreated
        exact ⟨v, rfl, hcreated⟩

theorem plainFrame_chunk {f : Json} (h : plainFrame f = true)
    (hkind : JsonVal.isText (f.get "kind") "manifest" = false) : ∃ b rs, f.get "bundle" = some b ∧
      f.get "custody" = some (.arr rs) ∧ b ≠ .null ∧ b.get "index" = some (.int 0) ∧
      Dest.Readable plainRelief.toHost (some b) ∧ ∀ r ∈ rs, r ≠ .null ∧
        Receipt.Auditable plainRelief.toHost
          { bundleId := b.get "bundleId", keys := Pin.find [], origin := .null } r ∧
        JsonVal.printable (r.get "receivedAt") = true ∧ JsonVal.printable (r.get "forwardedAt") = true := by
  have hnotNull : ∀ v : Json, (!v.isNull) = true → v ≠ .null := by
    rintro v hv rfl
    cases hv
  unfold plainFrame at h
  rw [if_neg (by rw [hkind]; exact Bool.false_ne_true)] at h
  split at h
  · next b rs hb hrs =>
    simp only [Bool.and_eq_true] at h
    obtain ⟨⟨⟨hb', hindex⟩, hread⟩, hall⟩ := h
    refine ⟨b, rs, hb, hrs, hnotNull b hb', JsonVal.eq_of_strictEq hindex,
      (Dest.returns_checkChunk (hnotNull b hb')).mp (isOk_returns hread), fun r hr => ?_⟩
    have hr := List.all_eq_true.mp hall r hr
    simp only [Bool.and_eq_true] at hr
    obtain ⟨⟨⟨hr', haudit⟩, hreceived⟩, hforwarded⟩ := hr
    exact ⟨hnotNull r hr', Receipt.returns_checkReceipt.mp (isOk_returns haudit), hreceived, hforwarded⟩
  · cases h

theorem honestRun_digestible :
    Digestible plainRelief sampleDisk sampleConfig {sampleConfig.directory} honestRun := by
  have hall : honestRun.all (fun x => (dec plainRelief x.buf).all plainFrame) = true := by
    decide +kernel
  have hframe : ∀ x ∈ honestRun, ∀ f, dec plainRelief x.buf = some f → plainFrame f = true := by
    intro x hx f hf
    have h := List.all_eq_true.mp hall x hx
    rw [hf] at h
    exact h
  have hchunk : ∀ {f : Json}, JsonVal.isText (f.get "kind") "chunk" = true →
      JsonVal.isText (f.get "kind") "manifest" = false := by
    intro f hkind
    rw [JsonVal.eq_of_strictEq hkind]
    decide
  have hstored : ∀ {p c}, ChunkIn plainRelief honestRun p c → ∃ b rs, c.bundle = some b ∧
      c.custody = some (.arr rs) ∧ b ≠ .null ∧ b.get "index" = some (.int 0) ∧
      Dest.Readable plainRelief.toHost (some b) ∧ ∀ r ∈ rs, r ≠ .null ∧
        Receipt.Auditable plainRelief.toHost
          { bundleId := b.get "bundleId", keys := Pin.find [], origin := .null } r ∧
        JsonVal.printable (r.get "receivedAt") = true ∧
        JsonVal.printable (r.get "forwardedAt") = true := by
    rintro p c ⟨x, hx, f, hf, hkind, -, hc⟩
    obtain ⟨b, rs, hb, hrs, hrest⟩ := plainFrame_chunk (hframe x hx f hf) (hchunk hkind)
    have hbundle : c.bundle = f.get "bundle" := congrArg Stored.bundle hc
    have hcustody : c.custody = orElseFalsy (f.get "custody") (some (.arr [])) :=
      congrArg Stored.custody hc
    exact ⟨b, rs, hbundle.trans hb, by rw [hcustody, hrs]; rfl, hrest⟩
  refine ⟨?_, ?_, fun p _ => ⟨?_, ?_, ?_, ?_, ?_⟩⟩
  · intro x hx f hf hkind _ m hm
    exact (plainFrame_manifest (hframe x hx f hf) hkind hm _ _).1
  · intro x hx f hf hkind _
    obtain ⟨b, rs, hb, hrs, hnull, -, -, hreceipts⟩ := plainFrame_chunk (hframe x hx f hf) (hchunk hkind)
    exact ⟨⟨b, hb, hnull⟩, fun _ => ⟨rs, hrs, fun r hr => (hreceipts r hr).1⟩⟩
  · rintro m t ⟨x, hx, f, hf, hkind, -, hm, rfl⟩
    exact (plainFrame_manifest (hframe x hx f hf) hkind hm _ _).1
  · intro m t c _ _ hc
    obtain ⟨b, rs, hb, -, hnull, -, hread, -⟩ := hstored hc
    exact ⟨b, hb, hnull, hread⟩
  · intro m t c bytes _ _ hc _
    obtain ⟨b, rs, hb, hrs, -, -, -, hreceipts⟩ := hstored hc
    refine ⟨rs, hrs, fun r hr => (hreceipts r hr).1, ?_⟩
    rintro d _ _ front r back rfl _
    obtain ⟨-, haudit, -⟩ := hreceipts r (List.mem_append_right _ List.mem_cons_self)
    have hid : JsonVal.get? c.bundle "bundleId" = b.get "bundleId" := by
      rw [hb]
      rfl
    exact ⟨haudit.legible, fun signer hsigner heq =>
      haudit.custodian signer hsigner (by rw [← hid]; exact heq)⟩
  · intro m t c bytes _ _ hc _ _ rs hrs r hr
    obtain ⟨b, rs', -, hrs', -, -, -, hreceipts⟩ := hstored hc
    rw [hrs] at hrs'
    cases hrs'
    exact (hreceipts r hr).2.2
  · -- the second chunk never came
    rintro m t parts ⟨x, hx, f, hf, hkind, -, hm, rfl⟩ _ _ hcount hparts
    rw [(plainFrame_manifest (hframe x hx f hf) hkind hm {sampleConfig.directory} 0).2] at hcount
    have hlength : parts.length = 2 := by
      have h := Option.some.inj hcount
      simp only [Json.int, Json.num.injEq, JsNum.fin.injEq] at h
      exact_mod_cast h.symm
    obtain ⟨c, hc, hindex, -⟩ := hparts 1 parts[1] (List.getElem?_eq_getElem (by omega))
    obtain ⟨b, rs, hb, -, -, hzero, -⟩ := hstored hc
    rw [hb] at hindex
    have hsame : (some (.int 1) : JsonVal) = some (.int 0) := hindex.symm.trans hzero
    simp [Json.int] at hsame

/-- A manifest and a chunk: the hub serves them, and starts again from their log. -/
theorem honestRun_restarts : (∃ s, ({} : HubNode).serve plainRelief sampleConfig sampleDisk
      (honestRun.map fun x => (sampleConfig.directory, x)) = .ok s) ∧
    ∀ d ∈ ({sampleConfig.directory} : Set Directory), ∀ log, List.Forall₂ SameLine
      ((honestRun.map fun x => (sampleConfig.directory, x)).map Prod.snd) log →
        ∃ s, ({} : HubNode).serve plainRelief sampleConfig sampleDisk (log.map fun x => (d, x)) = .ok s := by
  apply hub_restarts plainRelief sampleDisk sampleConfig
  · rfl
  · intro p hp
    obtain ⟨x, -, rfl⟩ := List.mem_map.mp hp
    rfl
  · rw [List.map_map]
    have hid : honestRun.map (Prod.snd ∘ fun x => (sampleConfig.directory, x)) = honestRun :=
      List.map_id'' (fun _ => rfl) _
    rw [hid]
    exact honestRun_digestible

/-- A chunk frame without a bundle; what names the report is a request. -/
def bareChunk : Arrival :=
  arriving "chunk" [(js "request", .obj [(js "payloadId", .text "p")])]

/-- **One frame stops the hub**: reading the index of its bundle throws, whenever it comes from the log. -/
theorem chunk_without_bundle :
    (({} : Hub).ingest plainRelief sampleConfig bareChunk).1.isOk = false ∧
      (({} : HubNode).serve plainRelief sampleConfig sampleDisk
        [(sampleConfig.directory, bareChunk)]).isOk = false := by
  decide +kernel

end Relief

end DtnCustody
