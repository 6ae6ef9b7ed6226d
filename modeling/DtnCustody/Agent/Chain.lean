/-
# DtnCustody.Agent.Chain — `verifyCustodyChain` of `agent/lib/receipt.mjs`, and which chains can be
read.

The strict check: as many receipts as pinned hops, each of them signed by the key of its hop and
following on the one before. Both this check and the audit come to an end on a list of receipts
unless one they get to cannot be read: its content is too deep for `contentId`, or the field that is
turned into a string cannot be.
-/
import DtnCustody.Agent.Custody
import DtnCustody.Json.Returns

namespace DtnCustody

open Base Js

/-- `{ eid, pub }`, as the verifier expects a hop. -/
structure PinnedHop where
  eid : JsString
  pub : JsString

/-- `{ ok: true, hops }` or `{ ok: false, reason, hop }`. -/
inductive ChainVerdict where
  | ok (hops : Nat)
  | fail (reason : String) (hop : Option Nat)

namespace Receipt

variable (H : Host)

/-- One receipt at its hop, after the custodian `prev`; it hands its own custodian on. -/
def checkLink (bundleId prev : JsonVal) (hop : PinnedHop) (r : Json) :
    Outcome (String ⊕ JsonVal) := do
  match ← verifyRecord H (some r) with
  | .fail reason => Check.refuse reason
  | .ok signer =>
      if JsonVal.strictEq (r.get "bundleId") bundleId = false then Check.refuse "wrong_bundle"
      else if JsonVal.strictEq (r.get "thisHop") (some (.str hop.eid)) = false then
        Check.refuse "unexpected_hop"
      else if JsonVal.strictEq (some signer) (some (.str hop.pub)) = false then
        Check.refuse "signer_not_pinned_hop_key"
      else if (isNotNull prev && !JsonVal.strictEq (r.get "prevHop") prev) = true then
        Check.refuse "custody_chain_break"
      else Check.pass (r.get "thisHop")

/-- The loop over receipts and hops; the receipts before one are its number. -/
def checkLinks (bundleId : JsonVal) (before : List (Json × PinnedHop)) (prev : JsonVal)
    (links : List (Json × PinnedHop)) : Check (String × Nat) JsonVal :=
  Check.loop (fun before prev p =>
    Check.orRefuse (checkLink H bundleId prev p.2 p.1) fun reason => (reason, before.length))
      before prev links

def verifyCustodyChain (receipts : JsonVal) (bundleId : JsonVal) (hops : List PinnedHop) :
    Outcome ChainVerdict :=
  match receipts with
  | some (.arr []) => .ok (.fail "empty_chain" none)
  | some (.arr rs) =>
      if rs.length ≠ hops.length then .ok (.fail "wrong_hop_count" none)
      else do
        match ← checkLinks H bundleId [] (some .null) (rs.zip hops) with
        | .inl (reason, i) => return .fail reason (some i)
        | .inr _ => return .ok rs.length
  | _ => .ok (.fail "empty_chain" none)

/-! ## Which receipts can be read -/

/-- Of a value that is an object, the content is no deeper than the limit and the claimed identifier
can be printed. -/
def Legible (r : Json) : Prop :=
  r.isObject = true →
    r.pickContent.height ≤ Json.maxDepth ∧ (JsonVal.printable (r.get "claimId")) = true

variable {H}

theorem returns_verifyRecord {r : Json} :
    Outcome.Returns (verifyRecord H (some r)) ↔ Legible r := by
  show Outcome.Returns (if r.isObject = true then verifyObject H r else .ok (.fail "not_an_object")) ↔
    _
  unfold Legible
  rw [Outcome.returns_ite]
  refine ⟨fun h hobj => ?_, fun h => ⟨fun hobj => ?_, fun _ => Outcome.returns_ok _⟩⟩
  · obtain ⟨hid, hrest⟩ := Outcome.returns_bind.mp (h.1 hobj)
    obtain ⟨id, hid'⟩ := hid
    obtain ⟨hclaimed, _⟩ := Outcome.returns_bind.mp (hrest id hid')
    exact ⟨(Json.returns_contentId r).mp ⟨id, hid'⟩, (JsonVal.returns_toStr _).mp hclaimed⟩
  · obtain ⟨hid, hclaimed⟩ := h hobj
    refine Outcome.returns_bind.mpr ⟨(Json.returns_contentId r).mpr hid, fun id _ => ?_⟩
    refine Outcome.returns_bind.mpr ⟨(JsonVal.returns_toStr _).mpr hclaimed, fun claimed _ => ?_⟩
    -- from here on everything that could throw is caught
    split
    · exact Outcome.returns_pure _
    · split
      · exact Outcome.returns_pure _
      · split
        · exact Outcome.returns_pure _
        · split
          · exact Outcome.returns_pure _
          · exact Outcome.returns_pure _

theorem returns_checkLink {bundleId prev : JsonVal} {hop : PinnedHop} {r : Json} :
    Outcome.Returns (checkLink H bundleId prev hop r) ↔ Legible r := by
  unfold checkLink
  rw [Outcome.returns_bind, returns_verifyRecord]
  refine and_iff_left fun v _ => ?_
  cases v with
  | fail reason => exact Check.returns_refuse _
  | ok signer =>
      dsimp only
      split_ifs
      · exact Check.returns_refuse _
      · exact Check.returns_refuse _
      · exact Check.returns_refuse _
      · exact Check.returns_refuse _
      · exact Check.returns_pass _

/-- **The strict check returns** unless a receipt it gets to cannot be read. -/
theorem returns_verifyCustodyChain {rs : List Json} {bundleId : JsonVal} {hops : List PinnedHop} :
    Outcome.Returns (verifyCustodyChain H (some (.arr rs)) bundleId hops) ↔
      (rs.length = hops.length → ∀ front p back, rs.zip hops = front ++ p :: back →
        ∀ prev, (checkLinks H bundleId [] (some .null) front).Passes prev → Legible p.1) := by
  cases rs with
  | nil =>
      refine ⟨fun _ _ front p back h => ?_, fun _ => Outcome.returns_ok _⟩
      simp at h
  | cons r rs =>
      show Outcome.Returns (if (r :: rs).length ≠ hops.length then _ else _) ↔ _
      rw [Outcome.returns_ite]
      have hrest : Outcome.Returns (do
          match ← checkLinks H bundleId [] (some .null) ((r :: rs).zip hops) with
          | .inl (reason, i) => return .fail reason (some i)
          | .inr _ => return .ok (r :: rs).length : Outcome ChainVerdict) ↔
          Outcome.Returns (checkLinks H bundleId [] (some .null) ((r :: rs).zip hops)) := by
        rw [Outcome.returns_bind]
        refine and_iff_left fun v _ => ?_
        rcases v with ⟨reason, i⟩ | prev
        · exact Outcome.returns_pure _
        · exact Outcome.returns_pure _
      have hloop := @Check.returns_loop _ _ _ (fun before prev (p : Json × PinnedHop) =>
        Check.orRefuse (checkLink H bundleId prev p.2 p.1) fun reason => (reason, before.length))
        ((r :: rs).zip hops) [] (some .null)
      simp only [Check.returns_orRefuse, returns_checkLink] at hloop
      constructor
      · rintro ⟨_, h⟩ hlen
        exact hloop.mp (hrest.mp (h (not_not.mpr hlen)))
      · intro h
        exact ⟨fun _ => Outcome.returns_ok _, fun hlen => hrest.mpr (hloop.mpr (h (not_not.mp hlen)))⟩

/-! ## The audit -/

/-- An audited receipt can be read, and so can the custodian it names, once it has verified for this
bundle. -/
structure Auditable (H : Host) (o : AuditOptions) (r : Json) : Prop where
  legible : Legible r
  custodian : ∀ signer, verifyRecord H (some r) = .ok (.ok signer) →
    JsonVal.strictEq (r.get "bundleId") o.bundleId = true →
      JsonVal.printable (r.get "thisHop") = true

theorem returns_checkReceipt {o : AuditOptions} {r : Json} :
    Outcome.Returns (checkReceipt H o r) ↔ Auditable H o r := by
  unfold checkReceipt
  rw [Outcome.returns_bind, returns_verifyRecord]
  have hstep : ∀ v : RecordVerdict, Outcome.Returns (match v with
      | .fail reason => return some reason
      | .ok signer =>
          if JsonVal.strictEq (r.get "bundleId") o.bundleId = false then return some "wrong_bundle"
          else do
            let pinned := o.keys (← JsonVal.toStr H.toNode (r.get "thisHop"))
            if pinned.truthy = false then return some "custodian_not_pinned"
            else if pinned.isKey signer = false then return some "signer_not_pinned_hop_key"
            else return none : Outcome (Option String)) ↔
      ∀ signer, v = .ok signer → JsonVal.strictEq (r.get "bundleId") o.bundleId = true →
        JsonVal.printable (r.get "thisHop") = true := by
    intro v
    cases v with
    | fail reason => simp
    | ok signer =>
        dsimp only
        rw [Outcome.returns_ite]
        simp only [Bool.not_eq_false, RecordVerdict.ok.injEq, forall_eq']
        constructor
        · rintro ⟨_, h⟩ hid
          exact (JsonVal.returns_toStr _).mp (Outcome.returns_bind.mp (h hid)).1
        · intro h
          refine ⟨fun _ => Outcome.returns_pure _, fun hid => ?_⟩
          refine Outcome.returns_bind.mpr ⟨(JsonVal.returns_toStr _).mpr (h hid), fun name _ => ?_⟩
          split_ifs
          · exact Outcome.returns_pure _
          · exact Outcome.returns_pure _
          · exact Outcome.returns_pure _
  constructor
  · rintro ⟨hlegible, h⟩
    exact ⟨hlegible, fun signer hv => (hstep _).mp (h _ hv) signer rfl⟩
  · intro h
    refine ⟨h.legible, fun v hv => (hstep v).mpr ?_⟩
    rintro signer rfl
    exact h.custodian signer hv

/-- **The audit returns** when every receipt can be read that comes after receipts which pass. -/
theorem returns_auditFrom {o : AuditOptions} {rs : List Json} :
    ∀ {i : Nat} {prev : JsonVal} {gaps : List Gap},
      Outcome.Returns (auditFrom H o i prev gaps rs) ↔
        ∀ front r back, rs = front ++ r :: back → (∀ x ∈ front, checkReceipt H o x = .ok none) →
          Auditable H o r := by
  induction rs with
  | nil =>
      intro i prev gaps
      refine ⟨fun _ front r back h => ?_, fun _ => Outcome.returns_ok _⟩
      simp at h
  | cons x rs ih =>
      intro i prev gaps
      rw [auditFrom, Outcome.returns_bind, returns_checkReceipt]
      constructor
      · rintro ⟨hx, hrest⟩ front r back hrs hfront
        cases front with
        | nil =>
            cases hrs
            exact hx
        | cons y front =>
            cases hrs
            rw [List.forall_mem_cons] at hfront
            exact ih.mp (hrest none hfront.1) front r back rfl hfront.2
      · intro h
        refine ⟨h [] x rs rfl (fun _ hx => by cases hx), fun v hv => ?_⟩
        cases v with
        | some reason => exact Outcome.returns_pure _
        | none =>
            refine ih.mpr ?_
            rintro front r back rfl hfront
            exact h (x :: front) r back rfl (List.forall_mem_cons.mpr ⟨hv, hfront⟩)

end Receipt

end DtnCustody
