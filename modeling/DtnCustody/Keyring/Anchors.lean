/-
# DtnCustody.Keyring.Anchors — records that revoke an anchor.

The key-record specification says that anchors are not revoked by records. `chainOf` answers for an
anchor before it looks at any record, but `revokedFrom` treats it like every other key: a revocation
of an anchor counts when an anchor signed it, the revoked one included, or a key with the revoke role
under it. `RevokesAnchor` is that case, `sampleRing_not_anchorsHold` runs into it, and
`anchors_hold` says that it is the only one.
-/
import DtnCustody.Keyring.Lookup

namespace DtnCustody

open Base Js

namespace Keyring

variable {N : Node} {kr : Keyring}

/-- `r` revokes the anchor `id` and is signed by an anchor, or by a key accepted with the revoke role
under that anchor. -/
def RevokesAnchor (N : Node) (kr : Keyring) (id : KeyId) (r : Record) : Prop :=
  r ∈ kr.records.values ∧ IsRevocation N id r ∧ ∃ signerId,
    r.f.issuer.bufferFrom N = .ok signerId ∧ Signed N kr r signerId ∧
      (kr.anchors.has signerId = true ∨ ∃ left < maxDepth, ∃ s,
        kr.chainAt N left signerId = .ok (.ok s) ∧ hasRole N s.roles roleRevoke = .ok true ∧
          s.anchor = id)

/-- No record takes anything away from an anchor: its own status reports no revocation, and no
record it issued is refused on the ground that its issuer is revoked. -/
structure AnchorsHold (N : Node) (kr : Keyring) : Prop where
  status : ∀ pub, kr.anchors.has (keyIdOf N pub) = true → ∀ eid t role T anchor k,
    kr.status N pub eid t role = .ok (.ok T anchor k) → T = some .null
  issued : ∀ issuerId, kr.anchors.has issuerId = true → ∀ left < maxDepth, ∀ id r,
    r.f.issuer.bufferFrom N = .ok issuerId →
    kr.judgeRecord N (kr.chainAt N left) (kr.revokedAt N left) id r ≠ .ok (.fail "issuer_revoked")

/-- Against an anchor only the two kinds of `RevokesAnchor` stand. -/
theorem revokesAnchor_of_stands {left : Nat} {id : KeyId} {r : Record} (hleft : left < maxDepth)
    (ha : kr.anchors.has id = true) (h : Stands N kr left id r) : RevokesAnchor N kr id r := by
  obtain ⟨hr, hk, target, signerId, ht, hi, hs, hall⟩ := h
  obtain ⟨a, hget⟩ := get?_of_has ha
  rw [chainAt_anchor hget] at ht
  cases ht
  refine ⟨hr, hk, signerId, hi, hs, ?_⟩
  rcases hall with rfl | hin | hanchor | ⟨s, c, hup, hrole, hc, heq⟩
  · exact Or.inl ha
  · -- the chain of an anchor is the anchor alone
    have : signerId = id := by simpa [ChainResult.includes, anchorChain] using hin
    exact Or.inl (this ▸ ha)
  · exact Or.inl hanchor
  · cases hc
    exact Or.inr ⟨left, hleft, s, hup, hrole, heq⟩

theorem revokedAt_anchor {left : Nat} {id : KeyId} {T : JsVal} (hleft : left ≤ maxDepth)
    (ha : kr.anchors.has id = true) (hnone : ∀ r, ¬ RevokesAnchor N kr id r)
    (h : kr.revokedAt N left id = .ok T) : T = some .null := by
  cases left with
  | zero =>
      unfold revokedAt at h
      cases h
      rfl
  | succ left =>
      exact revokedAt_of_none h fun r hr => hnone r (revokesAnchor_of_stands hleft ha hr)

theorem anchorsHold_of_none
    (h : ∀ id, kr.anchors.has id = true → ∀ r, ¬ RevokesAnchor N kr id r) : AnchorsHold N kr := by
  refine ⟨fun pub ha eid t role T anchor k hst => ?_, fun issuerId ha left hleft id r hi hj => ?_⟩
  · obtain ⟨hT, -⟩ := status_revokedFrom hst
    exact revokedAt_anchor le_rfl ha (h _ ha) hT
  · obtain ⟨a, hget⟩ := get?_of_has ha
    unfold judgeRecord at hj
    simp only [hi, chainAt_anchor hget, Outcome.ok_bind] at hj
    -- an anchor holds every role and has no window, so the last check is the one that can fail
    have hrole : hasRole N (anchorChain issuerId a).roles roleIssue = .ok true :=
      hasRole_nat (by decide) roleIssue
    obtain ⟨pub, hpub⟩ : ∃ pub, kr.pubOf N issuerId = .ok pub := ⟨_, pubOf_anchor hget⟩
    simp only [hrole, hpub, Outcome.ok_bind] at hj
    cases hsig : (Cose.verify1 N r.item pub).isOk with
    | false => simp [hsig] at hj
    | true =>
        have hw : kr.holderInWindow N (anchorChain issuerId a).holder r.f.issuedAt = .ok true := rfl
        simp only [hsig, hw, Outcome.ok_bind] at hj
        obtain ⟨T, hT, hj⟩ := Outcome.bind_eq_ok.mp hj
        have hnull := revokedAt_anchor (le_of_lt hleft) ha (h _ ha) hT
        subst hnull
        cases hj

/-! ## Runs -/

/-- **Anchors hold in every run that never comes to hold a revocation of one of them signed by an
anchor or by a key with the revoke role under it.** -/
theorem anchors_hold (anchors : List Anchor) (skewMs : Int) (as : List (Cbor × Int))
    (h : ∀ bs, bs <+: as → ∀ id,
      ((Keyring.new N anchors skewMs).receiveAll N bs).anchors.has id = true →
      ∀ r, ¬ RevokesAnchor N ((Keyring.new N anchors skewMs).receiveAll N bs) id r) :
    ∀ bs, bs <+: as → AnchorsHold N ((Keyring.new N anchors skewMs).receiveAll N bs) :=
  fun bs hbs => anchorsHold_of_none (h bs hbs)

/-- A run of an issued key and the anchor's revocation of it, which leaves the anchor alone. -/
theorem anchors_hold_after_revokedKey :
    AnchorsHold sampleNode
      ((Keyring.new sampleNode [⟨"operator", some "ipn:1.0", (samplePair 1).pub⟩]).receiveAll sampleNode
        [(sampleKeyRecord 1 2 "ipn:2.0", 10), (sampleRevocation 1 2 100, 50)]) := by
  refine anchors_hold _ _ _ (fun bs hbs id ha r hr => ?_) _ List.prefix_rfl
  obtain ⟨hmem, ⟨hkind, htarget⟩, -⟩ := hr
  obtain ⟨a, ha', -, hf, -⟩ := mem_receiveAll rfl hmem
  rcases List.mem_cons.mp (hbs.subset ha') with rfl | ha'
  · -- the first record is a key record
    have hkey : (recordFields (sampleKeyRecord 1 2 "ipn:2.0")).map (fun f => f.kind) =
        .ok (some (.int kindKey)) := by decide +kernel
    dsimp only at hf
    rw [hf] at hkey
    simp [Except.map, hkind, kindRevoke, kindKey] at hkey
  · -- the second one revokes key 2, which is no anchor
    rw [List.mem_singleton] at ha'
    subst ha'
    have htwo : (recordFields (sampleRevocation 1 2 100)).map (fun f => f.target.bufferFrom sampleNode) =
        .ok (.ok (sampleId 2)) := by decide +kernel
    dsimp only at hf
    rw [hf] at htwo
    have hid : id = sampleId 2 := by simpa [Except.map, htarget] using htwo
    subst hid
    rw [anchors_receiveAll] at ha
    revert ha
    decide +kernel

/-- One anchor, and the revocation it signed of itself. -/
def selfRevokedAnchor : Keyring :=
  (Keyring.new sampleNode [⟨"operator", some "ipn:1.0", (samplePair 1).pub⟩]).receiveAll sampleNode
    [(sampleRevocation 1 1 100, 50)]

theorem selfRevokedAnchor_reports :
    selfRevokedAnchor.status sampleNode (samplePair 1).pub (some (.text "ipn:1.0")) (time 10) =
      .ok (.ok (time 100) (sampleId 1) (sampleId 1)) := by
  decide +kernel

theorem selfRevokedAnchor_not_anchorsHold : ¬ AnchorsHold sampleNode selfRevokedAnchor := by
  intro h
  have hanchor : selfRevokedAnchor.anchors.has (sampleId 1) = true := by decide +kernel
  have hnull := h.status _ hanchor _ _ _ _ _ _ selfRevokedAnchor_reports
  cases hnull

end Keyring

end DtnCustody
