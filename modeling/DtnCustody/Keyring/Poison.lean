/-
# DtnCustody.Keyring.Poison — records that no authority signed.

`add` keeps a record before anything about it is checked. What such a record can do to a ring on which
no lookup throws is settled here: when every field that a scan reads has a type `hex` and `spkiOf`
accept (`Readable`), nothing at all (`unauthenticated_records_are_inert`); and with one field of
another type the next lookup of any key throws (`untargeted_revocation_poisons`).

The argument is that the two rings accept the same chains at every depth (`agree`), and that the
revocation time of every key that is known before the record arrives is the same.
-/
import DtnCustody.Keyring.Quiet

namespace DtnCustody

open Base Js

namespace Keyring

variable {N : Node} {kr kr' : Keyring} {x : Record}

/-- `kr'` is `kr` with the record `x` added at the end. -/
structure Adds (kr kr' : Keyring) (x : Record) : Prop where
  anchors : kr'.anchors = kr.anchors
  skewMs : kr'.skewMs = kr.skewMs
  values : kr'.records.values = kr.records.values ++ [x]

/-- A key that may sign records about other keys: an anchor, or a key accepted with the issue or the
revoke role. -/
def Authorised (N : Node) (kr : Keyring) (id : KeyId) : Prop :=
  kr.anchors.has id = true ∨ ∃ left ≤ maxDepth, ∃ c, kr.chainAt N left id = .ok (.ok c) ∧
    (hasRole N c.roles roleIssue = .ok true ∨ hasRole N c.roles roleRevoke = .ok true)

/-- No anchor signed `x`, nor a key that may sign records about others, nor, for a revocation, the
key it revokes. -/
def Unauthentic (N : Node) (kr : Keyring) (x : Record) : Prop :=
  ∀ id p, Authorised N kr id ∨ IsRevocation N id x → kr.pubOf N id = .ok (some p) →
    (Cose.verify1 N x.item (some p)).isOk = false

section Addition

variable (ha : Adds kr kr' x)

include ha

theorem Adds.get?_anchors (id : KeyId) : kr'.anchors.get? id = kr.anchors.get? id := by rw [ha.anchors]

theorem Adds.readable (h : ∀ r ∈ kr.records.values, Readable N r) (hx : Readable N x) :
    ∀ r ∈ kr'.records.values, Readable N r := by
  intro r hr
  rw [ha.values, List.mem_append, List.mem_singleton] at hr
  rcases hr with hr | rfl
  · exact h r hr
  · exact hx

/-- A scan finds what it found before, and `x` when it is about the same key. -/
theorem Adds.keyRecords (h : ∀ r ∈ kr.records.values, Readable N r) (hx : Readable N x) (id : KeyId)
    {rs : List Record} (hrs : kr.keyRecords N id = .ok rs) :
    kr'.keyRecords N id = .ok (rs ++ [x].filter (passes (isKeyRecordOf N id))) := by
  rw [keyRecords_returns (ha.readable h hx), ha.values, List.filter_append,
    (filterOutcome_eq_ok.mp hrs).2]

theorem Adds.revocations (h : ∀ r ∈ kr.records.values, Readable N r) (hx : Readable N x) (id : KeyId)
    {rs : List Record} (hrs : kr.revocations N id = .ok rs) :
    kr'.revocations N id = .ok (rs ++ [x].filter (passes (isRevocationOf N id))) := by
  rw [revocations_returns (ha.readable h hx), ha.values, List.filter_append,
    (filterOutcome_eq_ok.mp hrs).2]

theorem Adds.grows : Grows kr kr' :=
  ⟨ha.anchors, ha.skewMs, _, _, ha.values, List.forall₂_same.mpr fun r _ => resighted_refl r⟩

theorem Adds.pubOf_eq (h : ∀ r ∈ kr.records.values, Readable N r) (hx : Readable N x) {id : KeyId}
    (hk : Known N kr id) : kr'.pubOf N id = kr.pubOf N id := by
  obtain ⟨p, hp⟩ := hk
  rw [hp, ha.grows.pubOf (ha.readable h hx) hp]

theorem Adds.signed_iff (h : ∀ r ∈ kr.records.values, Readable N r) (hx : Readable N x)
    {id : KeyId} (hk : Known N kr id) (r : Record) : Signed N kr' r id ↔ Signed N kr r id := by
  unfold Signed
  rw [ha.pubOf_eq h hx hk]

theorem Adds.inWindow (f : RecordFields) (t : JsVal) :
    kr'.inWindow N f t = kr.inWindow N f t := by
  unfold Keyring.inWindow
  rw [ha.skewMs]

theorem Adds.holderInWindow (h : Holder) (t : JsVal) :
    kr'.holderInWindow N h t = kr.holderInWindow N h t := by
  cases h with
  | anchor a => rfl
  | record r => exact ha.inWindow r.f t

theorem Adds.checkUse (c : Chain) (eid t : JsVal) (role : Nat) :
    kr'.checkUse N c eid t role = kr.checkUse N c eid t role := by
  unfold Keyring.checkUse
  cases c.holder with
  | anchor a => rfl
  | record r => simp only [ha.inWindow]

end Addition

/-! ## The two rings agree -/

/-- Two lookups accept the same chain, or both refuse. -/
def SameChain (v v' : Outcome ChainResult) : Prop := ∀ c, v = .ok (.ok c) ↔ v' = .ok (.ok c)

/-- The lookups of the two rings at one depth. -/
structure Agree (N : Node) (kr kr' : Keyring) (left : Nat) : Prop where
  chain : ∀ id, SameChain (kr.chainAt N left id) (kr'.chainAt N left id)
  chainReturns : ∀ id, ∃ v, kr'.chainAt N left id = .ok v
  revoked : ∀ id, Known N kr id → kr'.revokedAt N left id = kr.revokedAt N left id
  revokedReturns : ∀ id, ∃ T, kr'.revokedAt N left id = .ok T

theorem Agree.allowed_iff {left : Nat} (ha : kr'.anchors = kr.anchors) (ih : Agree N kr kr' left)
    {target target' : ChainResult} {id signerId : KeyId}
    (ht : kr.chainAt N left id = .ok target) (ht' : kr'.chainAt N left id = .ok target') :
    Allowed N kr' (kr'.chainAt N left) target' id signerId ↔
      Allowed N kr (kr.chainAt N left) target id signerId := by
  have hsame : ∀ c, target = .ok c ↔ target' = .ok c := by
    intro c
    have := ih.chain id c
    rw [ht, ht'] at this
    simpa using this
  have hincl : target'.includes signerId = target.includes signerId := by
    cases target with
    | ok c => rw [(hsame c).mp rfl]
    | fail reason =>
        cases target' with
        | ok c => exact absurd ((hsame c).mpr rfl) (by simp)
        | fail reason' => rfl
  unfold Allowed
  rw [hincl, ha]
  simp only [← hsame, ← ih.chain signerId _]

/-- Whoever may revoke a known key is known. -/
theorem known_signer {left : Nat} {target : ChainResult} {id signerId : KeyId}
    (ht : kr.chainAt N left id = .ok target) (hk : Known N kr id)
    (hall : Allowed N kr (kr.chainAt N left) target id signerId) : Known N kr signerId := by
  rcases hall with rfl | hin | hanchor | ⟨s, c, hup, -⟩
  · exact hk
  · cases target with
    | fail reason => cases hin
    | ok c =>
        rcases mem_chain ht (by simpa [ChainResult.includes] using hin) with rfl | ⟨_, _, u, hu, _⟩
        · exact hk
        · exact known_of_chainAt hu
  · exact known_of_has hanchor
  · exact known_of_chainAt hup

/-- Whoever may revoke a key is the key itself or an authority. -/
theorem authorised_signer {left : Nat} (hleft : left < maxDepth) {target : ChainResult}
    {id signerId : KeyId}
    (ht : kr.chainAt N left id = .ok target)
    (hall : Allowed N kr (kr.chainAt N left) target id signerId) :
    signerId = id ∨ Authorised N kr signerId := by
  rcases hall with rfl | hin | hanchor | ⟨s, c, hup, hrole, -⟩
  · exact Or.inl rfl
  · cases target with
    | fail reason => cases hin
    | ok c =>
        rcases mem_chain ht (by simpa [ChainResult.includes] using hin) with
          rfl | ⟨below, hlt, u, hu, hrole⟩
        · exact Or.inl rfl
        · exact Or.inr (Or.inr ⟨below, le_of_lt (hlt.trans hleft), u, hu, Or.inl hrole⟩)
  · exact Or.inr (Or.inl hanchor)
  · exact Or.inr (Or.inr ⟨left, le_of_lt hleft, s, hup, Or.inr hrole⟩)

section Step

variable (ha : Adds kr kr' x) (hq : Quiet N kr) (hx : Readable N x) {left : Nat}
  (ih : Agree N kr kr' left)

include hq ih

theorem Agree.usable (hleft : left ≤ maxDepth) (id : KeyId) :
    ∃ v, kr'.chainAt N left id = .ok v ∧ ∀ c, v = .ok c → c.Readable N := by
  obtain ⟨v, hv⟩ := ih.chainReturns id
  refine ⟨v, hv, ?_⟩
  rintro c rfl
  exact hq.usable left hleft id c ((ih.chain id c).mpr hv)

include ha hx

/-- A record passes in one ring exactly when it passes in the other. -/
theorem Agree.accepts_iff {r : Record} {issuerId : KeyId} {u : Chain} :
    Accepts N kr (kr.chainAt N left) (kr.revokedAt N left) r issuerId u ↔
      Accepts N kr' (kr'.chainAt N left) (kr'.revokedAt N left) r issuerId u := by
  constructor
  · intro h
    have hk := known_of_chainAt h.anchored
    exact ⟨h.issuer, (ih.chain _ _).mp h.anchored, h.mayIssue,
      by rw [ha.pubOf_eq hq.readable hx hk]; exact h.signed,
      by rw [ha.holderInWindow]; exact h.inTime, by rw [ih.revoked _ hk]; exact h.seen⟩
  · intro h
    have hanchored := (ih.chain issuerId u).mpr h.anchored
    have hk := known_of_chainAt hanchored
    exact ⟨h.issuer, hanchored, h.mayIssue,
      by rw [← ha.pubOf_eq hq.readable hx hk]; exact h.signed,
      by rw [← ha.holderInWindow]; exact h.inTime, by rw [← ih.revoked _ hk]; exact h.seen⟩

theorem Agree.judge (id : KeyId) (r : Record) :
    accepted (kr'.judgeRecord N (kr'.chainAt N left) (kr'.revokedAt N left) id r) =
      accepted (kr.judgeRecord N (kr.chainAt N left) (kr.revokedAt N left) id r) := by
  ext c
  simp only [accepted_eq_some, judgeRecord_eq_ok, ih.accepts_iff ha hq hx]

variable (hun : Unauthentic N kr x) (hleft : left < maxDepth)

include hun hleft

/-- No authority signed `x`, so no chain ends in it. -/
theorem Agree.judge_x (id : KeyId) :
    accepted (kr'.judgeRecord N (kr'.chainAt N left) (kr'.revokedAt N left) id x) = none := by
  rw [ih.judge ha hq hx id x, Option.eq_none_iff_forall_not_mem]
  intro c hc
  obtain ⟨issuerId, u, hacc, -⟩ := judgeRecord_eq_ok.mp (accepted_eq_some.mp hc)
  obtain ⟨p, hp⟩ := known_of_chainAt hacc.anchored
  obtain ⟨pub, hpub, hsig⟩ := hacc.signed
  have hauth : Authorised N kr issuerId :=
    Or.inr ⟨left, le_of_lt hleft, u, hacc.anchored, Or.inl hacc.mayIssue⟩
  have hbad := hun issuerId p (Or.inl hauth) hp
  rw [hp] at hpub
  cases hpub
  rw [hbad] at hsig
  cases hsig

theorem Agree.chain_succ (id : KeyId) :
    SameChain (kr.chainAt N (left + 1) id) (kr'.chainAt N (left + 1) id) := by
  cases hget : kr.anchors.get? id with
  | some a =>
      intro c
      rw [chainAt_anchor hget, chainAt_anchor (ha.get?_anchors id ▸ hget)]
  | none =>
      have hget' : kr'.anchors.get? id = none := ha.get?_anchors id ▸ hget
      have hread' := ha.readable hq.readable hx
      have hrs := keyRecords_returns hq.readable id
      have hrs' := ha.keyRecords hq.readable hx id hrs
      have hj : ∀ r ∈ kr.records.values.filter (passes (isKeyRecordOf N id)), ∃ v,
          kr.judgeRecord N (kr.chainAt N left) (kr.revokedAt N left) id r = .ok v := by
        intro r hr
        have hmem := (mem_keyRecords hrs).mp hr
        exact judgeRecord_returns (hq.chains (le_of_lt hleft)) hq.readable
          (fun k => (lookups_return hq (le_of_lt hleft) k).2) id
          (hexable_issuer_of_key (hq.readable r hmem.1) hmem.2)
      have hj' : ∀ r ∈ kr.records.values.filter (passes (isKeyRecordOf N id)) ++
          [x].filter (passes (isKeyRecordOf N id)), ∃ v,
          kr'.judgeRecord N (kr'.chainAt N left) (kr'.revokedAt N left) id r = .ok v := by
        intro r hr
        have hmem := (mem_keyRecords hrs').mp hr
        exact judgeRecord_returns (ih.usable hq (le_of_lt hleft)) hread' ih.revokedReturns id
          (hexable_issuer_of_key (hread' r hmem.1) hmem.2)
      intro c
      rw [chainAt_succ_findSome hget hrs hj, chainAt_succ_findSome hget' hrs' hj',
        List.findSome?_append]
      -- `x` adds no chain at the end of the list
      have hlast : ([x].filter (passes (isKeyRecordOf N id))).findSome? (fun r => accepted
          (kr'.judgeRecord N (kr'.chainAt N left) (kr'.revokedAt N left) id r)) = none := by
        rw [List.findSome?_eq_none_iff]
        intro r hr
        rw [List.mem_singleton.mp (List.mem_of_mem_filter hr)]
        exact ih.judge_x ha hq hx hun hleft id
      rw [hlast, Option.or_none]
      simp only [ih.judge ha hq hx]

theorem Agree.revoked_succ {id : KeyId} (hk : Known N kr id) :
    kr'.revokedAt N (left + 1) id = kr.revokedAt N (left + 1) id := by
  obtain ⟨T, hT⟩ := (lookups_return hq hleft id).2
  obtain ⟨target, p, rs, ht, hp, hrs, hcount⟩ := revokedAt_succ_eq_ok.mp hT
  obtain ⟨target', ht'⟩ := ih.chainReturns id
  have hp' : kr'.pubOf N id = .ok p := (ha.pubOf_eq hq.readable hx hk).trans hp
  have hrs' := ha.revocations hq.readable hx id hrs
  have hread' := ha.readable hq.readable hx
  -- in both rings a revocation is signed by someone who may revoke `id`, or it is not
  have hiff : ∀ r, kr'.counts N (kr'.chainAt N left) target' p id r = .ok true ↔
      kr.counts N (kr.chainAt N left) target p id r = .ok true := by
    intro r
    rw [counts_eq_true hp, counts_eq_true hp']
    constructor
    · rintro ⟨signerId, hi, hs, hall⟩
      have hall := (ih.allowed_iff ha.anchors ht ht').mp hall
      have hks := known_signer ht hk hall
      exact ⟨signerId, hi, (ha.signed_iff hq.readable hx hks r).mp hs, hall⟩
    · rintro ⟨signerId, hi, hs, hall⟩
      have hks := known_signer ht hk hall
      exact ⟨signerId, hi, (ha.signed_iff hq.readable hx hks r).mpr hs,
        (ih.allowed_iff ha.anchors ht ht').mpr hall⟩
  have hup := hq.chains (le_of_lt hleft)
  have hcounts : ∀ r ∈ rs, kr'.counts N (kr'.chainAt N left) target' p id r =
      kr.counts N (kr.chainAt N left) target p id r := by
    intro r hr
    have hmem := (mem_revocations hrs).mp hr
    have hhex := hexable_issuer_of_revocation (hq.readable r hmem.1) hmem.2
    obtain ⟨b, hb⟩ := counts_returns hup hq.readable target p id hhex
    obtain ⟨b', hb'⟩ := counts_returns (ih.usable hq (le_of_lt hleft)) hread' target' p id hhex
    have hbb := hiff r
    rw [hb, hb'] at hbb
    have : b' = b := Bool.eq_iff_iff.mpr (by simpa using hbb)
    rw [hb, hb', this]
  have hlast : ∀ r ∈ [x].filter (passes (isRevocationOf N id)),
      kr'.counts N (kr'.chainAt N left) target' p id r = .ok false := by
    intro r hr
    obtain ⟨hmem, hpass⟩ := List.mem_filter.mp hr
    have hrx : r = x := List.mem_singleton.mp hmem
    subst hrx
    have hrev := isRevocationOf_eq_true.mp (passes_iff.mp hpass)
    obtain ⟨b, hb⟩ := counts_returns (ih.usable hq (le_of_lt hleft)) hread' target' p id
      (hexable_issuer_of_revocation hx hrev)
    cases b with
    | false => exact hb
    | true =>
        obtain ⟨signerId, -, ⟨pub, hpub, hsig⟩, hall⟩ := (counts_eq_true hp).mp ((hiff r).mp hb)
        have hbad : (Cose.verify1 N r.item (some pub)).isOk = false := by
          rcases authorised_signer hleft ht hall with rfl | hauth
          · exact hun _ pub (Or.inr hrev) hpub
          · exact hun _ pub (Or.inl hauth) hpub
        rw [hbad] at hsig
        cases hsig
  rw [hT]
  refine revokedAt_succ_eq_ok.mpr ⟨target', p, _, ht', hp', hrs', ?_⟩
  rw [countRevocations_append_of_false hlast, countRevocations_congr hcounts, hcount]

end Step

/-- **With `x` added, the lookups of the two rings agree at every depth.** -/
theorem agree (ha : Adds kr kr' x) (hq : Quiet N kr) (hx : Readable N x) (hun : Unauthentic N kr x)
    (left : Nat) (hleft : left ≤ maxDepth) : Agree N kr kr' left := by
  induction left with
  | zero =>
      refine ⟨fun id c => ?_, fun id => (lookups_return_zero id).1, fun id _ => ?_,
        fun id => (lookups_return_zero id).2⟩
      · cases hget : kr.anchors.get? id with
        | some a => rw [chainAt_anchor hget, chainAt_anchor (ha.get?_anchors id ▸ hget)]
        | none => rw [chainAt_zero hget, chainAt_zero (ha.get?_anchors id ▸ hget)]
      · unfold revokedAt
        rfl
  | succ left ih =>
      have ih := ih (le_of_lt hleft)
      have hret := lookups_return_succ (ha.readable hq.readable hx) (ih.usable hq (le_of_lt hleft))
        ih.revokedReturns
      exact ⟨ih.chain_succ ha hq hx hun hleft, fun id => (hret id).1,
        fun id hk => ih.revoked_succ ha hq hx hun hleft hk, fun id => (hret id).2⟩

/-! ## Verdicts -/

/-- No verdict of `kr` has changed in `kr'`, and no query of `kr'` throws. -/
structure Unpoisoned (N : Node) (kr kr' : Keyring) : Prop where
  verdict : ∀ pub eid t role, SameVerdict (kr.status N pub eid t role) (kr'.status N pub eid t role)
  status : ∀ pub eid t role, ∃ s, kr'.status N pub eid t role = .ok s
  chainOf : ∀ id, ∃ v, kr'.chainOf N id = .ok v
  revokedFrom : ∀ id, ∃ T, kr'.revokedFrom N id = .ok T
  pubsFor : ∀ eid, ∃ ps, kr'.pubsFor eid = .ok ps
  forCarriage : ∀ ids, ∃ items, kr'.forCarriage N ids = .ok items

theorem quiet_of_adds (ha : Adds kr kr' x) (hq : Quiet N kr) (hx : Readable N x)
    (hun : Unauthentic N kr x) : Quiet N kr' :=
  ⟨ha.readable hq.readable hx, fun left hleft id c hc =>
    hq.usable left hleft id c (((agree ha hq hx hun left hleft).chain id c).mpr hc)⟩

theorem sameVerdict_of_adds (ha : Adds kr kr' x) (hq : Quiet N kr) (hx : Readable N x)
    (hun : Unauthentic N kr x) (pub : Pub) (eid t : JsVal) (role : Nat) :
    SameVerdict (kr.status N pub eid t role) (kr'.status N pub eid t role) := by
  have hag := agree ha hq hx hun maxDepth le_rfl
  intro T anchor k
  rw [status_eq_ok, status_eq_ok]
  constructor
  · rintro ⟨c, hc, ho, hT, hrest⟩
    refine ⟨c, (hag.chain _ c).mp hc, (ha.checkUse c eid t role).trans ho, ?_, hrest⟩
    exact (hag.revoked _ (known_of_chainAt hc)).trans hT
  · rintro ⟨c, hc, ho, hT, hrest⟩
    have hc := (hag.chain _ c).mpr hc
    refine ⟨c, hc, (ha.checkUse c eid t role).symm.trans ho, ?_, hrest⟩
    exact (hag.revoked _ (known_of_chainAt hc)).symm.trans hT

theorem unpoisoned_of_quiet (hq : Quiet N kr')
    (h : ∀ pub eid t role, SameVerdict (kr.status N pub eid t role) (kr'.status N pub eid t role)) :
    Unpoisoned N kr kr' :=
  ⟨h, status_returns hq, fun id => (lookups_return hq le_rfl id).1,
    fun id => (lookups_return hq le_rfl id).2, pubsFor_returns hq, forCarriage_returns hq⟩

/-! ## Runs -/

theorem adds_of_add {item : Cbor} {seenAt : Int} (h : kr.add N item seenAt = .ok (kr', true)) :
    ∃ f, recordFields item = .ok f ∧ Adds kr kr' ⟨item, f, seenAt⟩ := by
  unfold add at h
  cases hf : recordFields item with
  | error e => rw [hf] at h; cases h
  | ok f =>
      rw [hf] at h
      by_cases hk : (!f.kind.isInt kindKey && !f.kind.isInt kindRevoke) = true
      · simp [hk] at h
      · simp only [hk, if_false, Bool.false_eq_true] at h
        obtain ⟨k, hk, h⟩ := Outcome.bind_eq_ok.mp h
        cases hg : kr.records.get? k with
        | some r =>
            rw [hg] at h
            by_cases hs : seenAt < r.seenAt
            · simp [hs] at h
            · simp [hs] at h
        | none =>
            rw [hg] at h
            cases h
            refine ⟨f, rfl, rfl, rfl, ?_⟩
            show (JsMap.entries (JsMap.set _ _ _)).map Prod.snd = _
            rw [JsMap.entries_set_of_not_has (by simp [JsMap.has, hg]), List.map_append]
            rfl

/-- Items that `add` accepts one after the other, none of them signed by an authority of the ring it
arrives at, all of them readable. -/
def Inert (N : Node) : Keyring → List (Cbor × Int) → Prop
  | _, [] => True
  | kr, a :: as => kr.add N a.1 a.2 = .ok (kr.receive N a, true) ∧
      (∀ f, recordFields a.1 = .ok f → Unauthentic N kr ⟨a.1, f, a.2⟩ ∧ Readable N ⟨a.1, f, a.2⟩) ∧
      Inert N (kr.receive N a) as

/-- **Readable records that no authority signed change no verdict and make no query throw**, however
many of them a ring on which no lookup throws is given. -/
theorem unauthenticated_records_are_inert {as : List (Cbor × Int)} (hq : Quiet N kr)
    (h : Inert N kr as) : Quiet N (kr.receiveAll N as) ∧ Unpoisoned N kr (kr.receiveAll N as) := by
  induction as generalizing kr with
  | nil => exact ⟨hq, unpoisoned_of_quiet hq fun _ _ _ _ _ _ _ => Iff.rfl⟩
  | cons a as ih =>
      obtain ⟨hadd, hrec, hrest⟩ := h
      obtain ⟨f, hf, ha⟩ := adds_of_add hadd
      obtain ⟨hun, hx⟩ := hrec f hf
      obtain ⟨hq', hun'⟩ := ih (quiet_of_adds ha hq hx hun) hrest
      refine ⟨hq', unpoisoned_of_quiet hq' fun pub eid t role T anchor k => ?_⟩
      exact (sameVerdict_of_adds ha hq hx hun pub eid t role T anchor k).trans
        (hun'.verdict pub eid t role T anchor k)

/-- One anchor and nothing else. -/
def sampleRing : Keyring := Keyring.new sampleNode [⟨"operator", some "ipn:1.0", (samplePair 1).pub⟩]

theorem empty_signature_fails {prot payload : Bytes} {unprot : List (Cbor × Cbor)} (p : Option Pub) :
    (Cose.verify1 sampleNode (.array [.bytes prot, .map unprot, .bytes payload, .bytes []]) p).isOk =
      false := by
  cases hv : Cose.verify1 sampleNode (.array [.bytes prot, .map unprot, .bytes payload, .bytes []]) p with
  | fail reason => rfl
  | ok q =>
      obtain ⟨_, _, _, sig, pub, hitem, -, -, -, hs⟩ := Cose.verify1_ok _ hv
      cases hitem
      unfold Cose.signatureValid at hs
      split at hs
      · simp [sampleNode, sampleHash] at hs
      · cases hs

/-- `{1: 2, 8: h'09', 10: h'02'}` with an empty signature: a revocation, well formed and forged. -/
def forgedRevocation : Cbor :=
  .array [.bytes Cose.protectedHeader, .map [],
    .bytes [0xa3, 0x01, 0x02, 0x08, 0x41, 0x09, 0x0a, 0x41, 0x02], .bytes []]

theorem forgedRevocation_is_inert :
    Quiet sampleNode (sampleRing.receiveAll sampleNode [(forgedRevocation, 5)]) ∧
      Unpoisoned sampleNode sampleRing
        (sampleRing.receiveAll sampleNode [(forgedRevocation, 5)]) := by
  have hquiet : Quiet sampleNode sampleRing := quiet_of_wellTyped (by rintro r ⟨⟩)
  refine unauthenticated_records_are_inert hquiet ⟨rfl, fun f hf => ⟨?_, ?_⟩, trivial⟩
  · exact fun id p _ _ => empty_signature_fails (some p)
  · have hfields : recordFields forgedRevocation = .ok (fieldsOf
        [(.int 1, .int 2), (.int 8, .bytes [9]), (.int 10, .bytes [2])]) := by rfl
    rw [hfields] at hf
    cases hf
    refine ⟨?_, fun _ => ⟨[2], rfl⟩, fun _ => ⟨[9], rfl⟩⟩
    rintro ⟨⟩

/-- A revocation that names no key, with an empty signature. -/
def untargetedRevocation : Cbor :=
  .array [.bytes Cose.protectedHeader, .map [], .bytes [0xa1, 0x01, 0x02], .bytes []]

theorem untargeted_revocation_poisons :
    sampleRing.add sampleNode untargetedRevocation 5 =
        .ok (sampleRing.receive sampleNode (untargetedRevocation, 5), true) ∧
      (∀ f, recordFields untargetedRevocation = .ok f →
        Unauthentic sampleNode sampleRing ⟨untargetedRevocation, f, 5⟩) ∧
      ¬ Unpoisoned sampleNode sampleRing (sampleRing.receive sampleNode (untargetedRevocation, 5)) := by
  refine ⟨rfl, fun f _ id p _ _ => empty_signature_fails (some p), fun h => ?_⟩
  obtain ⟨s, hs⟩ := h.status (samplePair 1).pub (some (.text "ipn:1.0")) (time 10) roleCustody
  have hthrows : (sampleRing.receive sampleNode (untargetedRevocation, 5)).status sampleNode
      (samplePair 1).pub (some (.text "ipn:1.0")) (time 10) = .error .typeError := by
    decide +kernel
  rw [hthrows] at hs
  cases hs

end Keyring

end DtnCustody
