/-
# DtnCustody.Keyring.Evidence — the rules over a set of records, and how the lookups meet them.

The specification states its rules about the records a verifier holds, not about the order it keeps
them in. `Evidence` is such a set with the anchors and the clock skew, and `HasChain` and `Revokes`
are the rules on it: a key has a chain when SOME record of it has one, a revocation counts when its
signer may revoke the key. Nothing here scans or stops early.

`chainOf` follows the first valid record of a key only. Where no key has two chains that would be used
differently (`Unambiguous`), the lookups meet the rules at every depth (`matches_evidence`).
-/
import DtnCustody.Keyring.Quiet

namespace DtnCustody

open Base Js

namespace Keyring

structure Evidence where
  anchors : JsMap KeyId Anchor
  skewMs : Int
  held : Set Record

/-- What a ring holds, without the order it holds it in. -/
def evidence (kr : Keyring) : Evidence := ⟨kr.anchors, kr.skewMs, {r | r ∈ kr.records.values}⟩

theorem mem_held_iff {kr : Keyring} {r : Record} : r ∈ kr.evidence.held ↔ r ∈ kr.records.values :=
  Iff.rfl

namespace Evidence

variable (N : Node) (E : Evidence)

/-- `p` is the public key of `id`: an anchor's, or else one that some key record gives. -/
def KeyOf (id : KeyId) (p : Pub) : Prop :=
  (∃ a, E.anchors.get? id = some a ∧ p = a.pub) ∨
    E.anchors.get? id = none ∧ ∃ r ∈ E.held, ∃ raw, IsKeyRecord N id r ∧
      r.f.pub = some (.bytes raw) ∧ p = spkiOf raw

def SignedBy (id : KeyId) (r : Record) : Prop :=
  ∃ p, E.KeyOf N id p ∧ (Cose.verify1 N r.item (some p)).isOk = true

/-- The window of a record, with the skew on both sides. -/
def InWindow (f : RecordFields) (t : JsVal) : Prop :=
  ∃ lo hi, f.notBefore.toPrim.sub N (.int E.skewMs) = .ok lo ∧
    f.notAfter.toPrim.add N (.int E.skewMs) = .ok hi ∧
    t.toPrim.ge N lo = true ∧ t.toPrim.le N hi = true

def HolderInWindow (h : Holder) (t : JsVal) : Prop :=
  match h with
  | .anchor _ => True
  | .record r => E.InWindow N r.f t

/-- The record `r` counts: its issuer has the chain `u`, with the issue role and inside its window at
`issuedAt`, it signed the record, and the record was seen before any revocation of the issuer. -/
structure Counts (up : KeyId → Chain → Prop) (rev : KeyId → Record → Prop) (r : Record)
    (issuerId : KeyId) (u : Chain) : Prop where
  issuer : r.f.issuer.bufferFrom N = .ok issuerId
  anchored : up issuerId u
  mayIssue : hasRole N u.roles roleIssue = .ok true
  signed : E.SignedBy N issuerId r
  inTime : E.HolderInWindow N u.holder r.f.issuedAt
  seen : ∀ q e, rev issuerId q → q.f.effectiveFrom = time e → r.seenAt < e

/-- The revocation `q` of `id` is signed by the key itself, a key of its issuing chain, an anchor, or
a key with the revoke role under the same anchor. -/
def MayRevoke (up : KeyId → Chain → Prop) (id : KeyId) (q : Record) : Prop :=
  q ∈ E.held ∧ IsRevocation N id q ∧ ∃ signerId, q.f.issuer.bufferFrom N = .ok signerId ∧
    E.SignedBy N signerId q ∧
    (signerId = id ∨ (∃ c, up id c ∧ signerId ∈ c.chain) ∨ E.anchors.has signerId = true ∨
      ∃ s c, up signerId s ∧ hasRole N s.roles roleRevoke = .ok true ∧ up id c ∧
        s.anchor = c.anchor)

mutual

/-- `c` is a chain of `id`, at most `left` keys above an anchor. -/
def HasChain : Nat → KeyId → Chain → Prop
  | 0, id, c => ∃ a, E.anchors.get? id = some a ∧ c = anchorChain id a
  | left + 1, id, c =>
      (∃ a, E.anchors.get? id = some a ∧ c = anchorChain id a) ∨
        E.anchors.get? id = none ∧ ∃ r ∈ E.held, IsKeyRecord N id r ∧ ∃ issuerId u,
          E.Counts N (HasChain left) (Revokes left) r issuerId u ∧
            c = ⟨.record r, u.anchor, id :: u.chain, r.f.roles⟩

/-- The revocation `q` of `id` counts, with `left` levels for the chains. -/
def Revokes : Nat → KeyId → Record → Prop
  | 0, _, _ => False
  | left + 1, id, q => E.MayRevoke N (HasChain left) id q

end

/-- The times from which `id` is revoked. -/
def revokedTimes (left : Nat) (id : KeyId) : Set Int :=
  {e | ∃ q, E.Revokes N left id q ∧ q.f.effectiveFrom = time e}

/-! ## Evidence that speaks with one voice -/

def SameHolder : Holder → Holder → Prop
  | .anchor a, .anchor b => a = b
  | .record r, .record q => r.f.subject = q.f.subject ∧ r.f.notBefore = q.f.notBefore ∧
      r.f.notAfter = q.f.notAfter
  | _, _ => False

/-- Two chains of a key that every check treats alike. -/
structure SameUse (c d : Chain) : Prop where
  holder : SameHolder c.holder d.holder
  anchor : c.anchor = d.anchor
  chain : c.chain = d.chain
  roles : c.roles = d.roles

/-- No key has two chains of different use, and no id two public keys. -/
structure Unambiguous : Prop where
  chain : ∀ left ≤ maxDepth, ∀ id c d, E.HasChain N left id c → E.HasChain N left id d → SameUse c d
  key : ∀ id p q, E.KeyOf N id p → E.KeyOf N id q → p = q

/-- The records can be read, and those the rules rest on have usable roles, windows and times. -/
structure WellFormed : Prop where
  readable : ∀ r ∈ E.held, Readable N r
  usable : ∀ left ≤ maxDepth, ∀ id c, E.HasChain N left id c → c.Readable N
  dated : ∀ left ≤ maxDepth, ∀ id q, E.Revokes N left id q → Dated q

variable {N E}

theorem hasChain_anchor {left : Nat} {id : KeyId} {a : Anchor} {c : Chain}
    (ha : E.anchors.get? id = some a) : E.HasChain N left id c ↔ c = anchorChain id a := by
  cases left with
  | zero =>
      unfold HasChain
      simp [ha]
  | succ left =>
      unfold HasChain
      simp [ha]

theorem not_hasChain_zero {id : KeyId} {c : Chain} (ha : E.anchors.get? id = none) :
    ¬ E.HasChain N 0 id c := by
  unfold HasChain
  simp [ha]

theorem hasChain_succ {left : Nat} {id : KeyId} {c : Chain} (ha : E.anchors.get? id = none) :
    E.HasChain N (left + 1) id c ↔ ∃ r ∈ E.held, IsKeyRecord N id r ∧ ∃ issuerId u,
      E.Counts N (E.HasChain N left) (E.Revokes N left) r issuerId u ∧
        c = ⟨.record r, u.anchor, id :: u.chain, r.f.roles⟩ := by
  conv_lhs => unfold HasChain
  simp [ha]

theorem revokes_succ {left : Nat} {id : KeyId} {q : Record} :
    E.Revokes N (left + 1) id q ↔ E.MayRevoke N (E.HasChain N left) id q := by
  conv_lhs => unfold Revokes

end Evidence

/-! ## The lookups meet the rules -/

variable {N : Node} {kr : Keyring}

theorem inWindow_eq_true {f : RecordFields} {t : JsVal}
    (hlo : Numeric N f.notBefore) (hhi : Numeric N f.notAfter) :
    kr.inWindow N f t = .ok true ↔ kr.evidence.InWindow N f t := by
  obtain ⟨lo, hlo⟩ := (offset_returns (z := kr.skewMs) hlo).1
  obtain ⟨hi, hhi⟩ := (offset_returns (z := kr.skewMs) hhi).2
  unfold inWindow Evidence.InWindow
  simp only [evidence, hlo, hhi, Outcome.ok_bind, Outcome.pure_eq_ok, Except.ok.injEq,
    exists_eq_left', exists_and_left]
  cases t.toPrim.ge N lo with
  | false => simp
  | true => simp

theorem holderInWindow_eq_true {c : Chain} (h : c.Readable N) {t : JsVal} :
    kr.holderInWindow N c.holder t = .ok true ↔ kr.evidence.HolderInWindow N c.holder t := by
  cases hh : c.holder with
  | anchor a => simp [holderInWindow, Evidence.HolderInWindow]
  | record r => exact inWindow_eq_true (h.notBefore r hh) (h.notAfter r hh)

/-- The key the ring uses for an id is one of the evidence. -/
theorem keyOf_of_pubOf {id : KeyId} {p : Pub} (h : kr.pubOf N id = .ok (some p)) :
    kr.evidence.KeyOf N id p := by
  cases ha : kr.anchors.get? id with
  | some a =>
      rw [pubOf_anchor ha] at h
      cases h
      exact Or.inl ⟨a, ha, rfl⟩
  | none =>
      obtain ⟨rs, hrs, hmatch⟩ := (pubOf_record ha).mp h
      cases rs with
      | nil => cases hmatch
      | cons r rs =>
          obtain ⟨raw, hraw, hp⟩ := hmatch
          obtain ⟨hheld, hkey⟩ := (mem_keyRecords hrs).mp List.mem_cons_self
          exact Or.inr ⟨ha, r, hheld, raw, hkey, hraw, Option.some.inj hp⟩

/-- An id that the evidence has a key for is known to the ring. -/
theorem known_of_keyOf (hread : ∀ r ∈ kr.records.values, Readable N r) {id : KeyId} {p : Pub}
    (h : kr.evidence.KeyOf N id p) : Known N kr id := by
  rcases h with ⟨a, ha, rfl⟩ | ⟨ha, r, hheld, raw, hkey, -, -⟩
  · exact ⟨a.pub, pubOf_anchor ha⟩
  · have hrs := keyRecords_returns hread id
    have hr : r ∈ kr.records.values.filter (passes (isKeyRecordOf N id)) :=
      (mem_keyRecords hrs).mpr ⟨hheld, hkey⟩
    cases hl : kr.records.values.filter (passes (isKeyRecordOf N id)) with
    | nil => rw [hl] at hr; cases hr
    | cons q qs =>
        rw [hl] at hrs
        obtain ⟨-, raw', hraw', -⟩ := ((mem_keyRecords hrs).mp List.mem_cons_self).2
        exact ⟨spkiOf raw', (pubOf_record ha).mpr ⟨_, hrs, raw', hraw', rfl⟩⟩

theorem signed_iff (hread : ∀ r ∈ kr.records.values, Readable N r)
    (hu : kr.evidence.Unambiguous N) {id : KeyId} {r : Record} :
    Signed N kr r id ↔ kr.evidence.SignedBy N id r := by
  constructor
  · rintro ⟨p, hp, hsig⟩
    exact ⟨p, keyOf_of_pubOf hp, hsig⟩
  · rintro ⟨p, hp, hsig⟩
    obtain ⟨q, hq⟩ := known_of_keyOf hread hp
    obtain rfl := hu.key id p q hp (keyOf_of_pubOf hq)
    exact ⟨p, hq, hsig⟩

theorem verify1_none (item : Cbor) (aad : Bytes) (d : Option Bytes) :
    (Cose.verify1 N item none aad d).isOk = false := by
  cases h : Cose.verify1 N item none aad d with
  | fail reason => rfl
  | ok p =>
      obtain ⟨_, _, _, _, pub, -, -, hpub, -⟩ := Cose.verify1_ok N h
      cases hpub

/-- What the lookups at one depth have to do with the rules. -/
structure Matches (N : Node) (kr : Keyring) (left : Nat) : Prop where
  chain : ∀ id, ∃ v, kr.chainAt N left id = .ok v ∧
    (∀ c, v = .ok c → kr.evidence.HasChain N left id c) ∧
    ∀ c, kr.evidence.HasChain N left id c → ∃ d, v = .ok d ∧ Evidence.SameUse c d
  revoked : ∀ id, ∃ T, kr.revokedAt N left id = .ok T ∧
    Earliest T (kr.evidence.revokedTimes N left id)

/-- At an anchor the lookup and the rules give the same chain at every depth. -/
theorem matches_anchor {left : Nat} {id : KeyId} {a : Anchor} (ha : kr.anchors.get? id = some a) :
    ∃ v, kr.chainAt N left id = .ok v ∧
      (∀ c, v = .ok c → kr.evidence.HasChain N left id c) ∧
      ∀ c, kr.evidence.HasChain N left id c → ∃ d, v = .ok d ∧ Evidence.SameUse c d := by
  have ha' : kr.evidence.anchors.get? id = some a := ha
  refine ⟨_, chainAt_anchor ha, ?_, ?_⟩
  · rintro c ⟨rfl⟩
    exact (Evidence.hasChain_anchor ha').mpr rfl
  · intro c hc
    obtain rfl := (Evidence.hasChain_anchor ha').mp hc
    exact ⟨_, rfl, rfl, rfl, rfl, rfl⟩

theorem Matches.hasChain {left : Nat} (ih : Matches N kr left) {id : KeyId} {c : Chain}
    (h : kr.chainAt N left id = .ok (.ok c)) :
    kr.evidence.HasChain N left id c := by
  obtain ⟨v, hv, hsound, -⟩ := ih.chain id
  obtain rfl : v = .ok c := Except.ok.inj (hv.symm.trans h)
  exact hsound c rfl

theorem Matches.chainAt {left : Nat} (ih : Matches N kr left) {id : KeyId} {c : Chain}
    (h : kr.evidence.HasChain N left id c) :
    ∃ d, kr.chainAt N left id = .ok (.ok d) ∧ Evidence.SameUse c d := by
  obtain ⟨v, hv, -, hcomplete⟩ := ih.chain id
  obtain ⟨d, rfl, hsame⟩ := hcomplete c h
  exact ⟨d, hv, hsame⟩

/-- A revocation that stands in the ring is one that the rules count, and the other way round. -/
theorem Matches.stands_iff {left : Nat} (ih : Matches N kr left) (hw : kr.evidence.WellFormed N)
    (hu : kr.evidence.Unambiguous N) {id : KeyId} {q : Record} :
    Stands N kr left id q ↔ kr.evidence.Revokes N (left + 1) id q := by
  rw [Evidence.revokes_succ]
  constructor
  · rintro ⟨hheld, hrev, target, signerId, ht, hi, hs, hall⟩
    refine ⟨hheld, hrev, signerId, hi, (signed_iff hw.readable hu).mp hs, ?_⟩
    rcases hall with hself | hin | hanchor | ⟨s, c, hup, hrole, rfl, heq⟩
    · exact Or.inl hself
    · cases target with
      | fail reason => cases hin
      | ok c =>
          exact Or.inr (Or.inl ⟨c, ih.hasChain ht, by simpa [ChainResult.includes] using hin⟩)
    · exact Or.inr (Or.inr (Or.inl hanchor))
    · exact Or.inr (Or.inr (Or.inr ⟨s, c, ih.hasChain hup, hrole, ih.hasChain ht,
        heq⟩))
  · rintro ⟨hheld, hrev, signerId, hi, hs, hall⟩
    obtain ⟨target, ht, -⟩ := ih.chain id
    refine ⟨hheld, hrev, target, signerId, ht, hi, (signed_iff hw.readable hu).mpr hs, ?_⟩
    rcases hall with hself | ⟨c, hc, hin⟩ | hanchor | ⟨s, c, hup, hrole, hc, heq⟩
    · exact Or.inl hself
    · obtain ⟨d, hd, hsame⟩ := ih.chainAt hc
      obtain rfl : target = .ok d := Except.ok.inj (ht.symm.trans hd)
      exact Or.inr (Or.inl (by simpa [ChainResult.includes, ← hsame.chain] using hin))
    · exact Or.inr (Or.inr (Or.inl hanchor))
    · obtain ⟨d, hd, hsame⟩ := ih.chainAt hc
      obtain ⟨s', hs', hsame'⟩ := ih.chainAt hup
      obtain rfl : target = .ok d := Except.ok.inj (ht.symm.trans hd)
      refine Or.inr (Or.inr (Or.inr ⟨s', d, hs', hsame'.roles ▸ hrole, rfl, ?_⟩))
      rw [← hsame'.anchor, ← hsame.anchor, heq]

section Step

variable (hw : kr.evidence.WellFormed N) (hu : kr.evidence.Unambiguous N) {left : Nat}
  (hleft : left < maxDepth) (ih : Matches N kr left)

include hw hleft ih

theorem Matches.usable (id : KeyId) :
    ∃ v, kr.chainAt N left id = .ok v ∧ ∀ c, v = .ok c → c.Readable N := by
  obtain ⟨v, hv, hsound, -⟩ := ih.chain id
  exact ⟨v, hv, fun c hc => hw.usable left (le_of_lt hleft) id c (hsound c hc)⟩

include hu

/-- A record passes the loop of `chainOf` exactly when the rules count it. -/
theorem Matches.counts_of_accepts {r : Record} {issuerId : KeyId} {u : Chain}
    (h : Accepts N kr (kr.chainAt N left) (kr.revokedAt N left) r issuerId u) :
    kr.evidence.Counts N (kr.evidence.HasChain N left) (kr.evidence.Revokes N left) r issuerId u := by
  have hchain := ih.hasChain h.anchored
  have husable := hw.usable left (le_of_lt hleft) issuerId u hchain
  obtain ⟨p, hp, hsig⟩ := h.signed
  refine ⟨h.issuer, hchain, h.mayIssue, ?_, (holderInWindow_eq_true husable).mp h.inTime, ?_⟩
  · cases p with
    | none => rw [verify1_none] at hsig; cases hsig
    | some p => exact (signed_iff hw.readable hu).mp ⟨p, hp, hsig⟩
  · intro q e hq he
    obtain ⟨T, hT, hseen⟩ := h.seen
    obtain ⟨T', hT', hearliest⟩ := ih.revoked issuerId
    obtain rfl : T = T' := Except.ok.inj (hT.symm.trans hT')
    have hmem : e ∈ kr.evidence.revokedTimes N left issuerId := ⟨q, hq, he⟩
    rcases hearliest with ⟨-, hempty⟩ | ⟨z, rfl, hz, hle⟩
    · rw [hempty] at hmem; cases hmem
    · obtain ⟨q', hq', hz'⟩ := hz
      obtain ⟨z', hzz, hnum⟩ := hw.dated left (le_of_lt hleft) issuerId q' hq'
      obtain rfl : z = z' := by rw [hz'] at hzz; simpa [time] using hzz
      exact lt_of_lt_of_le (seen_before hnum hseen) (hle hmem)

theorem Matches.accepts_of_counts {r : Record} {issuerId : KeyId} {u : Chain}
    (h : kr.evidence.Counts N (kr.evidence.HasChain N left) (kr.evidence.Revokes N left) r issuerId
      u) :
    ∃ d, Accepts N kr (kr.chainAt N left) (kr.revokedAt N left) r issuerId d ∧
      Evidence.SameUse u d := by
  obtain ⟨d, hd, hsame⟩ := ih.chainAt h.anchored
  have husable := hw.usable left (le_of_lt hleft) issuerId d (ih.hasChain hd)
  obtain ⟨p, hp, hsig⟩ := (signed_iff hw.readable hu).mpr h.signed
  refine ⟨d, ⟨h.issuer, hd, hsame.roles ▸ h.mayIssue, ⟨_, hp, hsig⟩, ?_, ?_⟩, hsame⟩
  · refine (holderInWindow_eq_true husable).mpr ?_
    -- the window is that of the holder of `u`
    have htime := h.inTime
    have hholder := hsame.holder
    revert htime hholder
    cases u.holder with
    | anchor a => cases d.holder with
        | anchor b => exact fun _ _ => trivial
        | record q => exact fun _ h => h.elim
    | record r => cases d.holder with
        | anchor b => exact fun _ h => h.elim
        | record q =>
            rintro ⟨lo, hi, hlo, hhi, hge, hle⟩ ⟨-, hb, ha⟩
            exact ⟨lo, hi, hb ▸ hlo, ha ▸ hhi, hge, hle⟩
  · obtain ⟨T, hT, hearliest⟩ := ih.revoked issuerId
    refine ⟨T, hT, ?_⟩
    rcases hearliest with ⟨rfl, -⟩ | ⟨z, rfl, hz, -⟩
    · rfl
    · obtain ⟨q', hq', hz'⟩ := hz
      obtain ⟨z', hzz, hnum⟩ := hw.dated left (le_of_lt hleft) issuerId q' hq'
      obtain rfl : z = z' := by rw [hz'] at hzz; simpa [time] using hzz
      have hlt := h.seen q' z hq' hz'
      unfold seenTooLate
      rw [show JsVal.toPrim (time z) = Prim.int z from Cbor.toPrim_int hnum, Prim.lt_int]
      simp [hlt]

theorem Matches.chain_succ (id : KeyId) : ∃ v, kr.chainAt N (left + 1) id = .ok v ∧
    (∀ c, v = .ok c → kr.evidence.HasChain N (left + 1) id c) ∧
    ∀ c, kr.evidence.HasChain N (left + 1) id c → ∃ d, v = .ok d ∧ Evidence.SameUse c d := by
  have hrev : ∀ k, ∃ T, kr.revokedAt N left k = .ok T := fun k => (ih.revoked k).imp fun _ h => h.1
  obtain ⟨v, hv⟩ := (lookups_return_succ hw.readable (ih.usable hw hleft) hrev id).1
  cases ha : kr.anchors.get? id with
  | some a => exact matches_anchor ha
  | none =>
      have ha' : kr.evidence.anchors.get? id = none := ha
      have hsound : ∀ c, v = .ok c → kr.evidence.HasChain N (left + 1) id c := by
        rintro c rfl
        obtain ⟨r, issuerId, u, hheld, hkey, hacc, rfl⟩ := chainAt_record hv ha
        exact (Evidence.hasChain_succ ha').mpr
          ⟨r, hheld, hkey, issuerId, u, ih.counts_of_accepts hw hu hleft hacc, rfl⟩
      refine ⟨v, hv, hsound, fun c hc => ?_⟩
      obtain ⟨r, hheld, hkey, issuerId, u, hcounts, -⟩ := (Evidence.hasChain_succ ha').mp hc
      obtain ⟨d, hacc, -⟩ := ih.accepts_of_counts hw hu hleft hcounts
      have hrs := keyRecords_returns hw.readable id
      have hr := (mem_keyRecords hrs).mpr ⟨hheld, hkey⟩
      have hj : ∀ q ∈ kr.records.values.filter (passes (isKeyRecordOf N id)), ∃ w,
          kr.judgeRecord N (kr.chainAt N left) (kr.revokedAt N left) id q = .ok w := by
        intro q hq
        have hmem := (mem_keyRecords hrs).mp hq
        exact judgeRecord_returns (ih.usable hw hleft) hw.readable hrev id
          (hexable_issuer_of_key (hw.readable q hmem.1) hmem.2)
      -- `r` passes, so the loop stops there or before
      have hsome : ((kr.records.values.filter (passes (isKeyRecordOf N id))).findSome? fun q =>
          accepted (kr.judgeRecord N (kr.chainAt N left) (kr.revokedAt N left) id q)).isSome := by
        rw [List.findSome?_isSome_iff]
        refine ⟨r, hr, ?_⟩
        rw [accepted_eq_some.mpr (judgeRecord_eq_ok.mpr ⟨issuerId, d, hacc, rfl⟩)]
        rfl
      obtain ⟨c', hc'⟩ := Option.isSome_iff_exists.mp hsome
      have hok := (chainAt_succ_findSome ha hrs hj).mpr hc'
      obtain rfl : v = .ok c' := Except.ok.inj (hv.symm.trans hok)
      exact ⟨c', rfl, hu.chain (left + 1) hleft id c c' hc (hsound c' rfl)⟩

theorem Matches.revoked_succ (id : KeyId) : ∃ T, kr.revokedAt N (left + 1) id = .ok T ∧
    Earliest T (kr.evidence.revokedTimes N (left + 1) id) := by
  have hrev : ∀ k, ∃ T, kr.revokedAt N left k = .ok T := fun k => (ih.revoked k).imp fun _ h => h.1
  obtain ⟨T, hT⟩ := (lookups_return_succ hw.readable (ih.usable hw hleft) hrev id).2
  refine ⟨T, hT, ?_⟩
  have hset : kr.evidence.revokedTimes N (left + 1) id = standingTimes N kr left id := by
    ext e
    simp only [Evidence.revokedTimes, standingTimes, Set.mem_ofPred_eq, ih.stands_iff hw hu]
  rw [hset]
  refine revokedAt_least (fun q hq => ?_) hT
  exact hw.dated (left + 1) hleft id q ((ih.stands_iff hw hu).mp hq)

end Step

/-- **Over unambiguous evidence the lookups meet the rules at every depth.** -/
theorem matches_evidence (hw : kr.evidence.WellFormed N) (hu : kr.evidence.Unambiguous N) {left : Nat}
    (hleft : left ≤ maxDepth) : Matches N kr left := by
  induction left with
  | zero =>
      constructor
      · intro id
        cases ha : kr.anchors.get? id with
        | some a => exact matches_anchor ha
        | none =>
            refine ⟨_, chainAt_zero ha, ?_, fun c hc => ?_⟩
            · rintro c ⟨⟩
            · exact absurd hc (Evidence.not_hasChain_zero ha)
      · intro id
        refine ⟨some .null, by unfold revokedAt; rfl, Or.inl ⟨rfl, ?_⟩⟩
        ext e
        simp [Evidence.revokedTimes, Evidence.Revokes]
  | succ left ih =>
      have ih := ih (le_of_lt hleft)
      exact ⟨ih.chain_succ hw hu hleft, ih.revoked_succ hw hu hleft⟩

end Keyring

end DtnCustody
