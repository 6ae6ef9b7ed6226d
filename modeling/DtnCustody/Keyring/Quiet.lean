/-
# DtnCustody.Keyring.Quiet — rings whose lookups do not throw.

A lookup scans every record of the ring, so one field of the wrong type makes it throw. `Readable` is
the shape a scan needs; the checks of `chainOf` also compute with the roles and the window of the keys
they accept, and `Quiet` asks that these are no BigInts. On a quiet ring every lookup returns
(`lookups_return`), and so does every query (`queries_return`).
-/
import DtnCustody.Keyring.Lookup

namespace DtnCustody

open Base Js

namespace Keyring

variable {N : Node} {kr : Keyring}

/-- A field that `hex` can read. -/
def Hexable (N : Node) (v : JsVal) : Prop := ∃ b, v.bufferFrom N = .ok b

/-- A field that arithmetic can read: anything but a BigInt. -/
def Numeric (N : Node) (v : JsVal) : Prop := ∃ x, v.toPrim.toNumber N = .ok x

/-- A record that every scan of the ring can read. -/
structure Readable (N : Node) (r : Record) : Prop where
  pub : r.f.kind = some (.int kindKey) → r.f.pub.truthy = true → ∃ raw, r.f.pub = some (.bytes raw)
  target : r.f.kind = some (.int kindRevoke) → Hexable N r.f.target
  issuer : r.f.kind = some (.int kindKey) ∧ r.f.pub.truthy = true ∨
    r.f.kind = some (.int kindRevoke) → Hexable N r.f.issuer

/-- A chain on which the checks of a level above do not throw. -/
structure Chain.Readable (N : Node) (c : Chain) : Prop where
  roles : Numeric N (some c.roles)
  notBefore : ∀ r, c.holder = .record r → Numeric N r.f.notBefore
  notAfter : ∀ r, c.holder = .record r → Numeric N r.f.notAfter

/-- A ring on which no lookup throws. -/
structure Quiet (N : Node) (kr : Keyring) : Prop where
  readable : ∀ r ∈ kr.records.values, Keyring.Readable N r
  usable : ∀ left ≤ maxDepth, ∀ id c, kr.chainAt N left id = .ok (.ok c) → c.Readable N

/-! ## Scans -/

section Scans

variable (h : ∀ r ∈ kr.records.values, Readable N r)

theorem isKeyRecordOf_returns {r : Record} (h : Readable N r) (id : KeyId) :
    ∃ b, isKeyRecordOf N id r = .ok b := by
  unfold isKeyRecordOf
  split
  · rename_i hk
    rw [Bool.and_eq_true, JsVal.isInt_iff] at hk
    obtain ⟨raw, hraw⟩ := h.pub hk.1 hk.2
    rw [spkiOfField_eq_ok.mpr ⟨raw, hraw, rfl⟩]
    exact ⟨_, rfl⟩
  · exact ⟨_, rfl⟩

theorem isRevocationOf_returns {r : Record} (h : Readable N r) (id : KeyId) :
    ∃ b, isRevocationOf N id r = .ok b := by
  unfold isRevocationOf
  split
  · rename_i hk
    obtain ⟨b, hb⟩ := h.target (JsVal.isInt_iff.mp hk)
    rw [hb]
    exact ⟨_, rfl⟩
  · exact ⟨_, rfl⟩

include h

theorem keyRecords_returns (id : KeyId) :
    kr.keyRecords N id = .ok (kr.records.values.filter (passes (isKeyRecordOf N id))) :=
  filterOutcome_eq_ok.mpr ⟨fun r hr => isKeyRecordOf_returns (h r hr) id, rfl⟩

theorem revocations_returns (id : KeyId) :
    kr.revocations N id = .ok (kr.records.values.filter (passes (isRevocationOf N id))) :=
  filterOutcome_eq_ok.mpr ⟨fun r hr => isRevocationOf_returns (h r hr) id, rfl⟩

theorem pubOf_returns (id : KeyId) : ∃ p, kr.pubOf N id = .ok p := by
  cases ha : kr.anchors.get? id with
  | some a => exact ⟨_, pubOf_anchor ha⟩
  | none =>
      have hrs := keyRecords_returns h id
      cases hl : kr.records.values.filter (passes (isKeyRecordOf N id)) with
      | nil => exact ⟨none, (pubOf_record ha).mpr ⟨_, hrs, by rw [hl]⟩⟩
      | cons r rs =>
          rw [hl] at hrs
          obtain ⟨_, raw, hraw, _⟩ := ((mem_keyRecords hrs).mp List.mem_cons_self).2
          exact ⟨_, (pubOf_record ha).mpr ⟨_, hrs, raw, hraw, rfl⟩⟩

end Scans

/-- A known id keeps its key, whatever is added. -/
theorem Grows.pubOf {kr' : Keyring} (hg : Grows kr kr')
    (h' : ∀ r ∈ kr'.records.values, Readable N r) {id : KeyId} {p : Pub}
    (hp : kr.pubOf N id = .ok (some p)) : kr'.pubOf N id = .ok (some p) := by
  cases hget : kr.anchors.get? id with
  | some a =>
      rw [pubOf_anchor hget] at hp
      rw [pubOf_anchor (hg.anchors ▸ hget), hp]
  | none =>
      obtain ⟨rs, hrs, hmatch⟩ := (pubOf_record hget).mp hp
      obtain ⟨vs, extra, hvals, hall⟩ := hg.records
      have hrs' := keyRecords_returns h' id
      rw [hvals, List.filter_append] at hrs'
      refine (pubOf_record (hg.anchors ▸ hget)).mpr ⟨_, hrs', ?_⟩
      -- the filtered lists start with the same record
      have hfilter : List.Forall₂ Resighted rs (vs.filter (passes (isKeyRecordOf N id))) := by
        rw [(filterOutcome_eq_ok.mp hrs).2]
        refine List.rel_filter (fun r q hrq => ?_) hall
        simp only [passes_iff, isKeyRecordOf_eq_true, IsKeyRecord, hrq.2.1]
      generalize vs.filter (passes (isKeyRecordOf N id)) = ls at hfilter ⊢
      cases hfilter with
      | nil => cases hmatch
      | cons h _ =>
          obtain ⟨raw, hraw, hpraw⟩ := hmatch
          exact ⟨raw, h.2.1 ▸ hraw, hpraw⟩

theorem hexable_issuer_of_key {id : KeyId} {r : Record} (h : Readable N r)
    (hk : IsKeyRecord N id r) : Hexable N r.f.issuer := by
  obtain ⟨hkind, raw, hraw, _⟩ := hk
  exact h.issuer (Or.inl ⟨hkind, by rw [hraw]; rfl⟩)

theorem hexable_issuer_of_revocation {id : KeyId} {r : Record} (h : Readable N r)
    (hk : IsRevocation N id r) : Hexable N r.f.issuer := h.issuer (Or.inr hk.1)

/-! ## Arithmetic -/

/-- What is a number can be moved by one, either way. -/
theorem offset_returns {x : Prim} {z : Int} (h : ∃ n, x.toNumber N = .ok n) :
    (∃ v, x.sub N (.int z) = .ok v) ∧ ∃ v, x.add N (.int z) = .ok v := by
  obtain ⟨n, hn⟩ := h
  cases x with
  | big w => cases hn
  | undef => exact ⟨⟨_, rfl⟩, _, rfl⟩
  | null => exact ⟨⟨_, rfl⟩, _, rfl⟩
  | bool b => exact ⟨⟨_, rfl⟩, _, rfl⟩
  | num y => exact ⟨⟨_, rfl⟩, _, rfl⟩
  | str s => exact ⟨⟨_, rfl⟩, _, rfl⟩

theorem inWindow_returns {f : RecordFields} (h1 : Numeric N f.notBefore) (h2 : Numeric N f.notAfter)
    (t : JsVal) : ∃ b, kr.inWindow N f t = .ok b := by
  obtain ⟨lo, hlo⟩ := (offset_returns (z := kr.skewMs) h1).1
  obtain ⟨hi, hhi⟩ := (offset_returns (z := kr.skewMs) h2).2
  unfold inWindow
  rw [hlo, hhi, Outcome.ok_bind]
  cases t.toPrim.ge N lo with
  | false => exact ⟨_, rfl⟩
  | true => exact ⟨_, rfl⟩

theorem hasRole_returns {roles : Cbor} (h : Numeric N (some roles)) (mask : Nat) :
    ∃ b, hasRole N roles mask = .ok b := by
  obtain ⟨x, hx⟩ := h
  unfold hasRole Prim.bitAnd
  rw [show roles.toPrim.toNumber N = .ok x from hx]
  exact ⟨_, rfl⟩

theorem numeric_int {z : Int} (h : Cbor.isNumber z = true) : Numeric N (some (.int z)) := by
  show ∃ x, (Cbor.int z).toPrim.toNumber N = .ok x
  rw [Cbor.toPrim_int h]
  exact ⟨_, rfl⟩

theorem readable_anchorChain (id : KeyId) (a : Anchor) : (anchorChain id a).Readable N where
  roles := numeric_int (by decide)
  notBefore _ h := by cases h
  notAfter _ h := by cases h

theorem holderInWindow_returns {c : Chain} (h : c.Readable N) (t : JsVal) :
    ∃ b, kr.holderInWindow N c.holder t = .ok b := by
  cases hh : c.holder with
  | anchor a => exact ⟨_, rfl⟩
  | record q => exact inWindow_returns (h.notBefore q hh) (h.notAfter q hh) _

/-! ## One level, given the level below -/

section Level

variable {up : KeyId → Outcome ChainResult} {rev : KeyId → Outcome JsVal}
  (hup : ∀ id, ∃ v, up id = .ok v ∧ ∀ c, v = .ok c → c.Readable N)
  (h : ∀ r ∈ kr.records.values, Readable N r)

include hup h

theorem judgeRecord_returns (hrev : ∀ id, ∃ T, rev id = .ok T) (id : KeyId) {r : Record}
    (hr : Hexable N r.f.issuer) : ∃ v, kr.judgeRecord N up rev id r = .ok v := by
  obtain ⟨issuerId, hi⟩ := hr
  obtain ⟨v, hv, hread⟩ := hup issuerId
  unfold judgeRecord
  simp only [hi, hv, Outcome.ok_bind]
  cases v with
  | fail reason => exact ⟨_, rfl⟩
  | ok u =>
      obtain ⟨b, hb⟩ := hasRole_returns (hread u rfl).roles roleIssue
      obtain ⟨p, hp⟩ := pubOf_returns h issuerId
      obtain ⟨w, hw⟩ := @holderInWindow_returns _ kr _ (hread u rfl) r.f.issuedAt
      obtain ⟨T, hT⟩ := hrev issuerId
      simp only [hb, hp, hT, hw, Outcome.ok_bind, Outcome.pure_eq_ok]
      repeat' split
      all_goals exact ⟨_, rfl⟩

theorem counts_returns (target : ChainResult) (targetPub : Option Pub) (id : KeyId) {r : Record}
    (hr : Hexable N r.f.issuer) : ∃ b, kr.counts N up target targetPub id r = .ok b := by
  obtain ⟨signerId, hi⟩ := hr
  obtain ⟨p, hp⟩ := pubOf_returns h signerId
  obtain ⟨v, hv, hread⟩ := hup signerId
  unfold counts allowedSigner
  simp only [hi, hp, Outcome.ok_bind, Outcome.pure_eq_ok]
  cases v with
  | fail reason =>
      simp only [hv, Outcome.ok_bind]
      repeat' split
      all_goals exact ⟨_, rfl⟩
  | ok s =>
      obtain ⟨b, hb⟩ := hasRole_returns (hread s rfl).roles roleRevoke
      simp only [hv, hb, Outcome.ok_bind]
      repeat' split
      all_goals exact ⟨_, rfl⟩

end Level

theorem countRevocations_returns {judge : Record → Outcome Bool} {rs : List Record}
    (h : ∀ r ∈ rs, ∃ b, judge r = .ok b) (T : JsVal) :
    ∃ T', countRevocations N judge rs T = .ok T' := by
  induction rs generalizing T with
  | nil => exact ⟨_, rfl⟩
  | cons r rs ih =>
      rw [List.forall_mem_cons] at h
      obtain ⟨⟨b, hb⟩, hrs⟩ := h
      unfold countRevocations
      rw [hb]
      cases b with
      | true => exact ih hrs _
      | false => exact ih hrs _

/-! ## Every level -/

/-- The two lookups at a level return when those one level down do and are readable. -/
theorem lookups_return_succ {left : Nat} (h : ∀ r ∈ kr.records.values, Readable N r)
    (hup : ∀ id, ∃ v, kr.chainAt N left id = .ok v ∧ ∀ c, v = .ok c → c.Readable N)
    (hrev : ∀ id, ∃ T, kr.revokedAt N left id = .ok T) (id : KeyId) :
    (∃ v, kr.chainAt N (left + 1) id = .ok v) ∧ ∃ T, kr.revokedAt N (left + 1) id = .ok T := by
  constructor
  · cases ha : kr.anchors.get? id with
    | some a => exact ⟨_, chainAt_anchor ha⟩
    | none =>
        have hrs := keyRecords_returns h id
        unfold chainAt
        rw [ha]
        simp only [hrs, Outcome.ok_bind]
        split
        · exact ⟨_, rfl⟩
        · obtain ⟨v, hv, _⟩ := searchRecords_returns (fun r hr =>
            have hmem := (mem_keyRecords hrs).mp hr
            judgeRecord_returns hup h hrev id (hexable_issuer_of_key (h r hmem.1) hmem.2))
            "issuer_unknown"
          exact ⟨v, hv⟩
  · obtain ⟨target, ht, _⟩ := hup id
    obtain ⟨p, hp⟩ := pubOf_returns h id
    have hrs := revocations_returns h id
    obtain ⟨T, hT⟩ := countRevocations_returns (fun r hr =>
      have hmem := (mem_revocations hrs).mp hr
      counts_returns hup h target p id (hexable_issuer_of_revocation (h r hmem.1) hmem.2))
      (some .null)
    exact ⟨T, revokedAt_succ_eq_ok.mpr ⟨target, p, _, ht, hp, hrs, hT⟩⟩

theorem lookups_return_zero (id : KeyId) :
    (∃ v, kr.chainAt N 0 id = .ok v) ∧ ∃ T, kr.revokedAt N 0 id = .ok T := by
  refine ⟨?_, some .null, by unfold revokedAt; rfl⟩
  cases ha : kr.anchors.get? id with
  | some a => exact ⟨_, chainAt_anchor ha⟩
  | none => exact ⟨_, chainAt_zero ha⟩

/-- **On a quiet ring neither lookup throws, at any depth.** -/
theorem lookups_return (h : Quiet N kr) {left : Nat} (hleft : left ≤ maxDepth) (id : KeyId) :
    (∃ v, kr.chainAt N left id = .ok v) ∧ ∃ T, kr.revokedAt N left id = .ok T := by
  induction left generalizing id with
  | zero => exact lookups_return_zero id
  | succ left ih =>
      have hlt : left ≤ maxDepth := le_of_lt hleft
      refine lookups_return_succ h.readable (fun k => ?_) (fun k => (ih hlt k).2) id
      obtain ⟨v, hv⟩ := (ih hlt k).1
      exact ⟨v, hv, fun c hc => h.usable left hlt k c (hc ▸ hv)⟩

/-- At each depth a quiet ring answers with chains the next level can compute with. -/
theorem Quiet.chains (h : Quiet N kr) {left : Nat} (hleft : left ≤ maxDepth) (id : KeyId) :
    ∃ v, kr.chainAt N left id = .ok v ∧ ∀ c, v = .ok c → c.Readable N := by
  obtain ⟨v, hv⟩ := (lookups_return h hleft id).1
  exact ⟨v, hv, fun c hc => h.usable left hleft id c (hc ▸ hv)⟩

/-! ## Well-typed records -/

/-- A record every field of which has the type the lookups compute with. -/
structure WellTyped (N : Node) (r : Record) : Prop extends Readable N r where
  roles : Numeric N (some r.f.roles)
  notBefore : Numeric N r.f.notBefore
  notAfter : Numeric N r.f.notAfter

theorem quiet_of_wellTyped (h : ∀ r ∈ kr.records.values, WellTyped N r) : Quiet N kr := by
  refine ⟨fun r hr => (h r hr).toReadable, fun left _ id c hc => ?_⟩
  cases ha : kr.anchors.get? id with
  | some a =>
      rw [chainAt_anchor ha] at hc
      cases hc
      exact readable_anchorChain id a
  | none =>
      cases left with
      | zero =>
          rw [chainAt_zero ha] at hc
          cases hc
      | succ left =>
          obtain ⟨r, _, _, hr, _, _, rfl⟩ := chainAt_record hc ha
          have hw := h r hr
          refine ⟨hw.roles, ?_, ?_⟩
          · rintro q ⟨⟩; exact hw.notBefore
          · rintro q ⟨⟩; exact hw.notAfter

/-- A quiet ring in which every revocation that stands says from when. -/
structure Sound (N : Node) (kr : Keyring) : Prop where
  quiet : Quiet N kr
  dated : ∀ left < maxDepth, ∀ id r, Stands N kr left id r → Dated r

/-- On a sound ring `revokedFrom` answers with the earliest time, at every depth. -/
theorem Sound.revokedAt (h : Sound N kr) {left : Nat} (hleft : left < maxDepth) (id : KeyId) :
    ∃ T, kr.revokedAt N (left + 1) id = .ok T ∧ Earliest T (standingTimes N kr left id) := by
  obtain ⟨T, hT⟩ := (lookups_return h.quiet hleft id).2
  exact ⟨T, hT, revokedAt_least (h.dated left hleft id) hT⟩

def isBytes : JsVal → Bool
  | some (.bytes _) => true
  | _ => false

def isNumberField : JsVal → Bool
  | some (.int z) => Cbor.isNumber z
  | _ => false

/-- The field types of the record table in the specification: what `issueKey` and `revokeKey` write
when their times are Numbers. -/
def RecordFields.tabled (f : RecordFields) : Bool :=
  isBytes f.issuer && isNumberField (some f.roles) &&
    (f.kind.isInt kindKey && isBytes f.pub && isNumberField f.notBefore && isNumberField f.notAfter ||
      f.kind.isInt kindRevoke && isBytes f.target && isNumberField f.effectiveFrom &&
        f.notBefore.isNone && f.notAfter.isNone)

theorem hexable_of_isBytes {v : JsVal} (h : isBytes v = true) : Hexable N v := by
  unfold isBytes at h
  split at h
  · exact ⟨_, rfl⟩
  · cases h

theorem numeric_of_isNumberField {v : JsVal} (h : isNumberField v = true) : Numeric N v := by
  unfold isNumberField at h
  split at h
  · exact numeric_int h
  · cases h

theorem numeric_none : Numeric N none := ⟨.nan, rfl⟩

theorem wellTyped_of_tabled {r : Record} (h : r.f.tabled = true) : WellTyped N r := by
  simp only [RecordFields.tabled, Bool.and_eq_true, Bool.or_eq_true, JsVal.isInt_iff] at h
  obtain ⟨⟨hissuer, hroles⟩, ⟨⟨⟨hk, hpub⟩, hb⟩, ha⟩ | ⟨⟨⟨⟨hk, htarget⟩, -⟩, hb⟩, ha⟩⟩ := h
  · refine ⟨⟨fun _ _ => ?_, fun hk' => ?_, fun _ => hexable_of_isBytes hissuer⟩,
      numeric_of_isNumberField hroles, numeric_of_isNumberField hb, numeric_of_isNumberField ha⟩
    · unfold isBytes at hpub
      split at hpub
      · exact ⟨_, by assumption⟩
      · cases hpub
    · rw [hk] at hk'
      cases hk'
  · refine ⟨⟨fun hk' => ?_, fun _ => hexable_of_isBytes htarget, fun _ => hexable_of_isBytes hissuer⟩,
      numeric_of_isNumberField hroles, ?_, ?_⟩
    · rw [hk] at hk'
      cases hk'
    · rw [Option.isNone_iff_eq_none.mp hb]; exact numeric_none
    · rw [Option.isNone_iff_eq_none.mp ha]; exact numeric_none

theorem dated_of_tabled {r : Record} (h : r.f.tabled = true) (hk : r.f.kind = some (.int kindRevoke)) :
    Dated r := by
  simp only [RecordFields.tabled, Bool.and_eq_true, Bool.or_eq_true, JsVal.isInt_iff] at h
  obtain ⟨-, ⟨⟨⟨hk', -⟩, -⟩, -⟩ | ⟨⟨⟨-, hdate⟩, -⟩, -⟩⟩ := h
  · rw [hk] at hk'
    cases hk'
  · unfold isNumberField at hdate
    split at hdate
    · exact ⟨_, by assumption, hdate⟩
    · cases hdate

/-- A ring of records as the specification has them is sound. -/
theorem sound_of_tabled (h : ∀ r ∈ kr.records.values, r.f.tabled = true) : Sound N kr :=
  ⟨quiet_of_wellTyped fun r hr => wellTyped_of_tabled (h r hr),
    fun _ _ _ r hr => dated_of_tabled (h r hr.1) hr.2.1.1⟩

/-! ## Queries -/

theorem checkUse_returns {c : Chain} (h : c.Readable N) (eid t : JsVal) (role : Nat) :
    ∃ o, kr.checkUse N c eid t role = .ok o := by
  unfold checkUse
  cases hh : c.holder with
  | anchor a => exact ⟨_, rfl⟩
  | record r =>
      obtain ⟨b, hb⟩ := hasRole_returns h.roles role
      obtain ⟨w, hw⟩ := @inWindow_returns _ kr _ (h.notBefore r hh) (h.notAfter r hh) t
      simp only [hb, hw, Outcome.ok_bind, Outcome.pure_eq_ok]
      repeat' split
      all_goals exact ⟨_, rfl⟩

theorem status_returns (h : Quiet N kr) (pub : Pub) (eid t : JsVal) (role : Nat) :
    ∃ s, kr.status N pub eid t role = .ok s := by
  obtain ⟨v, hv⟩ := (lookups_return h le_rfl (keyIdOf N pub)).1
  obtain ⟨T, hT⟩ := (lookups_return h le_rfl (keyIdOf N pub)).2
  unfold Keyring.status chainOf revokedFrom
  simp only [hv, hT, Outcome.ok_bind]
  cases v with
  | fail reason => exact ⟨_, rfl⟩
  | ok c =>
      obtain ⟨o, ho⟩ := @checkUse_returns _ kr _ (h.usable _ le_rfl _ c hv) eid t role
      simp only [ho, Outcome.ok_bind]
      cases o with
      | none => exact ⟨_, rfl⟩
      | some reason => exact ⟨_, rfl⟩

theorem issuedPubs_returns {rs : List Record} (h : ∀ r ∈ rs, Readable N r) (eid : JsVal) :
    ∃ ps, issuedPubs eid rs = .ok ps := by
  induction rs with
  | nil => exact ⟨_, rfl⟩
  | cons r rs ih =>
      rw [List.forall_mem_cons] at h
      obtain ⟨ps, hps⟩ := ih h.2
      unfold issuedPubs
      split
      · rename_i hk
        simp only [Bool.and_eq_true, JsVal.isInt_iff] at hk
        obtain ⟨raw, hraw⟩ := h.1.pub hk.1.1 hk.2
        rw [spkiOfField_eq_ok.mpr ⟨raw, hraw, rfl⟩, hps]
        exact ⟨_, rfl⟩
      · exact ⟨ps, hps⟩

theorem pubsFor_returns (h : Quiet N kr) (eid : JsVal) : ∃ ps, kr.pubsFor eid = .ok ps := by
  obtain ⟨ps, hps⟩ := issuedPubs_returns h.readable eid
  unfold pubsFor
  rw [hps]
  exact ⟨_, rfl⟩

theorem forCarriage_returns (h : Quiet N kr) (ids : List KeyId) :
    ∃ items, kr.forCarriage N ids = .ok items := by
  have hitems : ∀ ks, ∃ items, kr.chainItems N ks = .ok items := by
    intro ks
    induction ks with
    | nil => exact ⟨_, rfl⟩
    | cons k ks ih =>
        obtain ⟨items, hi⟩ := ih
        unfold chainItems
        rw [keyRecords_returns h.readable k, hi]
        exact ⟨_, rfl⟩
  have hchains : ∃ items, kr.carriedChains N ids = .ok items := by
    induction ids with
    | nil => exact ⟨_, rfl⟩
    | cons id ids ih =>
        obtain ⟨items, hi⟩ := ih
        obtain ⟨v, hv⟩ := (lookups_return h le_rfl id).1
        unfold carriedChains chainOf
        rw [hv, hi]
        cases v with
        | fail reason => exact ⟨_, rfl⟩
        | ok c =>
            obtain ⟨ks, hks⟩ := hitems c.chain
            simp only [Outcome.ok_bind, hks]
            exact ⟨_, rfl⟩
  obtain ⟨items, hi⟩ := hchains
  unfold forCarriage
  rw [hi]
  exact ⟨_, rfl⟩

/-- **On a quiet ring no query throws.** -/
theorem queries_return (h : Quiet N kr) :
    (∀ pub eid t role, ∃ s, kr.status N pub eid t role = .ok s) ∧
    (∀ id, ∃ v, kr.chainOf N id = .ok v) ∧ (∀ id, ∃ T, kr.revokedFrom N id = .ok T) ∧
    (∀ eid, ∃ ps, kr.pubsFor eid = .ok ps) ∧ ∀ ids, ∃ items, kr.forCarriage N ids = .ok items :=
  ⟨status_returns h, fun id => (lookups_return h le_rfl id).1,
    fun id => (lookups_return h le_rfl id).2, pubsFor_returns h, forCarriage_returns h⟩

end Keyring

end DtnCustody
