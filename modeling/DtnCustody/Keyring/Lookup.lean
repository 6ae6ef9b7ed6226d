/-
# DtnCustody.Keyring.Lookup — what the lookups of a keyring answer.

One statement for each step of `chainOf` and `revokedFrom`, so that nothing above this module unfolds
them:

  * `mem_keyRecords`, `mem_revocations` — which records a lookup of an id looks at;
  * `judgeRecord_eq_ok`, `chainAt_succ_eq_ok` — the first record whose checks pass gives the chain;
  * `counts_eq_true` — a revocation counts exactly when it is signed by a key `Allowed` to sign it;
  * `revokedAt_least` — the answer is the least `effectiveFrom` of the revocations that stand.

None of them assumes that the records are well formed.
-/
import Mathlib.Order.Bounds.Basic
import DtnCustody.Keyring.Ring

namespace DtnCustody

open Base Js

namespace Keyring

variable {N : Node} {kr : Keyring}

/-! ## Filtering -/

/-- A test that can throw, as the set of what passes it. -/
def passes {α : Type} (p : α → Outcome Bool) (x : α) : Bool :=
  match p x with
  | .ok b => b
  | .error _ => false

theorem passes_iff {α : Type} {p : α → Outcome Bool} {x : α} :
    passes p x = true ↔ p x = .ok true := by
  unfold passes
  cases p x with
  | ok b => simp
  | error e => simp

theorem filterOutcome_eq_ok {α : Type} {p : α → Outcome Bool} {xs ys : List α} :
    filterOutcome p xs = .ok ys ↔ (∀ x ∈ xs, ∃ b, p x = .ok b) ∧ ys = xs.filter (passes p) := by
  induction xs generalizing ys with
  | nil =>
      show Except.ok [] = Except.ok ys ↔ _
      simp [eq_comm]
  | cons x xs ih =>
      simp only [filterOutcome, Outcome.bind_eq_ok, List.forall_mem_cons, ih]
      constructor
      · rintro ⟨b, hb, rest, ⟨hall, rfl⟩, hys⟩
        refine ⟨⟨⟨b, hb⟩, hall⟩, ?_⟩
        cases hys
        have hx : passes p x = b := by simp [passes, hb]
        cases b <;> simp [hx]
      · rintro ⟨⟨⟨b, hb⟩, hall⟩, rfl⟩
        refine ⟨b, hb, _, ⟨hall, rfl⟩, ?_⟩
        have hx : passes p x = b := by simp [passes, hb]
        cases b <;> simp [hx]

/-- Reading a role mask that is a small integer. -/
theorem hasRole_nat {roles : Nat} (h : roles < 4294967296) (mask : Nat) :
    hasRole N (.int roles) mask = .ok (roles &&& mask != 0) := by
  have hn : Cbor.isNumber roles = true := by
    simp only [Cbor.isNumber, Bool.and_eq_true, decide_eq_true_eq]
    omega
  unfold hasRole Prim.bitAnd
  rw [Cbor.toPrim_int hn]
  simp [Prim.toNumber, JsNum.toUint32_natCast roles h]

/-! ## Records of a key -/

/-- `r` is a key record whose public key has the id `id`. -/
def IsKeyRecord (N : Node) (id : KeyId) (r : Record) : Prop :=
  r.f.kind = some (.int kindKey) ∧
    ∃ raw, r.f.pub = some (.bytes raw) ∧ keyIdOf N (spkiOf raw) = id

/-- `r` is a revocation of `id`. -/
def IsRevocation (N : Node) (id : KeyId) (r : Record) : Prop :=
  r.f.kind = some (.int kindRevoke) ∧ r.f.target.bufferFrom N = .ok id

theorem spkiOfField_eq_ok {v : JsVal} {p : Pub} :
    spkiOfField v = .ok p ↔ ∃ raw, v = some (.bytes raw) ∧ p = spkiOf raw := by
  unfold spkiOfField
  split
  · simp [eq_comm]
  · rename_i h
    constructor
    · intro h'; cases h'
    · rintro ⟨raw, rfl, _⟩
      exact absurd rfl (h raw)

theorem isKeyRecordOf_eq_true {id : KeyId} {r : Record} :
    isKeyRecordOf N id r = .ok true ↔ IsKeyRecord N id r := by
  unfold isKeyRecordOf IsKeyRecord
  split
  · rename_i h
    simp only [Bool.and_eq_true, JsVal.isInt_iff] at h
    simp only [Outcome.bind_eq_ok, spkiOfField_eq_ok, h.1, true_and]
    constructor
    · rintro ⟨_, ⟨raw, hraw, rfl⟩, hid⟩
      exact ⟨raw, hraw, by simpa using hid⟩
    · rintro ⟨raw, hraw, hid⟩
      exact ⟨_, ⟨raw, hraw, rfl⟩, by simpa using hid⟩
  · rename_i h
    constructor
    · intro h'; cases h'
    · rintro ⟨hk, raw, hraw, _⟩
      exact absurd (by simp [hk, hraw, JsVal.isInt, JsVal.truthy, Cbor.truthy]) h

theorem isRevocationOf_eq_true {id : KeyId} {r : Record} :
    isRevocationOf N id r = .ok true ↔ IsRevocation N id r := by
  unfold isRevocationOf IsRevocation
  split
  · rename_i h
    rw [JsVal.isInt_iff] at h
    simp [Outcome.bind_eq_ok, h]
  · rename_i h
    constructor
    · intro h'; cases h'
    · rintro ⟨hk, _⟩
      exact absurd (by simp [hk, JsVal.isInt]) h

theorem mem_keyRecords {id : KeyId} {rs : List Record} (h : kr.keyRecords N id = .ok rs)
    {r : Record} : r ∈ rs ↔ r ∈ kr.records.values ∧ IsKeyRecord N id r := by
  rw [(filterOutcome_eq_ok.mp h).2, List.mem_filter, passes_iff, isKeyRecordOf_eq_true]

theorem mem_revocations {id : KeyId} {rs : List Record} (h : kr.revocations N id = .ok rs)
    {r : Record} : r ∈ rs ↔ r ∈ kr.records.values ∧ IsRevocation N id r := by
  rw [(filterOutcome_eq_ok.mp h).2, List.mem_filter, passes_iff, isRevocationOf_eq_true]

theorem get?_of_has {id : KeyId} (h : kr.anchors.has id = true) :
    ∃ a, kr.anchors.get? id = some a := Option.isSome_iff_exists.mp h

theorem get?_of_not_has {id : KeyId} (h : kr.anchors.has id = false) :
    kr.anchors.get? id = none := by
  unfold JsMap.has at h
  exact Option.isSome_eq_false_iff.mp h |> Option.isNone_iff_eq_none.mp

theorem pubOf_anchor {id : KeyId} {a : Anchor} (h : kr.anchors.get? id = some a) :
    kr.pubOf N id = .ok (some a.pub) := by
  unfold pubOf
  rw [h]

/-- Off the anchors, the key of an id is the one of its first key record. -/
theorem pubOf_record {id : KeyId} (h : kr.anchors.get? id = none) {p : Option Pub} :
    kr.pubOf N id = .ok p ↔ ∃ rs, kr.keyRecords N id = .ok rs ∧
      match rs with
      | [] => p = none
      | r :: _ => ∃ raw, r.f.pub = some (.bytes raw) ∧ p = some (spkiOf raw) := by
  unfold pubOf
  rw [h]
  simp only [Outcome.bind_eq_ok]
  constructor
  · rintro ⟨rs, hrs, hp⟩
    refine ⟨rs, hrs, ?_⟩
    cases rs with
    | nil => cases hp; rfl
    | cons r rs =>
        obtain ⟨q, hq, hp⟩ := Outcome.bind_eq_ok.mp hp
        obtain ⟨raw, hraw, rfl⟩ := spkiOfField_eq_ok.mp hq
        cases hp
        exact ⟨raw, hraw, rfl⟩
  · rintro ⟨rs, hrs, hp⟩
    refine ⟨rs, hrs, ?_⟩
    cases rs with
    | nil => rw [hp]; rfl
    | cons r rs =>
        obtain ⟨raw, hraw, rfl⟩ := hp
        show (do return some (← spkiOfField r.f.pub)) = Except.ok (some (spkiOf raw))
        rw [spkiOfField_eq_ok.mpr ⟨raw, hraw, rfl⟩]
        rfl

/-! ## Chains -/

@[simp] theorem chainAt_anchor {left : Nat} {id : KeyId} {a : Anchor}
    (h : kr.anchors.get? id = some a) : kr.chainAt N left id = .ok (.ok (anchorChain id a)) := by
  cases left with
  | zero => unfold chainAt; rw [h]
  | succ left => unfold chainAt; rw [h]

theorem chainAt_zero {id : KeyId} (h : kr.anchors.get? id = none) :
    kr.chainAt N 0 id = .ok (.fail "chain_too_long") := by
  unfold chainAt; rw [h]

/-- The loop answers with the chain of the first record that passes. -/
theorem searchRecords_eq_ok {judge : Record → Outcome ChainResult} {rs : List Record}
    {last : String} {c : Chain} :
    searchRecords judge rs last = .ok (.ok c) ↔
      ∃ pre r post, rs = pre ++ r :: post ∧ (∀ q ∈ pre, ∃ reason, judge q = .ok (.fail reason)) ∧
        judge r = .ok (.ok c) := by
  induction rs generalizing last with
  | nil =>
      constructor
      · intro h; cases h
      · rintro ⟨pre, r, post, h, _⟩
        exact absurd h (by simp)
  | cons q rs ih =>
      simp only [searchRecords, Outcome.bind_eq_ok]
      constructor
      · rintro ⟨v, hv, h⟩
        cases v with
        | ok c' =>
            cases h
            exact ⟨[], q, rs, rfl, by simp, hv⟩
        | fail reason =>
            obtain ⟨pre, r, post, rfl, hpre, hr⟩ := ih.mp h
            refine ⟨q :: pre, r, post, rfl, ?_, hr⟩
            exact List.forall_mem_cons.mpr ⟨⟨reason, hv⟩, hpre⟩
      · rintro ⟨pre, r, post, h, hpre, hr⟩
        cases pre with
        | nil =>
            rw [List.nil_append, List.cons.injEq] at h
            obtain ⟨rfl, rfl⟩ := h
            exact ⟨_, hr, rfl⟩
        | cons p pre =>
            rw [List.cons_append, List.cons.injEq] at h
            obtain ⟨rfl, rfl⟩ := h
            rw [List.forall_mem_cons] at hpre
            obtain ⟨⟨reason, hp⟩, hpre⟩ := hpre
            exact ⟨_, hp, ih.mpr ⟨pre, r, post, rfl, hpre, hr⟩⟩

/-- A loop that never throws fails only when every record does. -/
theorem searchRecords_returns {judge : Record → Outcome ChainResult} {rs : List Record}
    (h : ∀ r ∈ rs, ∃ v, judge r = .ok v) (last : String) :
    ∃ v, searchRecords judge rs last = .ok v ∧
      ∀ reason, v = .fail reason → ∀ r ∈ rs, ∃ reason, judge r = .ok (.fail reason) := by
  induction rs generalizing last with
  | nil => exact ⟨_, rfl, by simp⟩
  | cons q rs ih =>
      rw [List.forall_mem_cons] at h
      obtain ⟨⟨v, hv⟩, hrs⟩ := h
      unfold searchRecords
      rw [hv]
      cases v with
      | ok c => exact ⟨_, rfl, by simp⟩
      | fail reason =>
          obtain ⟨w, hw, hfail⟩ := ih hrs reason
          refine ⟨w, hw, fun reason' hw' => ?_⟩
          exact List.forall_mem_cons.mpr ⟨⟨reason, hv⟩, hfail reason' hw'⟩

/-- The chain of a record that passes. -/
def accepted (v : Outcome ChainResult) : Option Chain :=
  match v with
  | .ok (.ok c) => some c
  | _ => none

theorem accepted_eq_some {v : Outcome ChainResult} {c : Chain} :
    accepted v = some c ↔ v = .ok (.ok c) := by
  unfold accepted
  split
  · simp
  · rename_i h
    constructor
    · intro h'; cases h'
    · rintro rfl
      exact absurd rfl (h c)

/-- A loop that never throws answers with the first chain there is. -/
theorem searchRecords_findSome {judge : Record → Outcome ChainResult} {rs : List Record}
    (h : ∀ r ∈ rs, ∃ v, judge r = .ok v) (last : String) {c : Chain} :
    searchRecords judge rs last = .ok (.ok c) ↔ rs.findSome? (fun r => accepted (judge r)) = some c := by
  induction rs generalizing last with
  | nil => simp [searchRecords]
  | cons q rs ih =>
      rw [List.forall_mem_cons] at h
      obtain ⟨⟨v, hv⟩, hrs⟩ := h
      unfold searchRecords
      rw [hv, List.findSome?_cons, hv]
      cases v with
      | ok c' => simp [accepted]
      | fail reason => exact ih hrs reason

/-- What a record needs to be accepted: the checks of the loop of `chainOf`, in its order. -/
structure Accepts (N : Node) (kr : Keyring) (up : KeyId → Outcome ChainResult)
    (rev : KeyId → Outcome JsVal) (r : Record) (issuerId : KeyId) (u : Chain) : Prop where
  issuer : r.f.issuer.bufferFrom N = .ok issuerId
  anchored : up issuerId = .ok (.ok u)
  mayIssue : hasRole N u.roles roleIssue = .ok true
  signed : ∃ pub, kr.pubOf N issuerId = .ok pub ∧ (Cose.verify1 N r.item pub).isOk = true
  inTime : kr.holderInWindow N u.holder r.f.issuedAt = .ok true
  seen : ∃ T, rev issuerId = .ok T ∧ seenTooLate N r.seenAt T = false

theorem judgeRecord_eq_ok {up : KeyId → Outcome ChainResult} {rev : KeyId → Outcome JsVal}
    {id : KeyId} {r : Record} {c : Chain} :
    kr.judgeRecord N up rev id r = .ok (.ok c) ↔
      ∃ issuerId u, Accepts N kr up rev r issuerId u ∧
        c = ⟨.record r, u.anchor, id :: u.chain, r.f.roles⟩ := by
  unfold judgeRecord
  simp only [Outcome.bind_eq_ok]
  constructor
  · rintro ⟨issuerId, hi, v, hup, h⟩
    cases v with
    | fail reason => cases h
    | ok u =>
        simp only [Outcome.bind_eq_ok] at h
        obtain ⟨b, hrole, h⟩ := h
        cases b with
        | false => cases h
        | true =>
        obtain ⟨pub, hpub, h⟩ := Outcome.bind_eq_ok.mp h
        cases hsig : (Cose.verify1 N r.item pub).isOk with
        | false => rw [hsig] at h; cases h
        | true =>
        rw [hsig] at h
        obtain ⟨w, hw, h⟩ := Outcome.bind_eq_ok.mp h
        cases w with
        | false => cases h
        | true =>
        obtain ⟨T, hT, h⟩ := Outcome.bind_eq_ok.mp h
        cases hseen : seenTooLate N r.seenAt T with
        | true => rw [hseen] at h; cases h
        | false =>
            rw [hseen] at h
            cases h
            exact ⟨issuerId, u, ⟨hi, hup, hrole, ⟨pub, hpub, hsig⟩, hw, ⟨T, hT, hseen⟩⟩, rfl⟩
  · rintro ⟨issuerId, u, ⟨hi, hup, hrole, ⟨pub, hpub, hsig⟩, hw, ⟨T, hT, hseen⟩⟩, rfl⟩
    refine ⟨issuerId, hi, _, hup, ?_⟩
    simp only [hrole, hpub, hsig, hw, hT, hseen, Outcome.ok_bind]
    rfl

/-- **A key off the anchors is accepted through the first of its records that is.** -/
theorem chainAt_succ_eq_ok {left : Nat} {id : KeyId} (h : kr.anchors.get? id = none) {c : Chain} :
    kr.chainAt N (left + 1) id = .ok (.ok c) ↔
      ∃ pre r post, kr.keyRecords N id = .ok (pre ++ r :: post) ∧
        (∀ q ∈ pre, ∃ reason, kr.judgeRecord N (kr.chainAt N left) (kr.revokedAt N left) id q =
          .ok (.fail reason)) ∧
        kr.judgeRecord N (kr.chainAt N left) (kr.revokedAt N left) id r = .ok (.ok c) := by
  conv_lhs => unfold chainAt
  rw [h]
  simp only [Outcome.bind_eq_ok]
  constructor
  · rintro ⟨rs, hrs, hc⟩
    cases rs with
    | nil => cases hc
    | cons q rs =>
        obtain ⟨pre, r, post, heq, hpre, hr⟩ := searchRecords_eq_ok.mp hc
        exact ⟨pre, r, post, heq ▸ hrs, hpre, hr⟩
  · rintro ⟨pre, r, post, hrs, hpre, hr⟩
    refine ⟨_, hrs, ?_⟩
    have hsearch := (@searchRecords_eq_ok _ _ "issuer_unknown" _).mpr
      ⟨pre, r, post, rfl, hpre, hr⟩
    cases pre with
    | nil => exact hsearch
    | cons q pre => exact hsearch

/-- Where no record throws, the chain is the first one its records give. -/
theorem chainAt_succ_findSome {left : Nat} {id : KeyId} (h : kr.anchors.get? id = none)
    {rs : List Record} (hrs : kr.keyRecords N id = .ok rs)
    (hj : ∀ r ∈ rs, ∃ v, kr.judgeRecord N (kr.chainAt N left) (kr.revokedAt N left) id r = .ok v)
    {c : Chain} :
    kr.chainAt N (left + 1) id = .ok (.ok c) ↔ rs.findSome? (fun r =>
      accepted (kr.judgeRecord N (kr.chainAt N left) (kr.revokedAt N left) id r)) = some c := by
  rw [← searchRecords_findSome hj "issuer_unknown", searchRecords_eq_ok, chainAt_succ_eq_ok h, hrs]
  constructor
  · rintro ⟨pre, r, post, heq, hpre, hr⟩
    exact ⟨pre, r, post, Except.ok.inj heq, hpre, hr⟩
  · rintro ⟨pre, r, post, heq, hpre, hr⟩
    exact ⟨pre, r, post, congrArg Except.ok heq, hpre, hr⟩

/-- An accepted chain off the anchors starts with one of the key's own records. -/
theorem chainAt_record {left : Nat} {id : KeyId} {c : Chain}
    (h : kr.chainAt N (left + 1) id = .ok (.ok c)) (hn : kr.anchors.get? id = none) :
    ∃ r issuerId u, r ∈ kr.records.values ∧ IsKeyRecord N id r ∧
      Accepts N kr (kr.chainAt N left) (kr.revokedAt N left) r issuerId u ∧
      c = ⟨.record r, u.anchor, id :: u.chain, r.f.roles⟩ := by
  obtain ⟨pre, r, post, hrs, _, hr⟩ := (chainAt_succ_eq_ok hn).mp h
  obtain ⟨issuerId, u, hacc, rfl⟩ := judgeRecord_eq_ok.mp hr
  have hmem := (mem_keyRecords hrs).mp (List.mem_append_right pre List.mem_cons_self)
  exact ⟨r, issuerId, u, hmem.1, hmem.2, hacc, rfl⟩

/-- The key of an accepted chain is known: it is an anchor's, or some key record's. -/
def Known (N : Node) (kr : Keyring) (id : KeyId) : Prop := ∃ p, kr.pubOf N id = .ok (some p)

theorem known_of_has {id : KeyId} (h : kr.anchors.has id = true) : Known N kr id := by
  obtain ⟨a, ha⟩ := get?_of_has h
  exact ⟨a.pub, pubOf_anchor ha⟩

theorem known_of_chainAt {left : Nat} {id : KeyId} {c : Chain}
    (h : kr.chainAt N left id = .ok (.ok c)) : Known N kr id := by
  cases ha : kr.anchors.get? id with
  | some a => exact ⟨a.pub, pubOf_anchor ha⟩
  | none =>
      cases left with
      | zero => rw [chainAt_zero ha] at h; cases h
      | succ left =>
          obtain ⟨pre, r, post, hrs, -, -⟩ := (chainAt_succ_eq_ok ha).mp h
          obtain ⟨q, qs, hq⟩ : ∃ q qs, pre ++ r :: post = q :: qs := by
            cases pre with
            | nil => exact ⟨r, post, rfl⟩
            | cons q pre => exact ⟨q, _, rfl⟩
          rw [hq] at hrs
          obtain ⟨-, raw, hraw, -⟩ := ((mem_keyRecords hrs).mp List.mem_cons_self).2
          exact ⟨spkiOf raw, (pubOf_record ha).mpr ⟨_, hrs, raw, hraw, rfl⟩⟩

/-- Every other key of an accepted chain is accepted below it, with the issue role. -/
theorem mem_chain {left : Nat} {id : KeyId} {c : Chain} (h : kr.chainAt N left id = .ok (.ok c))
    {k : KeyId} (hk : k ∈ c.chain) :
    k = id ∨ ∃ below < left, ∃ u, kr.chainAt N below k = .ok (.ok u) ∧
      hasRole N u.roles roleIssue = .ok true := by
  induction left generalizing id c with
  | zero =>
      cases ha : kr.anchors.get? id with
      | none => rw [chainAt_zero ha] at h; cases h
      | some a =>
          rw [chainAt_anchor ha] at h
          cases h
          exact Or.inl (List.mem_singleton.mp hk)
  | succ left ih =>
      cases ha : kr.anchors.get? id with
      | some a =>
          rw [chainAt_anchor ha] at h
          cases h
          exact Or.inl (List.mem_singleton.mp hk)
      | none =>
          obtain ⟨r, issuerId, u, -, -, hacc, rfl⟩ := chainAt_record h ha
          rcases List.mem_cons.mp hk with rfl | hk
          · exact Or.inl rfl
          · right
            rcases ih hacc.anchored hk with rfl | ⟨below, hlt, v, hv, hrole⟩
            · exact ⟨left, Nat.lt_succ_self left, u, hacc.anchored, hacc.mayIssue⟩
            · exact ⟨below, Nat.lt_succ_of_lt hlt, v, hv, hrole⟩

/-! ## Revocations -/

/-- The record verifies under the key the ring holds for `signerId`. -/
def Signed (N : Node) (kr : Keyring) (r : Record) (signerId : KeyId) : Prop :=
  ∃ pub, kr.pubOf N signerId = .ok (some pub) ∧ (Cose.verify1 N r.item (some pub)).isOk = true

/-- Who may revoke `id`, when `up` and `target` are the chains of other keys and of `id`: the key
itself, a key of its issuing chain, an anchor, a key with the revoke role under the same anchor. -/
def Allowed (N : Node) (kr : Keyring) (up : KeyId → Outcome ChainResult) (target : ChainResult)
    (id signerId : KeyId) : Prop :=
  signerId = id ∨ target.includes signerId = true ∨ kr.anchors.has signerId = true ∨
    ∃ s c, up signerId = .ok (.ok s) ∧ hasRole N s.roles roleRevoke = .ok true ∧
      target = .ok c ∧ s.anchor = c.anchor

theorem allowedSigner_eq_true {up : KeyId → Outcome ChainResult} {target : ChainResult}
    {targetPub : Option Pub} {id signerId : KeyId} (hself : signerId = id → targetPub.isSome) :
    kr.allowedSigner N up target targetPub id signerId = .ok true ↔
      Allowed N kr up target id signerId := by
  unfold allowedSigner Allowed
  by_cases h1 : signerId = id
  · simp [h1, hself h1]
  by_cases h2 : target.includes signerId = true
  · simp [h1, h2]
  by_cases h3 : kr.anchors.has signerId = true
  · simp [h1, h2, h3]
  simp only [h1, h2, h3, if_false, false_or, Outcome.bind_eq_ok, Bool.false_eq_true]
  constructor
  · rintro ⟨v, hup, h⟩
    cases v with
    | fail reason => cases h
    | ok s =>
        obtain ⟨b, hb, h⟩ := Outcome.bind_eq_ok.mp h
        cases b with
        | false => cases h
        | true =>
            cases target with
            | fail reason => cases h
            | ok c => exact ⟨s, c, hup, hb, rfl, by simpa using h⟩
  · rintro ⟨s, c, hup, hb, rfl, hanchor⟩
    refine ⟨_, hup, ?_⟩
    simp [hb, hanchor]

/-- A revocation of `id` counts exactly when it is signed by a key that may revoke `id`. -/
theorem counts_eq_true {up : KeyId → Outcome ChainResult} {target : ChainResult}
    {targetPub : Option Pub} {id : KeyId} (hpub : kr.pubOf N id = .ok targetPub) {r : Record} :
    kr.counts N up target targetPub id r = .ok true ↔
      ∃ signerId, r.f.issuer.bufferFrom N = .ok signerId ∧ Signed N kr r signerId ∧
        Allowed N kr up target id signerId := by
  unfold counts
  simp only [Outcome.bind_eq_ok]
  constructor
  · rintro ⟨signerId, hi, p, hp, h⟩
    cases hs : signedBy N r p with
    | false => rw [hs] at h; cases h
    | true =>
        rw [hs] at h
        rw [signedBy, Bool.and_eq_true] at hs
        obtain ⟨pub, rfl⟩ := Option.isSome_iff_exists.mp hs.1
        refine ⟨signerId, hi, ⟨pub, hp, hs.2⟩, (allowedSigner_eq_true ?_).mp h⟩
        rintro rfl
        rw [hpub] at hp
        cases hp
        rfl
  · rintro ⟨signerId, hi, ⟨pub, hp, hs⟩, hall⟩
    refine ⟨signerId, hi, _, hp, ?_⟩
    have hsigned : signedBy N r (some pub) = true := by simp [signedBy, hs]
    rw [hsigned]
    apply (allowedSigner_eq_true ?_).mpr hall
    rintro rfl
    rw [hpub] at hp
    cases hp
    rfl

/-- The revocation `r` of `id` stands when the chains are the ones `left` levels allow. -/
def Stands (N : Node) (kr : Keyring) (left : Nat) (id : KeyId) (r : Record) : Prop :=
  r ∈ kr.records.values ∧ IsRevocation N id r ∧ ∃ target signerId,
    kr.chainAt N left id = .ok target ∧ r.f.issuer.bufferFrom N = .ok signerId ∧
      Signed N kr r signerId ∧ Allowed N kr (kr.chainAt N left) target id signerId

theorem revokedAt_succ_eq_ok {left : Nat} {id : KeyId} {T : JsVal} :
    kr.revokedAt N (left + 1) id = .ok T ↔ ∃ target targetPub rs,
      kr.chainAt N left id = .ok target ∧ kr.pubOf N id = .ok targetPub ∧
      kr.revocations N id = .ok rs ∧
      countRevocations N (kr.counts N (kr.chainAt N left) target targetPub id) rs (some .null) =
        .ok T := by
  conv_lhs => unfold revokedAt
  simp only [Outcome.bind_eq_ok]
  constructor
  · rintro ⟨target, ht, p, hp, rs, hrs, h⟩
    exact ⟨target, p, rs, ht, hp, hrs, h⟩
  · rintro ⟨target, p, rs, ht, hp, hrs, h⟩
    exact ⟨target, ht, p, hp, rs, hrs, h⟩

theorem countRevocations_of_none {judge : Record → Outcome Bool} {rs : List Record} {T T' : JsVal}
    (hnone : ∀ r ∈ rs, judge r ≠ .ok true) (h : countRevocations N judge rs T = .ok T') :
    T' = T := by
  induction rs with
  | nil => cases h; rfl
  | cons r rs ih =>
      rw [List.forall_mem_cons] at hnone
      unfold countRevocations at h
      obtain ⟨b, hb, h⟩ := Outcome.bind_eq_ok.mp h
      cases b with
      | true => exact absurd hb hnone.1
      | false => exact ih hnone.2 h

theorem countRevocations_congr {judge judge' : Record → Outcome Bool} {rs : List Record}
    (h : ∀ r ∈ rs, judge r = judge' r) (T : JsVal) :
    countRevocations N judge rs T = countRevocations N judge' rs T := by
  induction rs generalizing T with
  | nil => rfl
  | cons r rs ih =>
      rw [List.forall_mem_cons] at h
      unfold countRevocations
      rw [h.1]
      simp only [ih h.2]

/-- Records that do not count change nothing at the end of the loop. -/
theorem countRevocations_append_of_false {judge : Record → Outcome Bool} {rs qs : List Record}
    (h : ∀ q ∈ qs, judge q = .ok false) (T : JsVal) :
    countRevocations N judge (rs ++ qs) T = countRevocations N judge rs T := by
  induction rs generalizing T with
  | nil =>
      induction qs with
      | nil => rfl
      | cons q qs ih =>
          rw [List.forall_mem_cons] at h
          have hq : countRevocations N judge (q :: qs) T = countRevocations N judge qs T := by
            conv_lhs => unfold countRevocations
            rw [h.1]
            rfl
          exact hq.trans (ih h.2)
  | cons r rs ih =>
      rw [List.cons_append, countRevocations, countRevocations]
      simp only [ih]

/-- Without a revocation that stands, a key is not revoked. -/
theorem revokedAt_of_none {left : Nat} {id : KeyId} {T : JsVal}
    (h : kr.revokedAt N (left + 1) id = .ok T) (hnone : ∀ r, ¬ Stands N kr left id r) :
    T = some .null := by
  obtain ⟨target, p, rs, ht, hp, hrs, h⟩ := revokedAt_succ_eq_ok.mp h
  refine countRevocations_of_none (fun r hr hj => ?_) h
  have hmem := (mem_revocations hrs).mp hr
  obtain ⟨signerId, hi, hs, hall⟩ := (counts_eq_true hp).mp hj
  exact hnone r ⟨hmem.1, hmem.2, target, signerId, ht, hi, hs, hall⟩

/-- A time in milliseconds, as a decoded value. -/
def time (z : Int) : JsVal := some (.int z)

/-- A revocation with a readable `effectiveFrom`. -/
def Dated (r : Record) : Prop := ∃ z, r.f.effectiveFrom = time z ∧ Cbor.isNumber z = true

/-- `T` is the earliest of the times in `es`, or `null` when there are none. -/
def Earliest (T : JsVal) (es : Set Int) : Prop :=
  T = some .null ∧ es = ∅ ∨ ∃ z, T = time z ∧ IsLeast es z

theorem Earliest.unique {T T' : JsVal} {es : Set Int} (h : Earliest T es) (h' : Earliest T' es) :
    T = T' := by
  rcases h with ⟨rfl, hes⟩ | ⟨z, rfl, hz⟩
  · rcases h' with ⟨rfl, -⟩ | ⟨z', rfl, hz'⟩
    · rfl
    · exact absurd hz'.1 (by rw [hes]; exact fun h => h)
  · rcases h' with ⟨rfl, hes⟩ | ⟨z', rfl, hz'⟩
    · exact absurd hz.1 (by rw [hes]; exact fun h => h)
    · rw [hz.unique hz']

theorem earlier_null (v : JsVal) : earlier N (some .null) v = v := by
  unfold earlier
  simp [isSet]

theorem earlier_time {a b : Int} (ha : Cbor.isNumber a = true) (hb : Cbor.isNumber b = true) :
    earlier N (time a) (time b) = time (min a b) := by
  unfold earlier time
  simp only [isSet, JsVal.toPrim, Cbor.toPrim_int ha, Cbor.toPrim_int hb, Prim.lt_int]
  by_cases h : b < a
  · simp [h, min_eq_right (le_of_lt h)]
  · simp [h, min_eq_left (not_lt.mp h)]

/-- The test of `chainOf` on a numeric revocation time. -/
theorem seen_before {seenAt z : Int} (hz : Cbor.isNumber z = true)
    (h : seenTooLate N seenAt (time z) = false) : seenAt < z := by
  have hlt : (Prim.int seenAt).lt N (JsVal.toPrim (time z)) = true := by
    simpa [seenTooLate, time, isSet] using h
  rw [show JsVal.toPrim (time z) = Prim.int z from Cbor.toPrim_int hz, Prim.lt_int] at hlt
  exact of_decide_eq_true hlt

/-- The loop that starts at a time ends at the least of it and the times that count. -/
theorem countRevocations_time {judge : Record → Outcome Bool} {rs : List Record} {a : Int}
    (ha : Cbor.isNumber a = true) (hd : ∀ r ∈ rs, judge r = .ok true → Dated r) {T : JsVal}
    (h : countRevocations N judge rs (time a) = .ok T) :
    ∃ z, T = time z ∧
      IsLeast {e | e = a ∨ ∃ r ∈ rs, judge r = .ok true ∧ r.f.effectiveFrom = time e} z := by
  induction rs generalizing a with
  | nil =>
      cases h
      refine ⟨a, rfl, Or.inl rfl, ?_⟩
      rintro e (rfl | ⟨r, hr, _⟩)
      · exact le_rfl
      · cases hr
  | cons r rs ih =>
      rw [List.forall_mem_cons] at hd
      unfold countRevocations at h
      obtain ⟨b, hb, h⟩ := Outcome.bind_eq_ok.mp h
      cases b with
      | false =>
          obtain ⟨z, hz, hin, hle⟩ := ih ha hd.2 h
          refine ⟨z, hz, ?_, ?_⟩
          · rcases hin with rfl | ⟨q, hq, hj, he⟩
            · exact Or.inl rfl
            · exact Or.inr ⟨q, List.mem_cons_of_mem _ hq, hj, he⟩
          · rintro e (rfl | ⟨q, hq, hj, he⟩)
            · exact hle (Or.inl rfl)
            · rcases List.mem_cons.mp hq with rfl | hq
              · rw [hb] at hj; cases hj
              · exact hle (Or.inr ⟨q, hq, hj, he⟩)
      | true =>
          obtain ⟨c, hc, hcn⟩ := hd.1 hb
          have hmin : Cbor.isNumber (min a c) = true := by
            rcases min_choice a c with hm | hm <;> rw [hm] <;> assumption
          rw [hc, if_pos rfl, earlier_time ha hcn] at h
          obtain ⟨z, hz, hin, hle⟩ := ih hmin hd.2 h
          refine ⟨z, hz, ?_, ?_⟩
          · rcases hin with rfl | ⟨q, hq, hj, he⟩
            · rcases min_choice a c with hm | hm
              · exact Or.inl hm
              · exact Or.inr ⟨r, List.mem_cons_self, hb, by rw [hm, hc]⟩
            · exact Or.inr ⟨q, List.mem_cons_of_mem _ hq, hj, he⟩
          · rintro e (rfl | ⟨q, hq, hj, he⟩)
            · exact le_trans (hle (Or.inl rfl)) (min_le_left _ _)
            · rcases List.mem_cons.mp hq with rfl | hq
              · have hec : c = e := by rw [hc] at he; simpa [time] using he
                exact le_trans (hle (Or.inl rfl)) (hec ▸ min_le_right _ _)
              · exact hle (Or.inr ⟨q, hq, hj, he⟩)

theorem countRevocations_earliest {judge : Record → Outcome Bool} {rs : List Record}
    (hd : ∀ r ∈ rs, judge r = .ok true → Dated r) {T : JsVal}
    (h : countRevocations N judge rs (some .null) = .ok T) :
    Earliest T {e | ∃ r ∈ rs, judge r = .ok true ∧ r.f.effectiveFrom = time e} := by
  induction rs with
  | nil =>
      cases h
      exact Or.inl ⟨rfl, by ext e; simp⟩
  | cons r rs ih =>
      rw [List.forall_mem_cons] at hd
      unfold countRevocations at h
      obtain ⟨b, hb, h⟩ := Outcome.bind_eq_ok.mp h
      cases b with
      | false =>
          have hset : {e | ∃ q ∈ r :: rs, judge q = .ok true ∧ q.f.effectiveFrom = time e} =
              {e | ∃ q ∈ rs, judge q = .ok true ∧ q.f.effectiveFrom = time e} := by
            ext e; simp [hb]
          rw [hset]
          exact ih hd.2 h
      | true =>
          obtain ⟨a, ha, han⟩ := hd.1 hb
          rw [earlier_null, ha, if_pos rfl] at h
          obtain ⟨z, hz, hleast⟩ := countRevocations_time han hd.2 h
          have hset : {e | ∃ q ∈ r :: rs, judge q = .ok true ∧ q.f.effectiveFrom = time e} =
              {e | e = a ∨ ∃ q ∈ rs, judge q = .ok true ∧ q.f.effectiveFrom = time e} := by
            ext e; simp [hb, ha, time, eq_comm]
          exact Or.inr ⟨z, hz, hset ▸ hleast⟩

/-- The times from which the revocations of `id` that stand take effect. -/
def standingTimes (N : Node) (kr : Keyring) (left : Nat) (id : KeyId) : Set Int :=
  {e | ∃ r, Stands N kr left id r ∧ r.f.effectiveFrom = time e}

/-- **`revokedFrom` is the earliest time of the revocations that stand.** -/
theorem revokedAt_least {left : Nat} {id : KeyId} {T : JsVal}
    (hd : ∀ r, Stands N kr left id r → Dated r) (h : kr.revokedAt N (left + 1) id = .ok T) :
    Earliest T (standingTimes N kr left id) := by
  obtain ⟨target, p, rs, ht, hp, hrs, h⟩ := revokedAt_succ_eq_ok.mp h
  -- the revocations that the loop counts are those that stand
  have hiff : ∀ r, (r ∈ rs ∧ kr.counts N (kr.chainAt N left) target p id r = .ok true) ↔
      Stands N kr left id r := by
    intro r
    rw [mem_revocations hrs, counts_eq_true hp]
    constructor
    · rintro ⟨⟨hr, hk⟩, signerId, hi, hs, hall⟩
      exact ⟨hr, hk, target, signerId, ht, hi, hs, hall⟩
    · rintro ⟨hr, hk, target', signerId, ht', hi, hs, hall⟩
      rw [ht] at ht'
      cases ht'
      exact ⟨⟨hr, hk⟩, signerId, hi, hs, hall⟩
  have hset : standingTimes N kr left id =
      {e | ∃ r ∈ rs, kr.counts N (kr.chainAt N left) target p id r = .ok true ∧
        r.f.effectiveFrom = time e} := by
    ext e
    simp only [standingTimes, Set.mem_ofPred_eq, ← hiff, and_assoc]
  rw [hset]
  exact countRevocations_earliest (fun r hr hj => hd r ((hiff r).mp ⟨hr, hj⟩)) h

/-! ## Use -/

/-- **When `status` accepts**: the key has a chain, the holder of the key may be used so, and the
answer carries what `revokedFrom` says. -/
theorem status_eq_ok {pub : Pub} {eid t T : JsVal} {role : Nat} {anchor k : KeyId} :
    kr.status N pub eid t role = .ok (.ok T anchor k) ↔
      ∃ c, kr.chainOf N (keyIdOf N pub) = .ok (.ok c) ∧ kr.checkUse N c eid t role = .ok none ∧
        kr.revokedFrom N (keyIdOf N pub) = .ok T ∧ anchor = c.anchor ∧ k = keyIdOf N pub := by
  unfold Keyring.status
  simp only [Outcome.bind_eq_ok]
  constructor
  · rintro ⟨v, hv, h⟩
    cases v with
    | fail reason => cases h
    | ok c =>
        obtain ⟨o, ho, h⟩ := Outcome.bind_eq_ok.mp h
        cases o with
        | some reason => cases h
        | none =>
            obtain ⟨T', hT, h⟩ := Outcome.bind_eq_ok.mp h
            cases h
            exact ⟨c, hv, ho, hT, rfl, rfl⟩
  · rintro ⟨c, hc, ho, hT, rfl, rfl⟩
    refine ⟨_, hc, ?_⟩
    simp only [ho, hT, Outcome.ok_bind]
    rfl

/-- What `status` reports is `revokedFrom` of the key. -/
theorem status_revokedFrom {pub : Pub} {eid t T : JsVal} {role : Nat} {anchor k : KeyId}
    (h : kr.status N pub eid t role = .ok (.ok T anchor k)) :
    kr.revokedFrom N (keyIdOf N pub) = .ok T ∧ k = keyIdOf N pub := by
  obtain ⟨c, -, -, hT, -, hk⟩ := status_eq_ok.mp h
  exact ⟨hT, hk⟩

/-- Two queries accept with the same answer, or both refuse. -/
def SameVerdict (s s' : Outcome Status) : Prop :=
  ∀ T anchor k, s = .ok (.ok T anchor k) ↔ s' = .ok (.ok T anchor k)

/-! ## Adding records -/

/-- The kinds of record a ring keeps. -/
def Kept (f : RecordFields) : Prop := f.kind = some (.int kindKey) ∨ f.kind = some (.int kindRevoke)

/-- **What one call of `add` does to the ring**: nothing, an earlier sighting of a record it holds,
or a record more. -/
theorem receive_cases (a : Cbor × Int) :
    kr.receive N a = kr ∨
    (∃ h r, recordHash N a.1 = .ok h ∧ kr.records.get? h = some r ∧ a.2 < r.seenAt ∧
      kr.receive N a = { kr with records := kr.records.set h { r with seenAt := a.2 } }) ∨
    ∃ h f, recordFields a.1 = .ok f ∧ Kept f ∧ recordHash N a.1 = .ok h ∧
      kr.records.get? h = none ∧
      kr.receive N a = { kr with records := kr.records.set h ⟨a.1, f, a.2⟩ } := by
  unfold receive add
  cases hf : recordFields a.1 with
  | error e => exact Or.inl rfl
  | ok f =>
      by_cases hk : (!f.kind.isInt kindKey && !f.kind.isInt kindRevoke) = true
      · simp only [hk, if_true, true_or]
      · simp only [hk, if_false, Bool.false_eq_true]
        have hkept : Kept f := by
          simp only [Bool.and_eq_true, Bool.not_eq_true', not_and_or, Bool.not_eq_false,
            JsVal.isInt_iff] at hk
          exact hk
        cases hh : recordHash N a.1 with
        | error e => exact Or.inl rfl
        | ok h =>
            simp only [Outcome.ok_bind]
            cases hg : kr.records.get? h with
            | none => exact Or.inr (Or.inr ⟨h, f, rfl, hkept, rfl, hg, rfl⟩)
            | some r =>
                by_cases hs : a.2 < r.seenAt
                · simp only [hs, if_true]
                  exact Or.inr (Or.inl ⟨h, r, rfl, hg, hs, rfl⟩)
                · simp only [hs, if_false]
                  exact Or.inl rfl

@[simp] theorem anchors_receive (a : Cbor × Int) : (kr.receive N a).anchors = kr.anchors := by
  obtain h | ⟨_, _, _, _, _, h⟩ | ⟨_, _, _, _, _, _, h⟩ := @receive_cases N kr a
  all_goals rw [h]

@[simp] theorem skewMs_receive (a : Cbor × Int) : (kr.receive N a).skewMs = kr.skewMs := by
  obtain h | ⟨_, _, _, _, _, h⟩ | ⟨_, _, _, _, _, _, h⟩ := @receive_cases N kr a
  all_goals rw [h]

/-- What holds of a new ring and is kept by `add` holds after every run. -/
theorem receiveAll_induction {P : Keyring → Prop} (h0 : P kr)
    (hstep : ∀ kr a, P kr → P (kr.receive N a)) (as : List (Cbor × Int)) :
    P (kr.receiveAll N as) := by
  induction as generalizing kr with
  | nil => exact h0
  | cons a as ih => exact ih (hstep kr a h0)

@[simp] theorem anchors_receiveAll (as : List (Cbor × Int)) :
    (kr.receiveAll N as).anchors = kr.anchors :=
  receiveAll_induction (P := fun kr' => kr'.anchors = kr.anchors) rfl
    (fun _ a h => (anchors_receive a).trans h) as

/-- A record of the ring after a call of `add` was there before, perhaps seen later, or is the one
that was added. -/
theorem mem_receive {a : Cbor × Int} {r : Record} (hr : r ∈ (kr.receive N a).records.values) :
    (∃ q ∈ kr.records.values, r.item = q.item ∧ r.f = q.f) ∨
      (r.item = a.1 ∧ recordFields a.1 = .ok r.f ∧ Kept r.f) := by
  obtain he | ⟨k, q, _, hg, _, he⟩ | ⟨k, f, hf, hk, _, _, he⟩ := @receive_cases N kr a
  · rw [he] at hr
    exact Or.inl ⟨r, hr, rfl, rfl⟩
  · rw [he] at hr
    obtain ⟨k', hk'⟩ := JsMap.mem_values_iff.mp hr
    by_cases hkk : k' = k
    · subst hkk
      rw [JsMap.get?_set_self] at hk'
      cases hk'
      exact Or.inl ⟨q, JsMap.mem_values_iff.mpr ⟨k', hg⟩, rfl, rfl⟩
    · rw [JsMap.get?_set_ne _ hkk] at hk'
      exact Or.inl ⟨r, JsMap.mem_values_iff.mpr ⟨k', hk'⟩, rfl, rfl⟩
  · rw [he] at hr
    obtain ⟨k', hk'⟩ := JsMap.mem_values_iff.mp hr
    by_cases hkk : k' = k
    · subst hkk
      rw [JsMap.get?_set_self] at hk'
      cases hk'
      exact Or.inr ⟨rfl, hf, hk⟩
    · rw [JsMap.get?_set_ne _ hkk] at hk'
      exact Or.inl ⟨r, JsMap.mem_values_iff.mpr ⟨k', hk'⟩, rfl, rfl⟩

/-- `q` is the record `r`, perhaps seen earlier. -/
def Resighted (r q : Record) : Prop := q.item = r.item ∧ q.f = r.f ∧ q.seenAt ≤ r.seenAt

theorem resighted_refl (r : Record) : Resighted r r := ⟨rfl, rfl, le_rfl⟩

/-- The records of `kr'` are those of `kr`, perhaps seen earlier, and others after them. -/
structure Grows (kr kr' : Keyring) : Prop where
  anchors : kr'.anchors = kr.anchors
  skewMs : kr'.skewMs = kr.skewMs
  records : ∃ vs extra, kr'.records.values = vs ++ extra ∧
    List.Forall₂ Resighted kr.records.values vs

theorem grows_receive (a : Cbor × Int) : Grows kr (kr.receive N a) := by
  refine ⟨anchors_receive a, skewMs_receive a, ?_⟩
  have hself : List.Forall₂ Resighted kr.records.values kr.records.values :=
    List.forall₂_same.mpr fun r _ => resighted_refl r
  obtain he | ⟨k, q, _, hg, hlt, he⟩ | ⟨k, f, _, _, _, hg, he⟩ :=
    @receive_cases N kr a
  · exact ⟨_, [], by rw [he, List.append_nil], hself⟩
  · have hvals := JsMap.values_set_of_get? resighted_refl hg
      (w := { q with seenAt := a.2 }) ⟨rfl, rfl, le_of_lt hlt⟩
    exact ⟨_, [], by rw [he, List.append_nil], hvals⟩
  · refine ⟨_, [⟨a.1, f, a.2⟩], ?_, hself⟩
    rw [he]
    exact JsMap.values_set_of_not_has (by simp [JsMap.has, hg]) _

/-- A record stays in the ring. -/
theorem Grows.mem {kr' : Keyring} (hg : Grows kr kr') {r : Record} (hr : r ∈ kr.records.values) :
    ∃ q ∈ kr'.records.values, Resighted r q := by
  obtain ⟨vs, extra, hvals, h⟩ := hg.records
  rw [hvals]
  clear hvals
  revert hr h
  generalize kr.records.values = rs
  intro hr h
  induction h with
  | nil => cases hr
  | cons h _ ih =>
      rcases List.mem_cons.mp hr with rfl | hr
      · exact ⟨_, List.mem_cons_self, h⟩
      · obtain ⟨q, hq, hrq⟩ := ih hr
        exact ⟨q, List.mem_cons_of_mem _ hq, hrq⟩

/-- **Every record of a run was given to `add`**, and its fields are what its payload holds. -/
theorem mem_receiveAll {as : List (Cbor × Int)} {r : Record} (h0 : kr.records.values = [])
    (hr : r ∈ (kr.receiveAll N as).records.values) :
    ∃ a ∈ as, r.item = a.1 ∧ recordFields a.1 = .ok r.f ∧ Kept r.f := by
  suffices H : ∀ (as : List (Cbor × Int)) (kr : Keyring) (r : Record),
      r ∈ (kr.receiveAll N as).records.values →
      (∃ q ∈ kr.records.values, r.item = q.item ∧ r.f = q.f) ∨
        ∃ a ∈ as, r.item = a.1 ∧ recordFields a.1 = .ok r.f ∧ Kept r.f by
    rcases H as kr r hr with ⟨q, hq, _⟩ | h
    · rw [h0] at hq
      cases hq
    · exact h
  clear hr h0
  intro as
  induction as with
  | nil => intro kr r hr; exact Or.inl ⟨r, hr, rfl, rfl⟩
  | cons a as ih =>
      intro kr r hr
      rcases ih (kr.receive N a) r hr with ⟨q, hq, hitem, hfields⟩ | ⟨b, hb, h⟩
      · rcases mem_receive hq with ⟨p, hp, hi, hf⟩ | ⟨hi, hf, hk⟩
        · exact Or.inl ⟨p, hp, hitem.trans hi, hfields.trans hf⟩
        · exact Or.inr ⟨a, List.mem_cons_self, hitem.trans hi, hfields ▸ hf, hfields ▸ hk⟩
      · exact Or.inr ⟨b, List.mem_cons_of_mem _ hb, h⟩

end Keyring

end DtnCustody
