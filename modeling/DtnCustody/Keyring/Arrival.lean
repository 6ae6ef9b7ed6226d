/-
# DtnCustody.Keyring.Arrival — the order in which records arrive, and keys with several records.

`stored_iff` says what a ring holds after a run, without the order of the run: each record once, with
its earliest sighting. So `evidence` is the same for every order of the same records, and where it is
unambiguous `status` accepts a use exactly when some record authorises it, in every order
(`any_authorising_record_counts`). With two records of different use the first one seen decides
(`reissued_not_complete`).
-/
import Mathlib.Data.Finset.Max
import DtnCustody.Keyring.Evidence

namespace DtnCustody

open Base Js

namespace Keyring

variable {N : Node} {kr : Keyring}

/-! ## What a run stores -/

/-- `add` keeps the item, under the hash `h`. -/
structure Storable (N : Node) (item : Cbor) (f : RecordFields) (h : Bytes) : Prop where
  fields : recordFields item = .ok f
  kept : Kept f
  hash : recordHash N item = .ok h

theorem receive_of_not_storable {a : Cbor × Int} (hn : ∀ f h, ¬ Storable N a.1 f h) :
    kr.receive N a = kr := by
  obtain he | ⟨h, r, hh, hg, hlt, he⟩ | ⟨h, f, hf, hk, hh, _, _⟩ :=
    @receive_cases N kr a
  · exact he
  · unfold receive add
    cases hf : recordFields a.1 with
    | error e => rfl
    | ok f =>
        by_cases hk : (!f.kind.isInt kindKey && !f.kind.isInt kindRevoke) = true
        · simp only [hk, if_true]
        · refine absurd ⟨hf, ?_, hh⟩ (hn f h)
          simpa only [Kept, Bool.and_eq_true, Bool.not_eq_true', not_and_or, Bool.not_eq_false,
            JsVal.isInt_iff] using hk
  · exact absurd ⟨hf, hk, hh⟩ (hn f h)

/-- What the ring holds under each hash after an item it keeps. -/
theorem get?_receive {a : Cbor × Int} {f : RecordFields} {h : Bytes} (hs : Storable N a.1 f h)
    (k : Bytes) :
    (kr.receive N a).records.get? k = if k = h then
        some (match kr.records.get? h with
          | none => ⟨a.1, f, a.2⟩
          | some r => { r with seenAt := min a.2 r.seenAt })
      else kr.records.get? k := by
  have hk : (!f.kind.isInt kindKey && !f.kind.isInt kindRevoke) = false := by
    rcases hs.kept with hk | hk
    · simp [JsVal.isInt_iff.mpr hk]
    · simp [JsVal.isInt_iff.mpr hk]
  unfold receive add
  simp only [hs.fields, hk, hs.hash, Outcome.ok_bind, Bool.false_eq_true, if_false]
  cases hg : kr.records.get? h with
  | none =>
      by_cases hkh : k = h
      · subst hkh
        simp
      · simp [hkh, JsMap.get?_set_ne _ hkh]
  | some r =>
      by_cases hlt : a.2 < r.seenAt
      · by_cases hkh : k = h
        · subst hkh
          simp [hlt, min_eq_left (le_of_lt hlt)]
        · simp [hlt, hkh, JsMap.get?_set_ne _ hkh]
      · by_cases hkh : k = h
        · subst hkh
          simp [hlt, min_eq_right (not_lt.mp hlt), hg]
        · simp [hlt, hkh]

/-- No two different items of the run have the same hash. -/
def NoCollision (N : Node) (as : List (Cbor × Int)) : Prop :=
  ∀ a ∈ as, ∀ b ∈ as, ∀ h, recordHash N a.1 = .ok h → recordHash N b.1 = .ok h → a.1 = b.1

/-- `r` is what a ring keeps under the hash `h` of the items of `as`: one of them, with the earliest
time it was seen. -/
structure Stored (N : Node) (as : List (Cbor × Int)) (h : Bytes) (r : Record) : Prop where
  storable : Storable N r.item r.f h
  earliest : IsLeast {s | (r.item, s) ∈ as} r.seenAt

theorem exists_earliest {as : List (Cbor × Int)} {item : Cbor} {s : Int} (h : (item, s) ∈ as) :
    ∃ m, IsLeast {s | (item, s) ∈ as} m := by
  let times := (as.map Prod.snd).toFinset.filter fun s => (item, s) ∈ as
  have hmem : ∀ z, z ∈ times ↔ (item, z) ∈ as := by
    intro z
    simp only [times, Finset.mem_filter, List.mem_toFinset, List.mem_map, Prod.exists,
      exists_eq_right, and_iff_right_iff_imp]
    exact fun hz => ⟨item, hz⟩
  have hne : times.Nonempty := ⟨s, (hmem s).mpr h⟩
  exact ⟨times.min' hne, (hmem _).mp (times.min'_mem hne),
    fun z hz => times.min'_le z ((hmem z).mpr hz)⟩

/-- A different item leaves the sightings of an item alone. -/
theorem earliest_append_ne {as : List (Cbor × Int)} {a : Cbor × Int} {item : Cbor} (hne : item ≠ a.1) :
    {s | (item, s) ∈ as ++ [a]} = {s | (item, s) ∈ as} := by
  ext s
  have : (item, s) ≠ a := fun h => hne (congrArg Prod.fst h)
  simp [this]

theorem earliest_append_self {as : List (Cbor × Int)} {a : Cbor × Int} :
    {s | (a.1, s) ∈ as ++ [a]} = insert a.2 {s | (a.1, s) ∈ as} := by
  ext s
  simp [Prod.ext_iff, or_comm]

/-- **What a ring holds after a run.** -/
theorem stored_iff {as : List (Cbor × Int)} (hc : NoCollision N as)
    (h0 : kr.records = JsMap.empty) {h : Bytes} {r : Record} :
    (kr.receiveAll N as).records.get? h = some r ↔ Stored N as h r := by
  induction as using List.reverseRecOn generalizing h r with
  | nil =>
      show kr.records.get? h = some r ↔ _
      rw [h0, JsMap.get?_empty]
      constructor
      · intro h'; cases h'
      · intro hs; exact absurd hs.earliest.1 (by simp)
  | append_singleton as a ih =>
      have hc' : NoCollision N as := fun b hb b' hb' =>
        hc b (List.mem_append_left _ hb) b' (List.mem_append_left _ hb')
      have hlast : a ∈ as ++ [a] := List.mem_append_right _ List.mem_cons_self
      have hrun : kr.receiveAll N (as ++ [a]) = (kr.receiveAll N as).receive N a := by
        unfold receiveAll
        rw [List.foldl_append]
        rfl
      rw [hrun]
      by_cases hst : ∃ f k, Storable N a.1 f k
      · obtain ⟨f, k, hst⟩ := hst
        rw [get?_receive hst]
        by_cases hhk : h = k
        · subst hhk
          rw [if_pos rfl]
          -- whatever is stored under this hash is the item that arrives
          have hitem : ∀ q, Stored N (as ++ [a]) h q → q.item = a.1 ∧ q.f = f := by
            intro q hq
            have hia : q.item = a.1 := hc _ hq.earliest.1 _ hlast h hq.storable.hash hst.hash
            refine ⟨hia, ?_⟩
            have hqf := hq.storable.fields
            rw [hia, hst.fields] at hqf
            exact (Except.ok.inj hqf).symm
          cases hg : (kr.receiveAll N as).records.get? h with
          | none =>
              have hnone : {s | (a.1, s) ∈ as} = ∅ := by
                ext s
                simp only [Set.mem_ofPred_eq, Set.mem_empty_iff_false, iff_false]
                intro hs
                obtain ⟨m, hm⟩ := exists_earliest hs
                have := (ih hc' (h := h) (r := ⟨a.1, f, m⟩)).mpr ⟨hst, hm⟩
                rw [hg] at this
                cases this
              have hleast : IsLeast {s | (a.1, s) ∈ as ++ [a]} a.2 := by
                rw [earliest_append_self, hnone, insert_empty_eq]
                exact isLeast_singleton
              constructor
              · intro h'
                cases h'
                exact ⟨hst, hleast⟩
              · intro hq
                obtain ⟨hia, hf⟩ := hitem r hq
                have hle := hq.earliest
                rw [hia] at hle
                rw [Option.some.injEq]
                obtain ⟨item, f', seenAt⟩ := r
                simp only at hia hf hle
                rw [← hia, ← hf, hle.unique hleast]
          | some q =>
              have hq := (ih hc').mp hg
              have hq' : q.item = a.1 := hc _ (List.mem_append_left _ hq.earliest.1) _ hlast h
                hq.storable.hash hst.hash
              have hleast : IsLeast {s | (a.1, s) ∈ as ++ [a]} (min a.2 q.seenAt) := by
                rw [earliest_append_self]
                have := hq.earliest
                rw [hq'] at this
                exact this.insert a.2
              constructor
              · intro h'
                cases h'
                exact ⟨hq.storable, by rw [hq']; exact hleast⟩
              · intro hr
                obtain ⟨hia, hf⟩ := hitem r hr
                have hle := hr.earliest
                rw [hia] at hle
                have hqf := hq.storable.fields
                rw [hq', hst.fields] at hqf
                rw [Option.some.injEq]
                obtain ⟨item, f', seenAt⟩ := r
                simp only at hia hf hle
                rw [hle.unique hleast, hia, hf]
                show Record.mk q.item q.f (min a.2 q.seenAt) = _
                rw [hq', Except.ok.inj hqf]
        · rw [if_neg hhk, ih hc']
          -- another hash, so another item
          have hne : ∀ q, recordHash N q = .ok h → q ≠ a.1 := by
            rintro q hq rfl
            rw [hst.hash] at hq
            exact hhk (Except.ok.inj hq).symm
          constructor
          · intro hs
            exact ⟨hs.storable, by rw [earliest_append_ne (hne _ hs.storable.hash)]; exact hs.earliest⟩
          · intro hs
            have hle := hs.earliest
            rw [earliest_append_ne (hne _ hs.storable.hash)] at hle
            exact ⟨hs.storable, hle⟩
      · have hn : ∀ f k, ¬ Storable N a.1 f k := fun f k hs => hst ⟨f, k, hs⟩
        rw [receive_of_not_storable hn, ih hc']
        have hne : ∀ q : Record, Storable N q.item q.f h → q.item ≠ a.1 := by
          intro q hq hqa
          rw [hqa] at hq
          exact hn _ _ hq
        constructor
        · intro hs
          exact ⟨hs.storable, by rw [earliest_append_ne (hne r hs.storable)]; exact hs.earliest⟩
        · intro hs
          have hle := hs.earliest
          rw [earliest_append_ne (hne r hs.storable)] at hle
          exact ⟨hs.storable, hle⟩

theorem skewMs_receiveAll (as : List (Cbor × Int)) : (kr.receiveAll N as).skewMs = kr.skewMs :=
  receiveAll_induction (P := fun kr' => kr'.skewMs = kr.skewMs) rfl
    (fun _ a h => (skewMs_receive a).trans h) as

/-- The same records in another order are the same evidence. -/
theorem evidence_perm {as bs : List (Cbor × Int)} (hp : as.Perm bs) (hc : NoCollision N as)
    (h0 : kr.records = JsMap.empty) :
    (kr.receiveAll N bs).evidence = (kr.receiveAll N as).evidence := by
  have hc' : NoCollision N bs := fun a ha b hb =>
    hc a (hp.mem_iff.mpr ha) b (hp.mem_iff.mpr hb)
  have hstored : ∀ h r, Stored N bs h r ↔ Stored N as h r := by
    intro h r
    have hset : {s | (r.item, s) ∈ bs} = {s | (r.item, s) ∈ as} := by
      ext s
      exact hp.symm.mem_iff
    constructor
    · intro hs; exact ⟨hs.storable, hset ▸ hs.earliest⟩
    · intro hs; exact ⟨hs.storable, hset.symm ▸ hs.earliest⟩
  unfold evidence
  congr 1
  · rw [anchors_receiveAll, anchors_receiveAll]
  · rw [skewMs_receiveAll, skewMs_receiveAll]
  · ext r
    simp only [Set.mem_ofPred_eq, JsMap.mem_values_iff, stored_iff hc h0, stored_iff hc' h0, hstored]

/-! ## Which uses a ring accepts -/

/-- Some record authorises the use: a key record of `pub` that the rules count, with that subject and
role and a window around `t`. For an anchor its own EID is enough. -/
def Evidence.Authorises (N : Node) (E : Evidence) (pub : Pub) (eid t : JsVal) (role : Nat) : Prop :=
  (∃ a, E.anchors.get? (keyIdOf N pub) = some a ∧ strictEq (a.eid.map .text) eid = true) ∨
  E.anchors.get? (keyIdOf N pub) = none ∧ ∃ r ∈ E.held, IsKeyRecord N (keyIdOf N pub) r ∧
    (∃ issuerId u, E.Counts N (E.HasChain N (maxDepth - 1)) (E.Revokes N (maxDepth - 1)) r issuerId
      u) ∧
    strictEq r.f.subject eid = true ∧ hasRole N r.f.roles role = .ok true ∧ E.InWindow N r.f t

/-- `status` accepts a use exactly when some record authorises it. -/
def Complete (N : Node) (kr : Keyring) : Prop :=
  ∀ pub eid t role, (∃ T anchor k, kr.status N pub eid t role = .ok (.ok T anchor k)) ↔
    kr.evidence.Authorises N pub eid t role

theorem checkUse_record {c : Chain} {r : Record} (hh : c.holder = .record r) (hc : c.Readable N)
    {eid t : JsVal} {role : Nat} : kr.checkUse N c eid t role = .ok none ↔
      strictEq r.f.subject eid = true ∧ hasRole N c.roles role = .ok true ∧
        kr.evidence.InWindow N r.f t := by
  rw [← inWindow_eq_true (hc.notBefore r hh) (hc.notAfter r hh)]
  obtain ⟨b, hb⟩ := hasRole_returns hc.roles role
  obtain ⟨w, hw⟩ := @inWindow_returns _ kr _ (hc.notBefore r hh) (hc.notAfter r hh) t
  unfold checkUse
  rw [hh]
  cases hs : strictEq r.f.subject eid with
  | false => simp [hs]
  | true =>
      cases b with
      | false => simp [hs, hb]
      | true =>
          cases w with
          | false => simp [hs, hb, hw]
          | true => simp [hs, hb, hw]

theorem checkUse_anchor {c : Chain} {a : Anchor} (hh : c.holder = .anchor a) {eid t : JsVal}
    {role : Nat} :
    kr.checkUse N c eid t role = .ok none ↔ strictEq (a.eid.map .text) eid = true := by
  unfold checkUse
  rw [hh]
  cases hs : strictEq (a.eid.map .text) eid with
  | false => simp [hs]
  | true => simp [hs]

/-- Chains of the same use pass the same checks. -/
theorem checkUse_sameUse {c d : Chain} (h : Evidence.SameUse c d) (hc : c.Readable N)
    (hd : d.Readable N) {eid t : JsVal} {role : Nat} :
    kr.checkUse N c eid t role = .ok none ↔ kr.checkUse N d eid t role = .ok none := by
  have hholder := h.holder
  cases hch : c.holder with
  | anchor a =>
      cases hdh : d.holder with
      | record q => rw [hch, hdh] at hholder; exact hholder.elim
      | anchor b =>
          rw [hch, hdh] at hholder
          obtain rfl : a = b := hholder
          rw [checkUse_anchor hch, checkUse_anchor hdh]
  | record r =>
      cases hdh : d.holder with
      | anchor b => rw [hch, hdh] at hholder; exact hholder.elim
      | record q =>
          rw [hch, hdh] at hholder
          obtain ⟨hsubject, hbefore, hafter⟩ := hholder
          rw [checkUse_record hch hc, checkUse_record hdh hd, h.roles, hsubject]
          unfold Evidence.InWindow
          rw [hbefore, hafter]

theorem complete_of_unambiguous (hw : kr.evidence.WellFormed N) (hu : kr.evidence.Unambiguous N) :
    Complete N kr := by
  have hm := matches_evidence hw hu (le_refl maxDepth)
  intro pub eid t role
  constructor
  · rintro ⟨T, anchor, k, hst⟩
    obtain ⟨c, hc, hcheck, -, -, -⟩ := status_eq_ok.mp hst
    have hchain : kr.evidence.HasChain N maxDepth (keyIdOf N pub) c := hm.hasChain hc
    have hread := hw.usable maxDepth le_rfl _ c hchain
    cases ha : kr.evidence.anchors.get? (keyIdOf N pub) with
    | some a =>
        obtain rfl := (Evidence.hasChain_anchor ha).mp hchain
        exact Or.inl ⟨a, ha, (checkUse_anchor rfl).mp hcheck⟩
    | none =>
        obtain ⟨r, hheld, hkey, issuerId, u, hcounts, rfl⟩ := (Evidence.hasChain_succ ha).mp hchain
        exact Or.inr ⟨ha, r, hheld, hkey, ⟨issuerId, u, hcounts⟩,
          (checkUse_record rfl hread).mp hcheck⟩
  · intro h
    -- a chain that the use is checked against, and the one the lookup finds instead
    obtain ⟨c, hchain, hcheck⟩ : ∃ c, kr.evidence.HasChain N maxDepth (keyIdOf N pub) c ∧
        kr.checkUse N c eid t role = .ok none := by
      rcases h with ⟨a, ha, heid⟩ | ⟨ha, r, hheld, hkey, ⟨issuerId, u, hcounts⟩, huse⟩
      · exact ⟨_, (Evidence.hasChain_anchor ha).mpr rfl, (checkUse_anchor rfl).mpr heid⟩
      · have hchain := (Evidence.hasChain_succ ha).mpr ⟨r, hheld, hkey, issuerId, u, hcounts, rfl⟩
        exact ⟨_, hchain, (checkUse_record rfl (hw.usable maxDepth le_rfl _ _ hchain)).mpr huse⟩
    obtain ⟨d, hd, hsame⟩ := hm.chainAt hchain
    obtain ⟨T, hT, -⟩ := hm.revoked (keyIdOf N pub)
    have hread := hw.usable maxDepth le_rfl _ c hchain
    have hread' := hw.usable maxDepth le_rfl _ d (hm.hasChain hd)
    exact ⟨T, d.anchor, _, status_eq_ok.mpr
      ⟨d, hd, (checkUse_sameUse hsame hread hread').mp hcheck, hT, rfl, rfl⟩⟩

theorem status_of_evidence {kr' : Keyring} (he : kr'.evidence = kr.evidence)
    (hw : kr.evidence.WellFormed N) (hu : kr.evidence.Unambiguous N) {pub : Pub} {eid t T : JsVal}
    {role : Nat} {anchor k : KeyId} (hst : kr.status N pub eid t role = .ok (.ok T anchor k)) :
    kr'.status N pub eid t role = .ok (.ok T anchor k) := by
  obtain ⟨c, hc, hcheck, hT, rfl, rfl⟩ := status_eq_ok.mp hst
  have hm := matches_evidence hw hu (le_refl maxDepth)
  have hm' := @matches_evidence _ kr' (he ▸ hw) (he ▸ hu) _ (le_refl maxDepth)
  have hchain := hm.hasChain hc
  obtain ⟨d, hd, hsame⟩ := hm'.chainAt (he ▸ hchain)
  -- the same times give the same earliest one
  obtain ⟨T₁, hT₁, hearliest⟩ := hm.revoked (keyIdOf N pub)
  obtain ⟨T₂, hT₂, hearliest'⟩ := hm'.revoked (keyIdOf N pub)
  rw [he] at hearliest'
  have hTT : T₂ = T := by
    rw [hearliest'.unique hearliest]
    exact Except.ok.inj (hT₁.symm.trans hT)
  have hread := hw.usable maxDepth le_rfl _ c hchain
  have hread' := hw.usable maxDepth le_rfl _ d (he ▸ hm'.hasChain hd)
  have hcheck' : kr'.checkUse N c eid t role = .ok none := by
    have hskew : kr'.skewMs = kr.skewMs := congrArg Evidence.skewMs he
    have : kr'.checkUse N c eid t role = kr.checkUse N c eid t role := by
      unfold checkUse inWindow
      rw [hskew]
    rw [this, hcheck]
  exact status_eq_ok.mpr ⟨d, hd, (checkUse_sameUse hsame hread hread').mp hcheck', hTT ▸ hT₂,
    hsame.anchor, rfl⟩

/-- Two rings with the same unambiguous evidence answer alike. -/
theorem sameVerdict_of_evidence {kr' : Keyring} (he : kr'.evidence = kr.evidence)
    (hw : kr.evidence.WellFormed N) (hu : kr.evidence.Unambiguous N) (pub : Pub) (eid t : JsVal)
    (role : Nat) : SameVerdict (kr.status N pub eid t role) (kr'.status N pub eid t role) :=
  fun _ _ _ => ⟨status_of_evidence he hw hu,
    status_of_evidence he.symm (he.symm ▸ hw) (he.symm ▸ hu)⟩

/-- **In every order of arrival `status` accepts a use exactly when some record authorises it**, as
long as no key has two chains of different use. -/
theorem any_authorising_record_counts {anchors : List Anchor} {skewMs : Int}
    {as : List (Cbor × Int)} (hc : NoCollision N as)
    (hw : ((Keyring.new N anchors skewMs).receiveAll N as).evidence.WellFormed N)
    (hu : ((Keyring.new N anchors skewMs).receiveAll N as).evidence.Unambiguous N) :
    ∀ bs, as.Perm bs → Complete N ((Keyring.new N anchors skewMs).receiveAll N bs) ∧
      ∀ pub eid t role,
        SameVerdict (((Keyring.new N anchors skewMs).receiveAll N as).status N pub eid t role)
          (((Keyring.new N anchors skewMs).receiveAll N bs).status N pub eid t role) := by
  intro bs hp
  have he := @evidence_perm _ (Keyring.new N anchors skewMs) _ _ hp hc rfl
  refine ⟨complete_of_unambiguous (he.symm ▸ hw) (he.symm ▸ hu), ?_⟩
  exact sameVerdict_of_evidence he hw hu

/-! ## One record for each key -/

/-- The id a record is about. -/
def idOf (N : Node) (r : Record) : KeyId :=
  match r.f.pub with
  | some (.bytes raw) => keyIdOf N (spkiOf raw)
  | _ => []

theorem idOf_eq {id : KeyId} {r : Record} (h : IsKeyRecord N id r) : idOf N r = id := by
  obtain ⟨-, raw, hraw, hid⟩ := h
  unfold idOf
  rw [hraw]
  exact hid

/-- Evidence with at most one record for each id is unambiguous. -/
theorem unambiguous_of_single {E : Evidence}
    (h : ∀ id, ∀ r ∈ E.held, ∀ q ∈ E.held, IsKeyRecord N id r → IsKeyRecord N id q → r = q) :
    E.Unambiguous N := by
  constructor
  · intro left hleft
    clear hleft
    induction left with
    | zero =>
        intro id c d hc hd
        cases ha : E.anchors.get? id with
        | none => exact absurd hc (Evidence.not_hasChain_zero ha)
        | some a =>
            obtain rfl := (Evidence.hasChain_anchor ha).mp hc
            obtain rfl := (Evidence.hasChain_anchor ha).mp hd
            exact ⟨rfl, rfl, rfl, rfl⟩
    | succ left ih =>
        intro id c d hc hd
        cases ha : E.anchors.get? id with
        | some a =>
            obtain rfl := (Evidence.hasChain_anchor ha).mp hc
            obtain rfl := (Evidence.hasChain_anchor ha).mp hd
            exact ⟨rfl, rfl, rfl, rfl⟩
        | none =>
            obtain ⟨r, hr, hkr, issuerId, u, hu, rfl⟩ := (Evidence.hasChain_succ ha).mp hc
            obtain ⟨q, hq, hkq, issuerId', v, hv, rfl⟩ := (Evidence.hasChain_succ ha).mp hd
            obtain rfl := h id r hr q hq hkr hkq
            obtain rfl : issuerId = issuerId' := Except.ok.inj (hu.issuer.symm.trans hv.issuer)
            have hsame := ih issuerId u v hu.anchored hv.anchored
            exact ⟨⟨rfl, rfl, rfl⟩, hsame.anchor, congrArg (List.cons id) hsame.chain, rfl⟩
  · rintro id p q (⟨a, ha, rfl⟩ | ⟨ha, r, hr, raw, hkr, hraw, rfl⟩) hq
    · rcases hq with ⟨b, hb, rfl⟩ | ⟨hb, -⟩
      · rw [ha] at hb
        cases hb
        rfl
      · rw [ha] at hb
        cases hb
    · rcases hq with ⟨b, hb, rfl⟩ | ⟨-, r', hr', raw', hkr', hraw', rfl⟩
      · rw [ha] at hb
        cases hb
      · obtain rfl := h id r hr r' hr' hkr hkr'
        rw [hraw] at hraw'
        cases hraw'
        rfl

theorem unambiguous_of_nodup (h : (kr.records.values.map (idOf N)).Nodup) :
    kr.evidence.Unambiguous N := by
  refine unambiguous_of_single fun id r hr q hq hkr hkq => ?_
  exact List.inj_on_of_nodup_map h hr hq ((idOf_eq hkr).trans (idOf_eq hkq).symm)

theorem wellFormed_of_tabled (h : ∀ r ∈ kr.records.values, r.f.tabled = true) :
    kr.evidence.WellFormed N where
  readable r hr := (wellTyped_of_tabled (h r hr)).toReadable
  usable left _ id c hc := by
    cases ha : kr.evidence.anchors.get? id with
    | some a =>
        obtain rfl := (Evidence.hasChain_anchor ha).mp hc
        exact readable_anchorChain id a
    | none =>
        cases left with
        | zero => exact absurd hc (Evidence.not_hasChain_zero ha)
        | succ left =>
            obtain ⟨r, hr, -, _, _, -, rfl⟩ := (Evidence.hasChain_succ ha).mp hc
            have hw : WellTyped N r := wellTyped_of_tabled (h r hr)
            refine ⟨hw.roles, ?_, ?_⟩
            · rintro q ⟨⟩; exact hw.notBefore
            · rintro q ⟨⟩; exact hw.notAfter
  dated left _ id q hq := by
    cases left with
    | zero => unfold Evidence.Revokes at hq; exact hq.elim
    | succ left =>
        have hr := Evidence.revokes_succ.mp hq
        exact dated_of_tabled (h q hr.1) hr.2.1.1

/-- An anchor (1), a key (2) it issued and a key (3) issued by that one. -/
def issuedInOrder : List (Cbor × Int) :=
  [(sampleKeyRecord 1 2 "ipn:2.0" roleIssue, 10), (sampleKeyRecord 2 3 "ipn:3.0", 50)]

def operatorOnly : List Anchor := [⟨"operator", some "ipn:1.0", (samplePair 1).pub⟩]

theorem issuedInOrder_counts :
    Complete sampleNode
        ((Keyring.new sampleNode operatorOnly 0).receiveAll sampleNode issuedInOrder.reverse) ∧
      SameVerdict
        (((Keyring.new sampleNode operatorOnly 0).receiveAll sampleNode issuedInOrder).status
          sampleNode (samplePair 3).pub (some (.text "ipn:3.0")) (time 60) roleCustody)
        (((Keyring.new sampleNode operatorOnly 0).receiveAll sampleNode issuedInOrder.reverse).status
          sampleNode (samplePair 3).pub (some (.text "ipn:3.0")) (time 60) roleCustody) := by
  have hne : recordHash sampleNode (sampleKeyRecord 1 2 "ipn:2.0" roleIssue) ≠
      recordHash sampleNode (sampleKeyRecord 2 3 "ipn:3.0") := by decide +kernel
  have hany := @any_authorising_record_counts sampleNode operatorOnly 0 issuedInOrder ?_ ?_ ?_
  · obtain ⟨hcomplete, hsame⟩ := hany _ (List.reverse_perm issuedInOrder).symm
    exact ⟨hcomplete, hsame _ _ _ _⟩
  · intro a ha b hb h hah hbh
    simp only [issuedInOrder, List.mem_cons, List.not_mem_nil, or_false] at ha hb
    rcases ha with rfl | rfl
    · rcases hb with rfl | rfl
      · rfl
      · exact absurd (hah.trans hbh.symm) hne
    · rcases hb with rfl | rfl
      · exact absurd (hbh.trans hah.symm) hne
      · rfl
  · refine wellFormed_of_tabled fun r hr => ?_
    have hall : ((Keyring.new sampleNode operatorOnly 0).receiveAll sampleNode
        issuedInOrder).records.values.all (fun r => r.f.tabled) = true := by decide +kernel
    exact List.all_eq_true.mp hall r hr
  · exact unambiguous_of_nodup (by decide +kernel)

/-- An anchor (1), a key (2) it issued to one node, and the same key issued to another. -/
def reissued : Keyring :=
  (Keyring.new sampleNode operatorOnly 0).receiveAll sampleNode
    [(sampleKeyRecord 1 2 "ipn:2.0", 10), (sampleKeyRecord 1 2 "ipn:9.0", 20)]

theorem reissued_refuses :
    reissued.status sampleNode (samplePair 2).pub (some (.text "ipn:9.0")) (time 10) =
      .ok (.fail "key_not_for_this_node") := by
  decide +kernel

theorem reissued_authorises : reissued.evidence.Authorises sampleNode (samplePair 2).pub
    (some (.text "ipn:9.0")) (time 10) roleCustody := by
  right
  have hfind : reissued.records.values.any (fun r =>
      decide (r.f.subject = some (.text "ipn:9.0")) && decide (r.f.kind = some (.int kindKey)) &&
        decide (r.item = sampleKeyRecord 1 2 "ipn:9.0") &&
        decide (r.f.pub = some (.bytes [2, 2, 2, 2])) &&
        decide (r.f.issuer = some (.bytes (sampleId 1))) && decide (r.f.roles = .int 1) &&
        decide (r.f.notBefore = time 0) && decide (r.f.notAfter = time 1000)) = true := by
    decide +kernel
  obtain ⟨r, hr, hfields⟩ := List.any_eq_true.mp hfind
  simp only [Bool.and_eq_true, decide_eq_true_eq] at hfields
  obtain ⟨⟨⟨⟨⟨⟨⟨hsubject, hkind⟩, hitem⟩, hpub⟩, hissuer⟩, hroles⟩, hbefore⟩, hafter⟩ := hfields
  have hnone : reissued.evidence.anchors.get? (keyIdOf sampleNode (samplePair 2).pub) = none := by
    decide +kernel
  have hanchor : reissued.evidence.anchors.get? (sampleId 1) =
      some ⟨"operator", some "ipn:1.0", (samplePair 1).pub⟩ := by decide +kernel
  have hi : r.f.issuer.bufferFrom sampleNode = .ok (sampleId 1) := by rw [hissuer, JsVal.bufferFrom]
  have hrole : hasRole sampleNode (anchorChain (sampleId 1)
      ⟨"operator", some "ipn:1.0", (samplePair 1).pub⟩).roles roleIssue = .ok true :=
    hasRole_nat (by decide) roleIssue
  have hsig : (Cose.verify1 sampleNode (sampleKeyRecord 1 2 "ipn:9.0")
      (some (samplePair 1).pub)).isOk = true := by decide +kernel
  have hkeys : reissued.records.values.all (fun r => r.f.kind.isInt kindKey) = true := by
    decide +kernel
  have hskew : reissued.evidence.skewMs = 0 := by decide +kernel
  have hid : keyIdOf sampleNode (spkiOf [2, 2, 2, 2]) = keyIdOf sampleNode (samplePair 2).pub := rfl
  refine ⟨hnone, r, mem_held_iff.mpr hr, ⟨hkind, _, hpub, hid⟩, ?_, ?_, ?_, ?_⟩
  · refine ⟨sampleId 1, _, hi, (Evidence.hasChain_anchor hanchor).mpr rfl, hrole,
      ⟨_, Or.inl ⟨_, hanchor, rfl⟩, by rw [hitem]; exact hsig⟩, trivial, ?_⟩
    -- no revocation is held
    intro q e hq _
    have hkind := List.all_eq_true.mp hkeys q (mem_held_iff.mp (Evidence.revokes_succ.mp hq).1)
    rw [JsVal.isInt_iff, (Evidence.revokes_succ.mp hq).2.1.1] at hkind
    cases hkind
  · rw [hsubject]
    rfl
  · rw [hroles]
    exact hasRole_nat (by decide) _
  · have htime : ∀ z : Int, Cbor.isNumber z = true → JsVal.toPrim (time z) = .int z :=
      fun z hz => Cbor.toPrim_int hz
    unfold Evidence.InWindow
    rw [hbefore, hafter, htime 0 rfl, htime 1000 rfl, htime 10 rfl, hskew]
    refine ⟨.int (0 - 0), .int (1000 + 0), Prim.sub_int _ _ _, Prim.add_int _ _ _, ?_, ?_⟩
    · rw [Prim.ge_int]
      decide
    · rw [Prim.le_int]
      decide

theorem reissued_not_complete : ¬ Complete sampleNode reissued := by
  intro h
  have hauth : reissued.evidence.Authorises sampleNode (samplePair 2).pub (some (.text "ipn:9.0"))
      (time 10) roleCustody := reissued_authorises
  obtain ⟨T, anchor, k, hst⟩ := (h _ _ _ _).mpr hauth
  rw [reissued_refuses] at hst
  cases hst

end Keyring

end DtnCustody
