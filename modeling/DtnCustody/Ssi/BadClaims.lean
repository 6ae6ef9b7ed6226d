/-
# DtnCustody.Ssi.BadClaims — what one bad claim does to a clearing.

`clear` catches nothing, so a claim that throws takes the settlement of everyone else with it. A claim is
`Clearable` when none of its parts throws: it decodes and its identity can be written; if its bundle was
delivered, the receipts can be read, each field 9 is a byte string, the keyring answers, every receipt that
counts is of an operator with a rate card, and the hop counts can be subtracted. **A clearing returns, with
the credits and statements of the claims that are well formed, exactly when every claim is clearable**
(`bad_claims_inert_iff`). An empty claim is not (`emptyClaim_stops`).
-/
import DtnCustody.Ssi.Cleared
import DtnCustody.Transport.AcceptedV2

namespace DtnCustody

open Base Js

namespace Settle

open ReceiptV2 (Fields KeyringAnswers readBlockItems)

variable (H : SettleHost) (P : Params)

/-! ## A claim that throws nowhere -/

/-- A receipt on which a verdict is reached. -/
structure ReceiptAnswers (before : List Cbor) (item : Cbor) (f : Fields) : Prop where
  chain : ∀ v, f.chain = some v → ∃ c, v = .bytes c
  keyring : chainMatches H before f = .ok true → KeyringAnswers H.toNode P.keyring item f

/-- Where both of two receipts carry counts, these are of one kind, and where they are BigInts a delivery
has no unsigned hop between the two. -/
structure CountsAdd (source : Source) (fs : List Fields) : Prop where
  kind : ∀ front a c back, fs = front ++ a :: c :: back → a.hopCount.truthy = true →
    c.hopCount.truthy = true → (countAt c 0).isBig = (countAt a 1).isBig
  small : ∀ front a c back, fs = front ++ a :: c :: back → a.hopCount.truthy = true →
    c.hopCount.truthy = true → source = .delivery →
      ∀ z w, countAt c 0 = .big z → countAt a 1 = .big w → z ≤ w

/-- What is asked of block 224 of a delivered bundle. -/
structure BlockClears (c : Claim) (b : Bundle) (items : List Cbor) (fs : List Fields) : Prop where
  block : itemsOf b = .ok items
  receipts : items.mapM (readFields H) = .ok fs
  answers : ∀ front p back, items.zip fs = front ++ p :: back →
    ReceiptAnswers H P (front.map Prod.fst) p.1 p.2
  rates : ∀ found, examine H P b = .ok found → tampered found = false →
    ∀ x ∈ finalFindings H c found, creditable P x = true → HasRate P x
  counts : (∃ found, examine H P b = .ok found ∧ tampered found = false) → CountsAdd c.source fs

/-- **A claim that throws nowhere.** -/
def Clearable (c : Claim) : Prop :=
  ∃ b, Bundle.decodeBundle H.toNode c.data = .ok b ∧
    (∀ id, b.bundleIdentity H.toNode = .ok id → id.serial = true) ∧
    ∀ id, identityText H b = .ok id → P.delivered id = true →
      ∃ items fs, BlockClears H P c b items fs

variable {H P}

/-! ## The verdicts -/

/-- The key that verifies the receipt, if any, is judged by its status. -/
theorem returns_statusOf {item : Cbor} {f : Fields} {cands : List Keyring.Pub} :
    Outcome.Returns
      (match cands.find? fun p => (Cose.verify1 H.toNode item (some p)).isOk with
        | none => (pure (.fail "signature_invalid") : Outcome Verdict)
        | some pub => do
            match ← P.keyring.status H.toNode pub f.thisHop (ReceiptV2.signedAt f) with
            | .fail reason => pure (.fail reason)
            | .ok revokedFrom _ _ => pure (.ok revokedFrom)) ↔
      ∀ pub, (cands.find? fun p => (Cose.verify1 H.toNode item (some p)).isOk) = some pub →
        Outcome.Returns (P.keyring.status H.toNode pub f.thisHop (ReceiptV2.signedAt f)) := by
  cases cands.find? fun p => (Cose.verify1 H.toNode item (some p)).isOk with
  | none => exact iff_of_true (Outcome.returns_pure _) (fun _ h => by cases h)
  | some pub =>
      dsimp only
      rw [Outcome.returns_bind]
      constructor
      · rintro ⟨h, _⟩ p hp
        cases hp
        exact h
      · intro h
        refine ⟨h pub rfl, fun st _ => ?_⟩
        cases st with
        | fail reason => exact Outcome.returns_pure _
        | ok revokedFrom anchor keyId => exact Outcome.returns_pure _

theorem returns_judgeKey {item : Cbor} {f : Fields} :
    Outcome.Returns (judgeKey H P item f) ↔ KeyringAnswers H.toNode P.keyring item f := by
  unfold judgeKey
  rw [Outcome.returns_bind]
  constructor
  · rintro ⟨hpubs, h⟩
    exact ⟨hpubs, fun cands pub hc => returns_statusOf.mp (h cands hc) pub⟩
  · intro h
    exact ⟨h.pubs, fun cands hc => returns_statusOf.mpr fun pub => h.status cands pub hc⟩

theorem returns_chainMatches {before : List Cbor} {f : Fields}
    (hbefore : ∃ e, Cbor.encode (.array before) = .ok e) :
    Outcome.Returns (chainMatches H before f) ↔ ∀ v, f.chain = some v → ∃ c, v = .bytes c := by
  unfold chainMatches
  cases f.chain with
  | none => exact iff_of_true (Outcome.returns_ok _) (fun _ h => by cases h)
  | some v =>
      cases v with
      | bytes c =>
          dsimp only
          rw [Outcome.returns_map, ReceiptV2.returns_chainDigest]
          refine iff_of_true hbefore fun v hv => ?_
          cases hv
          exact ⟨c, rfl⟩
      | _ => simp

theorem returns_judge {before : List Cbor} {item : Cbor} {f : Fields}
    (hbefore : ∃ e, Cbor.encode (.array before) = .ok e) :
    Outcome.Returns (judge H P before item f) ↔ ReceiptAnswers H P before item f := by
  unfold judge
  rw [Outcome.returns_bind, returns_chainMatches hbefore]
  constructor
  · rintro ⟨hchain, h⟩
    exact ⟨hchain, fun hmatch => returns_judgeKey.mp (by simpa using h true hmatch)⟩
  · intro h
    refine ⟨h.chain, fun m hm => ?_⟩
    cases m with
    | false => exact Outcome.returns_pure _
    | true => exact returns_judgeKey.mpr (h.keyring hm)

theorem returns_judgeAll {pairs : List (Cbor × Fields)} : ∀ {before : List Cbor},
    (∃ e, Cbor.encode (.array (before ++ pairs.map Prod.fst)) = .ok e) →
    (Outcome.Returns (judgeAll H P before pairs) ↔
      ∀ front p back, pairs = front ++ p :: back →
        ReceiptAnswers H P (before ++ front.map Prod.fst) p.1 p.2) := by
  induction pairs with
  | nil =>
      intro before _
      exact iff_of_true (Outcome.returns_ok _) fun front p back h => by simp at h
  | cons p pairs ih =>
      obtain ⟨item, f⟩ := p
      intro before hall
      rw [List.map_cons] at hall
      have hrest : ∃ e, Cbor.encode (.array ((before ++ [item]) ++ pairs.map Prod.fst)) = .ok e := by
        rw [List.append_assoc]
        exact hall
      rw [judgeAll, Outcome.returns_bind, returns_judge (Cbor.encodes_front hall)]
      have htail : (∀ v, judge H P before item f = .ok v → Outcome.Returns (do
          return ⟨item, f, v⟩ :: (← judgeAll H P (before ++ [item]) pairs) :
            Outcome (List Finding))) ↔
          (ReceiptAnswers H P before item f →
            Outcome.Returns (judgeAll H P (before ++ [item]) pairs)) := by
        rw [← returns_judge (Cbor.encodes_front hall)]
        constructor
        · rintro h ⟨v, hv⟩
          exact Outcome.returns_map.mp (h v hv)
        · exact fun h v hv => Outcome.returns_map.mpr (h ⟨v, hv⟩)
      rw [htail, ih hrest]
      constructor
      · rintro ⟨hhead, h⟩ front q back heq
        cases front with
        | nil =>
            cases heq
            simpa using hhead
        | cons r front =>
            cases heq
            have hq := h hhead front q back rfl
            rw [List.append_assoc] at hq
            exact hq
      · intro h
        refine ⟨by simpa using h [] (item, f) pairs rfl, fun _ front q back heq => ?_⟩
        have hq := h ((item, f) :: front) q back (by rw [heq]; rfl)
        rw [List.append_assoc]
        exact hq

/-! ## The counts -/

/-- What `claim.unsigned` can be: nothing yet, or a Number. -/
def IsTotal (total : Prim) : Prop := total = .undef ∨ ∃ n, total = .num n

/-- A difference is a BigInt of two BigInts, or a Number. -/
theorem sub_cases {x y n : Prim} (h : x.sub H.toNode y = .ok n) :
    (∃ z w, x = .big z ∧ y = .big w ∧ n = .big (z - w)) ∨ ∃ k, n = .num k := by
  have number : ∀ {x y : Prim},
      (do return Prim.num ((← x.toNumber H.toNode).sub (← y.toNumber H.toNode)) : Outcome Prim)
        = .ok n → ∃ k, n = .num k := by
    intro x y h
    obtain ⟨a, _, h⟩ := Outcome.bind_eq_ok.mp h
    obtain ⟨b, _, h⟩ := Outcome.bind_eq_ok.mp h
    cases h
    exact ⟨_, rfl⟩
  cases x with
  | big z =>
      cases y with
      | big w => cases h; exact Or.inl ⟨z, w, rfl, rfl, rfl⟩
      | _ => exact Or.inr (number h)
  | _ => exact Or.inr (number h)

theorem returns_add_number {total : Prim} {k : JsNum} (ht : IsTotal total) :
    ∃ r, (if total.truthy then total else .int 0).add H.toNode (.num k) = .ok r ∧ IsTotal r := by
  rcases ht with rfl | ⟨m, rfl⟩
  · exact ⟨_, rfl, Or.inr ⟨_, rfl⟩⟩
  · by_cases hm : (Prim.num m).truthy
    · rw [if_pos hm]
      exact ⟨_, rfl, Or.inr ⟨_, rfl⟩⟩
    · rw [if_neg hm]
      exact ⟨_, rfl, Or.inr ⟨_, rfl⟩⟩

theorem not_returns_add_big {total : Prim} {z : Int} (ht : IsTotal total) :
    ¬ Outcome.Returns ((if total.truthy then total else .int 0).add H.toNode (.big z)) := by
  have hthrow : ∀ k : JsNum, ¬ Outcome.Returns ((Prim.num k).add H.toNode (.big z)) := by
    intro k
    simp [Prim.add, Prim.toNumber]
  rcases ht with rfl | ⟨m, rfl⟩
  · exact hthrow _
  · by_cases hm : (Prim.num m).truthy
    · rw [if_pos hm]
      exact hthrow m
    · rw [if_neg hm]
      exact hthrow _

/-- Two receipts whose counts can be taken from one another. -/
def PairAdds (source : Source) (a c : Fields) : Prop :=
  a.hopCount.truthy = true → c.hopCount.truthy = true →
    (countAt c 0).isBig = (countAt a 1).isBig ∧
      (source = .delivery → ∀ z w, countAt c 0 = .big z → countAt a 1 = .big w → z ≤ w)

theorem lt_big (z : Int) : (Prim.int 0).lt H.toNode (.big z) = decide (0 < z) := by
  simp [Prim.lt, Prim.lt?, Prim.toComparable]

theorem returns_countUnsigned {source : Source} {total : Prim} {a c : Fields} (ht : IsTotal total) :
    (Outcome.Returns (countUnsigned H source total a c) ↔ PairAdds source a c) ∧
      ∀ r, countUnsigned H source total a c = .ok r → IsTotal r := by
  unfold countUnsigned PairAdds
  by_cases hgiven : (a.hopCount.truthy && c.hopCount.truthy) = true
  · obtain ⟨ha, hc⟩ := Bool.and_eq_true_iff.mp hgiven
    rw [if_pos hgiven]
    simp only [ha, hc, forall_const]
    rw [Outcome.returns_bind, Prim.returns_sub]
    have hturn : ∀ n, (countAt c 0).sub H.toNode (countAt a 1) = .ok n →
        (Outcome.Returns (if (Prim.int 0).lt H.toNode n && source = .delivery then
          (if total.truthy then total else .int 0).add H.toNode n else pure total) ↔
          (source = .delivery → ∀ z w, countAt c 0 = .big z → countAt a 1 = .big w → z ≤ w)) ∧
        ∀ r, (if (Prim.int 0).lt H.toNode n && source = .delivery then
          (if total.truthy then total else .int 0).add H.toNode n else pure total) = .ok r →
            IsTotal r := by
      intro n hn
      rcases sub_cases hn with ⟨z, w, hz, hw, rfl⟩ | ⟨k, rfl⟩
      · have hpos : (Prim.int 0).lt H.toNode (.big (z - w)) = decide (0 < z - w) := lt_big _
        by_cases hcond : ((Prim.int 0).lt H.toNode (.big (z - w)) && source = .delivery) = true
        · rw [if_pos hcond]
          rw [hpos, Bool.and_eq_true, decide_eq_true_eq, decide_eq_true_eq] at hcond
          refine ⟨iff_of_false (not_returns_add_big ht) fun h => ?_, fun r hr => ?_⟩
          · have hle := h hcond.2 z w hz hw
            omega
          · exact absurd ⟨r, hr⟩ (not_returns_add_big ht)
        · rw [if_neg hcond]
          rw [hpos, Bool.and_eq_true, decide_eq_true_eq, decide_eq_true_eq, not_and] at hcond
          refine ⟨iff_of_true (Outcome.returns_pure _) fun hs z' w' hz' hw' => ?_, fun r hr => ?_⟩
          · rw [hz] at hz'
            rw [hw] at hw'
            cases hz'
            cases hw'
            by_contra hlt
            exact hcond (by omega) hs
          · cases hr
            exact ht
      · have hnumber : ∀ z w, countAt c 0 = .big z → countAt a 1 = .big w → z ≤ w := by
          intro z w hz hw
          rw [hz, hw] at hn
          cases hn
        obtain ⟨r, hr, hr'⟩ := returns_add_number (H := H) (k := k) ht
        by_cases hcond : ((Prim.int 0).lt H.toNode (.num k) && source = .delivery) = true
        · rw [if_pos hcond, hr]
          refine ⟨iff_of_true (Outcome.returns_ok _) fun _ => hnumber, fun r' hr₁ => ?_⟩
          cases hr₁
          exact hr'
        · rw [if_neg hcond]
          refine ⟨iff_of_true (Outcome.returns_pure _) fun _ => hnumber, fun r' hr₁ => ?_⟩
          cases hr₁
          exact ht
    constructor
    · refine and_congr_right fun hkind => ?_
      obtain ⟨n, hn⟩ := (Prim.returns_sub (N := H.toNode) _ _).mpr hkind
      exact ⟨fun h => (hturn n hn).1.mp (h n hn), fun h n' hn' => (hturn n' hn').1.mpr h⟩
    · intro r hr
      obtain ⟨n, hn, hr⟩ := Outcome.bind_eq_ok.mp hr
      exact (hturn n hn).2 r hr
  · rw [if_neg hgiven]
    refine ⟨iff_of_true (Outcome.returns_ok _) fun ha hc => absurd ?_ hgiven, fun r hr => ?_⟩
    · rw [ha, hc]; rfl
    · cases hr
      exact ht

theorem countsAdd_iff {source : Source} {fs : List Fields} :
    CountsAdd source fs ↔ ∀ front a c back, fs = front ++ a :: c :: back → PairAdds source a c := by
  constructor
  · exact fun h front a c back heq ha hc =>
      ⟨h.kind front a c back heq ha hc, h.small front a c back heq ha hc⟩
  · exact fun h => ⟨fun front a c back heq ha hc => (h front a c back heq ha hc).1,
      fun front a c back heq ha hc => (h front a c back heq ha hc).2⟩

theorem returns_unsignedHops {source : Source} {fs : List Fields} : ∀ {total : Prim},
    IsTotal total → (Outcome.Returns (unsignedHops H source total fs) ↔ CountsAdd source fs) := by
  induction fs with
  | nil =>
      intro total _
      exact iff_of_true (Outcome.returns_ok _) (countsAdd_iff.mpr fun front a c back h => by simp at h)
  | cons a fs ih =>
      intro total ht
      cases fs with
      | nil =>
          refine iff_of_true (Outcome.returns_ok _) (countsAdd_iff.mpr fun front b c back h => ?_)
          have hlen : 1 = (front ++ b :: c :: back).length := congrArg List.length h
          rw [List.length_append, List.length_cons, List.length_cons] at hlen
          omega
      | cons c fs =>
          obtain ⟨hreturns, htotal⟩ := @returns_countUnsigned H source total a c ht
          rw [unsignedHops, Outcome.returns_bind, hreturns]
          have hsplit : CountsAdd source (a :: c :: fs) ↔
              PairAdds source a c ∧ CountsAdd source (c :: fs) := by
            rw [countsAdd_iff, countsAdd_iff]
            constructor
            · exact fun h => ⟨h [] a c fs rfl,
                fun front x y back heq => h (a :: front) x y back (by rw [heq]; rfl)⟩
            · rintro ⟨hhead, h⟩ front x y back heq
              cases front with
              | nil =>
                  cases heq
                  exact hhead
              | cons z front => exact h front x y back (List.cons.inj heq).2
          rw [hsplit]
          refine and_congr_right fun hpair => ?_
          obtain ⟨r, hr⟩ := hreturns.mpr hpair
          exact ⟨fun h => (ih (htotal r hr)).mp (h r hr), fun h r' hr' => (ih (htotal r' hr')).mpr h⟩

/-! ## Clearable claims settle -/

theorem returns_identityText {b : Bundle} {buf : Bytes} (h : Bundle.decodeBundle H.toNode buf = .ok b) :
    Outcome.Returns (identityText H b) ↔
      ∀ id, b.bundleIdentity H.toNode = .ok id → id.serial = true := by
  unfold identityText
  obtain ⟨id, hid⟩ := ReceiptV2.returns_bundleIdentity h
  rw [hid, Outcome.ok_bind, Outcome.returns_map, Identity.returns_toJson]
  constructor
  · intro hserial id' hid'
    cases hid'
    exact hserial
  · exact fun h => h id rfl

theorem returns_payloadOf {b : Bundle} {buf : Bytes} (h : Bundle.decodeBundle H.toNode buf = .ok b) :
    Outcome.Returns b.payloadOf :=
  (Bundle.decodeBundle_wellFormed H.toNode h).payloadOf_ok

theorem map_f_examine {b : Bundle} {items : List Cbor} {fs : List Fields} {found : List Finding}
    (hitems : itemsOf b = .ok items) (hfs : items.mapM (readFields H) = .ok fs)
    (h : examine H P b = .ok found) : found.map Finding.f = fs := by
  unfold examine at h
  rw [hitems, Outcome.ok_bind, hfs, Outcome.ok_bind] at h
  have hsnd := congrArg (List.map Prod.snd) (map_item_judgeAll h)
  rw [List.map_map, List.map_snd_zip (Outcome.mapM_eq_ok hfs).length_eq.ge] at hsnd
  exact hsnd

theorem returns_examine {b : Bundle} {items : List Cbor} {fs : List Fields}
    (hdata : ∀ x ∈ b.blocks, x.data.length ≤ Cbor.addressable) (hitems : itemsOf b = .ok items)
    (hfs : items.mapM (readFields H) = .ok fs) :
    Outcome.Returns (examine H P b) ↔ ∀ front p back, items.zip fs = front ++ p :: back →
      ReceiptAnswers H P (front.map Prod.fst) p.1 p.2 := by
  unfold examine
  rw [hitems, Outcome.ok_bind, hfs, Outcome.ok_bind]
  have hfst : (items.zip fs).map Prod.fst = items := List.map_fst_zip (Outcome.mapM_eq_ok hfs).length_eq.le
  have hall : ∃ e, Cbor.encode (.array ([] ++ (items.zip fs).map Prod.fst)) = .ok e := by
    rw [List.nil_append, hfst]
    exact itemsOf_encodes hdata hitems
  exact returns_judgeAll hall

/-- What `readClaim` makes of a claim that decodes and whose identity can be written. -/
theorem readClaim_eq {c : Claim} {b : Bundle} {id : JsString} {payload : Bytes}
    (hb : Bundle.decodeBundle H.toNode c.data = .ok b) (hid : identityText H b = .ok id)
    (hpayload : b.payloadOf = .ok payload) :
    readClaim H P c = if P.delivered id then do
        let found ← examine H P b
        if tampered found then return .refused "chain_digest_mismatch"
        else return .opened id payload.length found
      else .ok (.refused "bundle_never_delivered") := by
  unfold readClaim
  rw [hb, Outcome.ok_bind, hid, Outcome.ok_bind, hpayload, Outcome.ok_bind]
  cases P.delivered id <;> rfl

/-- **A claim settles exactly when it is clearable.** -/
theorem settles_iff {c : Claim} : Settles H P c ↔ Clearable H P c := by
  constructor
  · rintro ⟨r, hr, h⟩
    have hread := hr
    unfold readClaim at hr
    obtain ⟨b, hb, hr⟩ := Outcome.bind_eq_ok.mp hr
    obtain ⟨text, htext, hr⟩ := Outcome.bind_eq_ok.mp hr
    obtain ⟨payload, hpayload, hr⟩ := Outcome.bind_eq_ok.mp hr
    have hdata : ∀ x ∈ b.blocks, x.data.length ≤ Cbor.addressable := fun x hx =>
      (Bundle.decodeBundle_data_le hb x hx).trans c.fits
    refine ⟨b, hb, (returns_identityText hb).mp ⟨text, htext⟩, fun id hid hdelivered => ?_⟩
    rw [hid] at htext
    cases htext
    rw [readClaim_eq hb hid hpayload, if_pos hdelivered] at hread
    obtain ⟨found, hfound, hread⟩ := Outcome.bind_eq_ok.mp hread
    obtain ⟨items, hitems, hexamine⟩ := Outcome.bind_eq_ok.mp hfound
    obtain ⟨fs, hfs, _⟩ := Outcome.bind_eq_ok.mp hexamine
    have hmap := map_f_examine hitems hfs hfound
    refine ⟨items, fs, hitems, hfs, (returns_examine hdata hitems hfs).mp ⟨found, hfound⟩, ?_, ?_⟩
    · intro found' hfound' htamper
      rw [hfound] at hfound'
      cases hfound'
      rw [if_neg (by simp [htamper])] at hread
      cases hread
      exact h.1
    · rintro ⟨found', hfound', htamper⟩
      rw [hfound] at hfound'
      cases hfound'
      rw [if_neg (by simp [htamper])] at hread
      cases hread
      have hcounts := (returns_unsignedHops (Or.inl rfl)).mp h.2
      rwa [hmap] at hcounts
  · rintro ⟨b, hb, hserial, hblock⟩
    obtain ⟨id, hid⟩ := (returns_identityText hb).mpr hserial
    obtain ⟨payload, hpayload⟩ := returns_payloadOf hb
    have hdata : ∀ x ∈ b.blocks, x.data.length ≤ Cbor.addressable := fun x hx =>
      (Bundle.decodeBundle_data_le hb x hx).trans c.fits
    unfold Settles
    rw [readClaim_eq hb hid hpayload]
    by_cases hdelivered : P.delivered id = true
    · rw [if_pos hdelivered]
      obtain ⟨items, fs, hclears⟩ := hblock id hid hdelivered
      obtain ⟨found, hfound⟩ :=
        (returns_examine hdata hclears.block hclears.receipts).mpr hclears.answers
      rw [hfound, Outcome.ok_bind]
      by_cases htamper : tampered found = true
      · rw [if_pos htamper]
        exact ⟨_, rfl, trivial⟩
      · rw [if_neg htamper]
        have hfalse : tampered found = false := by simpa using htamper
        refine ⟨_, rfl, hclears.rates found hfound hfalse, ?_⟩
        rw [map_f_examine hclears.block hclears.receipts hfound]
        exact (returns_unsignedHops (Or.inl rfl)).mpr (hclears.counts ⟨found, hfound, hfalse⟩)
    · rw [if_neg hdelivered]
      exact ⟨_, rfl, trivial⟩

/-! ## Malformed claims -/

/-- A claim that decodes and whose block 224 holds receipts that can be read. -/
def wellFormed (H : SettleHost) (c : Claim) : Bool :=
  match Bundle.decodeBundle H.toNode c.data with
  | .error _ => false
  | .ok b =>
      match readBlockItems b with
      | .ok (.v2 items) => (items.mapM (readFields H)).isOk
      | _ => false

/-- The credits and the accounts are the same. -/
def SameCredits (s s' : State) : Prop := s'.credited = s.credited ∧ s'.perOp = s.perOp

/-- A version 1 block starts with a text. -/
theorem readBlockItems_v1 {b : Bundle} {items : List Cbor} (h : readBlockItems b = .ok (.v1 items)) :
    ∃ s rest, items = .text s :: rest := by
  unfold readBlockItems at h
  split at h
  · cases h
  · obtain ⟨v, _, h⟩ := Outcome.bind_eq_ok.mp h
    split at h
    · cases h
    · rename_i hne _
      split at h
      · rename_i hall
        cases h
        obtain ⟨x, rest, rfl⟩ := List.exists_cons_of_ne_nil hne
        rw [List.all_cons, Bool.and_eq_true] at hall
        cases x with
        | text s => exact ⟨s, rest, rfl⟩
        | _ => cases hall.1
      · split at h <;> cases h
    · cases h
  · cases h

/-- A malformed claim that settles was never delivered, or brings no receipt. -/
theorem readClaim_malformed {c : Claim} (hmal : wellFormed H c = false) {r : Reading}
    (h : readClaim H P c = .ok r) : ∃ reason, r = .refused reason ∨ ∃ id n, r = .opened id n [] := by
  unfold readClaim at h
  obtain ⟨b, hb, h⟩ := Outcome.bind_eq_ok.mp h
  obtain ⟨id, _, h⟩ := Outcome.bind_eq_ok.mp h
  obtain ⟨payload, _, h⟩ := Outcome.bind_eq_ok.mp h
  split at h
  · cases h
    exact ⟨_, Or.inl rfl⟩
  · obtain ⟨found, hfound, h⟩ := Outcome.bind_eq_ok.mp h
    obtain ⟨items, hitems, hexamine⟩ := Outcome.bind_eq_ok.mp hfound
    obtain ⟨fs, hfs, hjudge⟩ := Outcome.bind_eq_ok.mp hexamine
    obtain ⟨block, hblock, hitems⟩ := Outcome.bind_eq_ok.mp hitems
    cases block with
    | none =>
        cases hitems
        cases hfs
        cases hjudge
        cases h
        exact ⟨"", Or.inr ⟨id, payload.length, rfl⟩⟩
    | v1 items =>
        cases hitems
        exfalso
        obtain ⟨s, rest, rfl⟩ := readBlockItems_v1 hblock
        rw [List.mapM_cons] at hfs
        obtain ⟨f, hf, _⟩ := Outcome.bind_eq_ok.mp hfs
        cases hf
    | v2 items =>
        cases hitems
        unfold wellFormed at hmal
        rw [hb] at hmal
        simp only [hblock, hfs] at hmal
        cases hmal

theorem clearClaim_malformed {c : Claim} (hmal : wellFormed H c = false) {s s' : State}
    (h : clearClaim H P s c = .ok s') : SameCredits s s' := by
  obtain ⟨r, hr, h⟩ := Outcome.bind_eq_ok.mp h
  obtain ⟨reason, rfl | ⟨id, n, rfl⟩⟩ := readClaim_malformed hmal hr
  · cases h
    exact ⟨rfl, rfl⟩
  · cases h
    exact ⟨rfl, rfl⟩

theorem postReceipt_same {note : String} {id : JsString} {n : Nat} {x : Finding} {s t s' : State}
    (hst : SameCredits s t) (h : postReceipt H P note id n s x = .ok s') :
    ∃ t', postReceipt H P note id n t x = .ok t' ∧ SameCredits s' t' := by
  have adjust : ∀ {s t s' : State} {op : String} {f : Account → Account}, SameCredits s t →
      s.adjust op f = .ok s' → ∃ t', t.adjust op f = .ok t' ∧ SameCredits s' t' := by
    intro s t s' op f hst h
    unfold State.adjust at h ⊢
    rw [hst.2]
    cases ha : s.perOp.get? op with
    | none => rw [ha] at h; cases h
    | some a =>
        rw [ha] at h
        cases h
        exact ⟨_, rfl, hst.1, rfl⟩
  unfold postReceipt at h ⊢
  cases hv : x.v with
  | fail reason =>
      rw [hv] at h
      unfold refuseReceipt at h ⊢
      dsimp only at h ⊢
      cases hop : P.opOf (hopOf x) with
      | none =>
          rw [hop] at h
          cases h
          exact ⟨_, rfl, hst⟩
      | some o =>
          rw [hop] at h
          dsimp only at h ⊢
          by_cases hempty : o = ""
          · rw [if_pos hempty] at h ⊢
            cases h
            exact ⟨_, rfl, hst⟩
          · rw [if_neg hempty] at h ⊢
            exact adjust (s := s.reject _) (t := t.reject _) hst h
  | ok revokedFrom =>
      rw [hv] at h
      unfold creditReceipt at h ⊢
      dsimp only at h ⊢
      rw [hst.1]
      by_cases howner : P.opOf (hopOf x) = some P.owner
      · rw [if_pos howner] at h ⊢
        cases h
        exact ⟨t, rfl, hst⟩
      · rw [if_neg howner] at h ⊢
        by_cases hhas : s.credited.has (creditKey id (hopOf x)) = true
        · rw [if_pos hhas] at h ⊢
          cases h
          exact ⟨t, rfl, hst⟩
        · rw [if_neg hhas] at h ⊢
          cases hrate : P.operators.get? ((P.opOf (hopOf x)).getD "undefined") with
          | none => simp only [hrate] at h; cases h
          | some rate =>
              simp only [hrate] at h ⊢
              obtain ⟨leaf, hleaf, h⟩ := Outcome.bind_eq_ok.mp h
              rw [hleaf, Outcome.ok_bind]
              refine adjust ?_ h
              exact ⟨rfl, hst.2⟩

theorem clearClaim_same {c : Claim} {s t s' : State} (hst : SameCredits s t)
    (h : clearClaim H P s c = .ok s') : ∃ t', clearClaim H P t c = .ok t' ∧ SameCredits s' t' := by
  have all : ∀ {found : List Finding} {note : String} {id : JsString} {n : Nat} {s t s' : State},
      SameCredits s t → found.foldlM (postReceipt H P note id n) s = .ok s' →
        ∃ t', found.foldlM (postReceipt H P note id n) t = .ok t' ∧ SameCredits s' t' := by
    intro found note id n
    induction found with
    | nil => intro s t s' hst h; cases h; exact ⟨t, rfl, hst⟩
    | cons x found ih =>
        intro s t s' hst h
        rw [List.foldlM_cons] at h
        obtain ⟨u, hu, h⟩ := Outcome.bind_eq_ok.mp h
        obtain ⟨u', hu', hsame⟩ := postReceipt_same hst hu
        obtain ⟨t', ht', hsame'⟩ := ih hsame h
        exact ⟨t', by rw [List.foldlM_cons, hu', Outcome.ok_bind, ht'], hsame'⟩
  obtain ⟨r, hr, h⟩ := Outcome.bind_eq_ok.mp h
  unfold clearClaim
  rw [hr, Outcome.ok_bind]
  cases r with
  | refused reason =>
      cases h
      exact ⟨_, rfl, hst⟩
  | opened id n found =>
      obtain ⟨u, hu, h⟩ := Outcome.bind_eq_ok.mp h
      obtain ⟨m, hm, h⟩ := Outcome.bind_eq_ok.mp h
      cases h
      obtain ⟨t', ht', hsame⟩ := all hst hu
      simp only [ht', hm, Outcome.ok_bind]
      exact ⟨_, rfl, hsame⟩

/-- **Malformed claims that settle change nothing** in the credits. -/
theorem postFrom_filter {claims : List Claim} : ∀ {s t s' : State}, SameCredits s t →
    claims.foldlM (clearClaim H P) s = .ok s' →
      ∃ t', (claims.filter (wellFormed H)).foldlM (clearClaim H P) t = .ok t' ∧
        SameCredits s' t' := by
  induction claims with
  | nil => intro s t s' hst h; cases h; exact ⟨t, rfl, hst⟩
  | cons c claims ih =>
      intro s t s' hst h
      rw [List.foldlM_cons] at h
      obtain ⟨u, hu, h⟩ := Outcome.bind_eq_ok.mp h
      cases hgood : wellFormed H c with
      | false =>
          have hsame := clearClaim_malformed hgood hu
          rw [List.filter_cons_of_neg (by simp [hgood])]
          exact ih ⟨hst.1.trans hsame.1.symm, hst.2.trans hsame.2.symm⟩ h
      | true =>
          obtain ⟨u', hu', hsame⟩ := clearClaim_same hst hu
          obtain ⟨t', ht', hsame'⟩ := ih hsame h
          rw [List.filter_cons_of_pos hgood, List.foldlM_cons, hu']
          exact ⟨t', ht', hsame'⟩

/-! ## The clearing -/

/-- The clearing returns, with the credits and statements of the well-formed claims. -/
def BadClaimsInert (H : SettleHost) (P : Params) (claims : List Claim) : Prop :=
  ∃ r r', clear H P claims = .ok r ∧ clear H P (claims.filter (wellFormed H)) = .ok r' ∧
    r'.perOp = r.perOp ∧ r'.credited = r.credited ∧ r'.statements = r.statements

/-- **Bad claims are harmless exactly when every claim is clearable.** -/
theorem bad_claims_inert_iff (H : SettleHost) (P : Params) (claims : List Claim) :
    BadClaimsInert H P claims ↔ ∀ c ∈ claims, Clearable H P c := by
  have hall : (∀ c ∈ claims, Settles H P c) ↔ ∀ c ∈ claims, Clearable H P c :=
    forall₂_congr fun c _ => settles_iff
  rw [← hall, ← returns_clear]
  constructor
  · rintro ⟨r, _, hr, _⟩
    exact ⟨r, hr⟩
  · rintro ⟨r, hr⟩
    have hclear := hr
    unfold clear at hr
    obtain ⟨s, hs, hr⟩ := Outcome.bind_eq_ok.mp hr
    obtain ⟨statements, hstatements, hr⟩ := Outcome.bind_eq_ok.mp hr
    cases hr
    obtain ⟨t, ht, hcredited, hperOp⟩ := postFrom_filter ⟨rfl, rfl⟩ hs
    have hfiltered : clear H P (claims.filter (wellFormed H)) = .ok
        { perOp := t.perOp.entries.map fun p => if billable P p then (p.1, p.2.close) else p,
          rejected := t.rejected, statements, credited := t.credited.size } := by
      unfold clear post
      rw [ht, Outcome.ok_bind, hperOp, hstatements]
      rfl
    exact ⟨_, _, hclear, hfiltered, by rw [hperOp], by rw [hcredited], rfl⟩

/-! ## A claim that stops the clearing -/

/-- A runtime that reads no payload from an array. -/
def sampleSettleHost : SettleHost where
  toNode := sampleNode
  bufferOf _ := none
  looseFields _ := .error .typeError

/-- A world with one operator, a node of its own and a node of the owner's. -/
def sampleParams : Params where
  keyring := .new sampleNode [⟨"lunaA", some "ipn:1.0", (Keyring.samplePair 1).pub⟩]
  delivered _ := true
  owner := "science"
  clearingKey := ⟨[9], js "CQ=="⟩
  period := .null
  operators := .ofList [("lunaA", 2), ("science", 0)]
  opOf eid := if eid = "ipn:1.0" then some "lunaA" else if eid = "ipn:9.0" then some "science" else none
  known eid op h := by
    split at h
    · cases h; rfl
    · split at h <;> cases h
      rfl
  shallow := by decide

def emptyClaim : Claim where
  data := []
  fits := by decide
  arrivedAt := .fin 0
  source := .submitted
  note := "nothing"

/-- One claim with no data, and nobody is paid. -/
theorem emptyClaim_stops : ¬ BadClaimsInert sampleSettleHost sampleParams [emptyClaim] := by
  rintro ⟨r, _, hr, _⟩
  cases hr

end Settle

end DtnCustody
