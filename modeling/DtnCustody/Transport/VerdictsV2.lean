/-
# DtnCustody.Transport.VerdictsV2 — when `verifyBundleV2` comes to a verdict.

Check by check: what makes it throw is a BigInt where JSON is written, a BigInt and a Number in one
subtraction, a keyring that throws, or a Previous Node or Hop Count block that does not decode. The
loop comes to a verdict when every receipt it gets to is free of these (`ReceiptReturns`), and the end
when its two blocks are (`EndReturns`).
-/
import DtnCustody.Transport.BundleCodec
import DtnCustody.Transport.VerifyV2

namespace DtnCustody

open Base Js

namespace Js.Prim

variable {N : Node}

def isBig : Prim → Bool
  | .big _ => true
  | _ => false

theorem returns_toNumber (x : Prim) : Outcome.Returns (x.toNumber N) ↔ x.isBig = false := by
  cases x with
  | big z => simp [toNumber, isBig]
  | _ => simp [toNumber, isBig]

/-- **A subtraction returns** unless one side is a BigInt and the other is not. -/
theorem returns_sub (x y : Prim) : Outcome.Returns (x.sub N y) ↔ x.isBig = y.isBig := by
  have hmixed : ∀ x y : Prim, x.isBig = false ∨ y.isBig = false →
      (Outcome.Returns (do return Prim.num ((← x.toNumber N).sub (← y.toNumber N)) : Outcome Prim) ↔
        x.isBig = y.isBig) := by
    intro x y hone
    rw [Outcome.returns_bind, returns_toNumber]
    constructor
    · rintro ⟨hx, hrest⟩
      obtain ⟨n, hn⟩ := (returns_toNumber (N := N) x).mpr hx
      rw [hx, (returns_toNumber y).mp (Outcome.returns_map.mp (hrest n hn))]
    · intro heq
      have hx : x.isBig = false := hone.elim id fun hy => heq.trans hy
      exact ⟨hx, fun n _ => Outcome.returns_map.mpr ((returns_toNumber y).mpr (heq.symm.trans hx))⟩
  cases x with
  | big z =>
      cases y with
      | big w => simp [sub, isBig]
      | _ => exact hmixed _ _ (Or.inr rfl)
  | _ => exact hmixed _ _ (Or.inl rfl)

theorem returns_bitAnd (x : Prim) (mask : Nat) :
    Outcome.Returns (x.bitAnd N mask) ↔ x.isBig = false := by
  rw [bitAnd, Outcome.returns_map, returns_toNumber]

end Js.Prim

namespace ReceiptV2

variable {N : Node} {o : Options} {id : Identity} {hash : Bytes} {before : List Cbor}
  {s : LoopState} {item : Cbor} {f : Fields}

/-! ## One receipt -/

theorem returns_chainDigest :
    Outcome.Returns (chainDigest N before) ↔ Outcome.Returns (Cbor.encode (.array before)) := by
  rw [chainDigest, Outcome.returns_map]

theorem returns_checkChain : Outcome.Returns (checkChain N before f) ↔
    ∀ c, f.chain = some (.bytes c) → Outcome.Returns (Cbor.encode (.array before)) := by
  unfold checkChain
  cases f.chain with
  | none => simp
  | some v =>
      cases v with
      | bytes c =>
          dsimp only
          rw [Check.returns_andThen, Check.returns_eval, returns_chainDigest]
          constructor
          · rintro ⟨h, _⟩ _ _
            exact h
          · intro h
            exact ⟨h c rfl, fun digest _ => Check.returns_require _ _⟩
      | _ => simp

/-- The two lookups of a keyring that a receipt leads to. -/
structure KeyringAnswers (N : Node) (kr : Keyring) (item : Cbor) (f : Fields) : Prop where
  pubs : Outcome.Returns (kr.pubsFor f.thisHop)
  status : ∀ cands pub, kr.pubsFor f.thisHop = .ok cands →
    (cands.find? fun p => (Cose.verify1 N item (some p)).isOk) = some pub →
      Outcome.Returns (kr.status N pub f.thisHop (signedAt f))

/-- The key that verifies the receipt, if any, is judged by its status. -/
theorem returns_checkCandidates {kr : Keyring} (cands : List Keyring.Pub) :
    Outcome.Returns (if cands = [] then
      Check.refuse "custodian_key_unknown"
      else match cands.find? fun p => (Cose.verify1 N item (some p)).isOk with
        | none => Check.refuse "signature_invalid"
        | some pub =>
            Check.andThen (Check.eval (kr.status N pub f.thisHop (signedAt f))) fun st =>
              match st with
              | .fail reason => Check.refuse reason
              | .ok revokedFrom anchor keyId => Check.pass [KeyState.mk revokedFrom anchor keyId] :
            Check String (List KeyState)) ↔
      ∀ pub, (cands.find? fun p => (Cose.verify1 N item (some p)).isOk) = some pub →
        Outcome.Returns (kr.status N pub f.thisHop (signedAt f)) := by
  by_cases hnil : cands = []
  · simp [hnil]
  · rw [if_neg hnil]
    cases cands.find? fun p => (Cose.verify1 N item (some p)).isOk with
    | none => simp
    | some pub =>
        dsimp only
        rw [Check.returns_andThen, Check.returns_eval]
        constructor
        · rintro ⟨h, _⟩ p hp
          cases hp
          exact h
        · intro h
          refine ⟨h pub rfl, fun st _ => ?_⟩
          cases st with
          | fail reason => exact Check.returns_refuse _
          | ok revokedFrom anchor keyId => exact Check.returns_pass _

theorem returns_checkKeyring {kr : Keyring} :
    Outcome.Returns (checkKeyring N kr item f) ↔ KeyringAnswers N kr item f := by
  rw [checkKeyring, Check.returns_andThen, Check.returns_eval]
  simp only [Check.passes_eval]
  constructor
  · rintro ⟨hpubs, h⟩
    exact ⟨hpubs, fun cands pub hc => (returns_checkCandidates cands).mp (h cands hc) pub⟩
  · intro h
    exact ⟨h.pubs, fun cands hc =>
      (returns_checkCandidates cands).mpr fun pub => h.status cands pub hc⟩

theorem returns_checkKey : Outcome.Returns (checkKey N o item f) ↔
    ∀ kr, o.keyring = some kr → KeyringAnswers N kr item f := by
  unfold checkKey
  cases o.keyring with
  | some kr => simp [returns_checkKeyring]
  | none =>
      dsimp only
      cases verifyPinned N item (o.pinned f.thisHop) with
      | ok payload => simp
      | fail reason => simp

theorem returns_checkRoute (i : Nat) : Outcome.Returns (checkRoute o i f) := by
  unfold checkRoute
  cases o.hops with
  | none => exact Check.returns_pass _
  | some hops => exact Check.returns_require _ _

/-- No BigInt in the identity that a receipt names. -/
def serialField : JsVal → Bool
  | none => true
  | some v => v.serial

theorem Identity.serial_whole (h : id.serial = true) : id.whole.serial = true := by
  unfold Identity.serial at h ⊢
  simp only [Bool.and_eq_true] at h
  simp [Identity.whole, h.1]

theorem returns_sameId (v : JsVal) :
    Outcome.Returns (sameId N v id) ↔ serialField v = true ∧ id.serial = true := by
  cases v with
  | none =>
      rw [sameId, Outcome.returns_map, Identity.returns_toJson]
      simp [serialField]
  | some v =>
      rw [sameId, Outcome.returns_bind, Cbor.returns_toJson]
      refine and_congr_right fun hv => ?_
      obtain ⟨j, hj⟩ := (Cbor.returns_toJson v).mpr hv
      rw [← Identity.returns_toJson]
      exact ⟨fun h => Outcome.returns_map.mp (h j hj), fun h _ _ => Outcome.returns_map.mpr h⟩

theorem returns_checkBundle : Outcome.Returns (checkBundle N id hash f) ↔
    serialField f.bundle = true ∧ id.serial = true := by
  rw [checkBundle, Check.returns_andThen, Check.returns_eval, returns_sameId]
  refine and_iff_left_of_imp ?_
  rintro ⟨hv, hid⟩ same _
  split_ifs
  · exact Check.returns_pass _
  · exact Check.returns_refuse _
  · rw [Check.returns_andThen, Check.returns_eval, returns_sameId]
    refine ⟨⟨hv, Identity.serial_whole hid⟩, fun covers _ => ?_⟩
    split
    · exact Check.returns_pass _
    · exact Check.returns_refuse _
  · exact Check.returns_refuse _

/-- **The hop counts can be subtracted**, where they are: the count received and the count the
receipt before released are both BigInts or neither is. -/
def CountsSubtract (o : Options) (s : LoopState) (f : Fields) : Prop :=
  ∀ hs, s.prevHops = some hs →
    (leavesGap s f = true → o.hops = none → (countReceived f).isGiven = true →
      (countReceived f).toPrim.isBig = (JsVal.toPrim hs[1]?).isBig) ∧
    (leavesGap s f = false → f.hopCount.truthy = true →
      (countReceived f).toPrim.isBig = (JsVal.toPrim hs[1]?).isBig)

theorem returns_sized {prevHops : Option (List Cbor)} {gap : Gap} {inCount : Slot} :
    Outcome.Returns (sized N prevHops gap inCount) ↔ ∀ hs, prevHops = some hs →
      inCount.isGiven = true → inCount.toPrim.isBig = (JsVal.toPrim hs[1]?).isBig := by
  cases prevHops with
  | none => simp [sized]
  | some hs =>
      rw [sized]
      by_cases hgiven : inCount.isGiven = true
      · rw [if_pos hgiven, Outcome.returns_map, unsignedBetween, Prim.returns_sub]
        simp [hgiven]
      · simp [hgiven]

theorem returns_checkGap : Outcome.Returns (checkGap N o s f) ↔ CountsSubtract o s f := by
  unfold checkGap CountsSubtract
  by_cases hgap : leavesGap s f = true
  · rw [if_pos hgap]
    cases hroute : o.hops with
    | some hops => simp [hgap]
    | none =>
        dsimp only
        rw [Check.returns_andThen, Check.returns_eval, returns_sized]
        simp [hgap]
  · rw [if_neg hgap]
    simp only [Bool.not_eq_true] at hgap
    cases hprev : s.prevHops with
    | none => simp
    | some hs =>
        dsimp only
        by_cases hcount : f.hopCount.truthy = true
        · rw [if_pos hcount, Check.returns_andThen, Check.returns_eval, unsignedBetween,
            Prim.returns_sub]
          simp only [Option.some.injEq, forall_eq', hgap, Bool.false_eq_true, false_implies,
            true_and, hcount, forall_const]
          refine and_iff_left_of_imp fun _ n _ => ?_
          split
          · exact Check.returns_pass _
          · exact Check.returns_pass _
        · simp [hcount, hgap]

/-- The receipt has passed the checks before the one of its bundle. -/
structure Admitted (N : Node) (o : Options) (before : List Cbor) (item : Cbor) (f : Fields) :
    Prop where
  chain : (checkChain N before f).Passes ()
  key : ∃ keys, (checkKey N o item f).Passes keys
  route : (checkRoute o before.length f).Passes ()

/-- **When the checks of one receipt return.** -/
structure ReceiptReturns (N : Node) (o : Options) (id : Identity) (hash : Bytes) (before : List Cbor)
    (s : LoopState) (item : Cbor) (f : Fields) : Prop where
  digest : ∀ c, f.chain = some (.bytes c) → Outcome.Returns (Cbor.encode (.array before))
  keys : (checkChain N before f).Passes () →
    ∀ kr, o.keyring = some kr → KeyringAnswers N kr item f
  bundle : Admitted N o before item f → serialField f.bundle = true ∧ id.serial = true
  counts : Admitted N o before item f → ∀ unchecked, (checkBundle N id hash f).Passes unchecked →
    CountsSubtract o s f

theorem returns_checkFields : Outcome.Returns (checkFields N o id hash before s item f) ↔
    ReceiptReturns N o id hash before s item f := by
  simp only [checkFields, Check.returns_andThen, returns_checkChain, returns_checkKey,
    returns_checkRoute, returns_checkBundle, returns_checkGap, Check.returns_pass, true_and,
    implies_true, and_true]
  constructor
  · rintro ⟨hchain, h⟩
    refine ⟨hchain, fun hc => (h () hc).1, fun hadm => ?_, fun hadm unchecked hu => ?_⟩
    · obtain ⟨keys, hk⟩ := hadm.key
      exact ((h () hadm.chain).2 keys hk () hadm.route).1
    · obtain ⟨keys, hk⟩ := hadm.key
      exact ((h () hadm.chain).2 keys hk () hadm.route).2 unchecked hu
  · intro h
    refine ⟨h.digest, fun _ hc => ⟨h.keys hc, fun keys hk _ hr => ⟨?_, fun unchecked hu => ?_⟩⟩⟩
    · exact h.bundle ⟨hc, ⟨keys, hk⟩, hr⟩
    · exact h.counts ⟨hc, ⟨keys, hk⟩, hr⟩ unchecked hu

theorem returns_checkReceipt : Outcome.Returns (checkReceipt N o id hash before s item) ↔
    ∀ f, receiptFields item = .ok f → ReceiptReturns N o id hash before s item f := by
  unfold checkReceipt
  cases receiptFields item with
  | error e => simp
  | ok f => simp [returns_checkFields]

/-! ## The end -/

/-- The Hop Count block decodes, if there is one. -/
def readsHopCount (b : Bundle) : Prop :=
  ∀ x, b.ofType (.int 10) = some x → Outcome.Returns (Cbor.decode x.data)

theorem returns_hopCountOf {b : Bundle} :
    Outcome.Returns (hopCountOf b) ↔ readsHopCount b := by
  unfold hopCountOf readsHopCount
  cases b.ofType (.int 10) with
  | none => simp
  | some x =>
      dsimp only
      rw [Outcome.returns_map]
      exact ⟨fun h y hy => Option.some.inj hy ▸ h, fun h => h x rfl⟩

theorem countIn_isNumber {v : Cbor} {z : Int} (h : countIn v = some z) : Cbor.isNumber z = true := by
  unfold countIn at h
  split at h
  · split at h
    · cases h
      assumption
    · cases h
  · cases h

theorem hopCountOf_isNumber {b : Bundle} {z : Int} (h : hopCountOf b = .ok (some z)) :
    Cbor.isNumber z = true := by
  unfold hopCountOf at h
  split at h
  · cases h
  · obtain ⟨v, _, h⟩ := Outcome.bind_eq_ok.mp h
    cases hc : countIn v with
    | none =>
        rw [hc] at h
        cases h
    | some w =>
        rw [hc] at h
        cases h
        exact countIn_isNumber hc

/-- **When the end returns**: the Previous Node block decodes to a node, where it is read; and where
that node is not the last custodian, the Hop Count block decodes, and the count the last receipt
released is not a BigInt to subtract from its Number. -/
structure EndReturns (o : Options) (b : Bundle) (s : LoopState) : Prop where
  previous : o.lastNode = none → b.readsPrevious
  count : ∀ last eid, lastNodeOf o b = .ok last → lastUnsigned s last = some eid → readsHopCount b
  subtract : ∀ last eid hs now, lastNodeOf o b = .ok last → lastUnsigned s last = some eid →
    s.prevHops = some hs → hopCountOf b = .ok (some now) → (JsVal.toPrim hs[1]?).isBig = false

theorem returns_lastNodeOf {b : Bundle} :
    Outcome.Returns (lastNodeOf o b) ↔ (o.lastNode = none → b.readsPrevious) := by
  unfold lastNodeOf
  cases o.lastNode with
  | some last => simp
  | none => simp [Bundle.returns_previousNode]

theorem returns_unsignedBetween {now : Int} {hs : List Cbor} (hnow : Cbor.isNumber now = true) :
    Outcome.Returns (unsignedBetween N (.val (.int now)) hs) ↔
      (JsVal.toPrim hs[1]?).isBig = false := by
  rw [unsignedBetween, Prim.returns_sub]
  show (Cbor.toPrim (.int now)).isBig = _ ↔ _
  rw [Cbor.toPrim_int hnow]
  exact eq_comm

/-- The gap at the end, once there is a last unsigned node. -/
theorem returns_gapAt {b : Bundle} (eid : String) : Outcome.Returns (do
    let gap : Gap :=
      { afterHop := s.prevEid, beforeHop := some .null, lastUnsigned := some (.text eid) }
    match s.prevHops, ← hopCountOf b with
    | some hs, some now => do
        return [{ gap with unsignedNodes := some (← unsignedBetween N (.val (.int now)) hs) }]
    | _, _ => return [gap] : Outcome (List Gap)) ↔
      readsHopCount b ∧ ∀ hs now, s.prevHops = some hs → hopCountOf b = .ok (some now) →
        (JsVal.toPrim hs[1]?).isBig = false := by
  dsimp only
  rw [Outcome.returns_bind, returns_hopCountOf]
  refine and_congr_right fun _ => ?_
  constructor
  · intro h hs now hhs hnow
    have h := h _ hnow
    rw [hhs] at h
    exact (returns_unsignedBetween (hopCountOf_isNumber hnow)).mp (Outcome.returns_map.mp h)
  · intro h count hcount
    cases hhs : s.prevHops with
    | none => exact Outcome.returns_pure _
    | some hs =>
        cases count with
        | none => exact Outcome.returns_pure _
        | some now =>
            exact Outcome.returns_map.mpr
              ((returns_unsignedBetween (hopCountOf_isNumber hcount)).mpr (h hs now hhs hcount))

theorem returns_lastGap {b : Bundle} :
    Outcome.Returns (lastGap N o b s) ↔ EndReturns o b s := by
  unfold lastGap
  rw [Outcome.returns_bind, returns_lastNodeOf]
  constructor
  · rintro ⟨hprev, h⟩
    refine ⟨hprev, fun last eid hlast heid => ?_, fun last eid hs now hlast heid => ?_⟩
    · have h := h last hlast
      rw [heid] at h
      exact ((returns_gapAt eid).mp h).1
    · have h := h last hlast
      rw [heid] at h
      exact ((returns_gapAt eid).mp h).2 hs now
  · intro h
    refine ⟨h.previous, fun last hlast => ?_⟩
    cases heid : lastUnsigned s last with
    | none => exact Outcome.returns_pure _
    | some eid =>
        exact (returns_gapAt eid).mpr ⟨h.count last eid hlast heid, fun hs now =>
          h.subtract last eid hs now hlast heid⟩

/-! ## The verifier -/

theorem returns_bundleIdentity {buf : Bytes} {b : Bundle} (h : Bundle.decodeBundle N buf = .ok b) :
    Outcome.Returns (b.bundleIdentity N) := by
  obtain ⟨p, rest, hparts⟩ := Bundle.decodeBundle_parts N h
  obtain ⟨frag, _, _, _, _, _, hp⟩ := Bundle.decodePrimary_parts hparts.primary
  rw [Bundle.bundleIdentity, Outcome.returns_map]
  by_cases hnull : b.primary.flags = .null
  · rw [hnull]
    exact ⟨_, rfl⟩
  · rw [Bundle.orElse_of_ne_null hnull]
    exact ⟨frag, hp.bit⟩

/-- **When `verifyBundleV2` comes to a verdict.** For a bundle with version 2 receipts, no more than
64 and as many as pinned hops: the checks of every receipt that comes after receipts which pass
return, and so does the end. -/
def Returns (N : Node) (bytes : Bytes) (o : Options) : Prop :=
  ∀ b items id hash, Bundle.decodeBundle N bytes = .ok b → readBlockItems b = .ok (.v2 items) →
    items.length ≤ maxReceipts → (∀ hops, o.hops = some hops → hops.length = items.length) →
    b.bundleIdentity N = .ok id → b.payloadHash N = .ok hash →
      (∀ front item back s f, items = front ++ item :: back →
        (checkReceipts N o id hash [] (initial o) front).Passes s → receiptFields item = .ok f →
          ReceiptReturns N o id hash front s item f) ∧
      ∀ s, (checkReceipts N o id hash [] (initial o) items).Passes s → EndReturns o b s

theorem returns_checkReceipts {items : List Cbor} :
    Outcome.Returns (checkReceipts N o id hash [] s items) ↔
      ∀ front item back s' f, items = front ++ item :: back →
        (checkReceipts N o id hash [] s front).Passes s' → receiptFields item = .ok f →
          ReceiptReturns N o id hash front s' item f := by
  unfold checkReceipts
  rw [Check.returns_loop]
  simp only [List.nil_append, returns_checkReceipt]
  constructor
  · intro h front item back s' f hitems hs' hf
    exact h front item back hitems s' hs' f hf
  · intro h front item back hitems s' hs' f hf
    exact h front item back s' f hitems hs' hf

/-- After the receipts, what is left to read is the end of the chain. -/
theorem returns_ending {b : Bundle} {n : Nat} (v : Refusal ⊕ LoopState) : Outcome.Returns (match v with
    | .inl r => return .fail r
    | .inr s => return finish N o id n s (← lastGap N o b s) : Outcome Verdict) ↔
      ∀ s, v = .inr s → EndReturns o b s := by
  cases v with
  | inl r => simp
  | inr s =>
      dsimp only
      rw [Outcome.returns_map, returns_lastGap]
      simp

theorem returns_verifyItems {b : Bundle} {items : List Cbor}
    (hid : b.bundleIdentity N = .ok id) (hhash : b.payloadHash N = .ok hash) :
    Outcome.Returns (verifyItems N o b items) ↔
      ((∀ hops, o.hops = some hops → hops.length = items.length) →
        (∀ front item back s f, items = front ++ item :: back →
          (checkReceipts N o id hash [] (initial o) front).Passes s → receiptFields item = .ok f →
            ReceiptReturns N o id hash front s item f) ∧
        ∀ s, (checkReceipts N o id hash [] (initial o) items).Passes s → EndReturns o b s) := by
  have hcount : ((o.hops.map List.length).any fun n => n ≠ items.length) = false ↔
      ∀ hops, o.hops = some hops → hops.length = items.length := by
    cases o.hops with
    | none => simp
    | some hops => simp
  rw [verifyItems, hid, Outcome.ok_bind, hhash, Outcome.ok_bind, Outcome.returns_ite,
    Bool.not_eq_true, hcount]
  constructor
  · rintro ⟨_, h⟩ hhops
    obtain ⟨hloop, hend⟩ := Outcome.returns_bind.mp (h hhops)
    exact ⟨returns_checkReceipts.mp hloop, fun s hs => (returns_ending _).mp (hend _ hs) s rfl⟩
  · intro h
    refine ⟨fun _ => Outcome.returns_pure _, fun hhops => ?_⟩
    obtain ⟨hloop, hend⟩ := h hhops
    refine Outcome.returns_bind.mpr ⟨returns_checkReceipts.mpr hloop, fun v hv => (returns_ending v).mpr ?_⟩
    rintro s rfl
    exact hend s hv

theorem returns_verifyBundleV2 {bytes : Bytes} :
    Outcome.Returns (verifyBundleV2 N bytes o) ↔ Returns N bytes o := by
  constructor
  · intro h b items id hash hb hitems hle hhops hid hhash
    rw [verifyBundleV2, hb] at h
    dsimp only at h
    rw [hitems] at h
    dsimp only at h
    rw [if_neg (not_lt.mpr hle)] at h
    exact (returns_verifyItems hid hhash).mp h hhops
  · intro h
    rw [verifyBundleV2]
    cases hb : Bundle.decodeBundle N bytes with
    | error e => exact Outcome.returns_ok _
    | ok b =>
        dsimp only
        cases hitems : readBlockItems b with
        | error e => exact Outcome.returns_ok _
        | ok read =>
            cases read with
            | none => exact Outcome.returns_ok _
            | v1 items => exact Outcome.returns_ok _
            | v2 items =>
                dsimp only
                by_cases hle : maxReceipts < items.length
                · rw [if_pos hle]
                  exact Outcome.returns_ok _
                · rw [if_neg hle]
                  obtain ⟨id, hid⟩ := returns_bundleIdentity hb
                  obtain ⟨data, hdata⟩ := (Bundle.decodeBundle_wellFormed N hb).payloadOf_ok
                  have hhash : b.payloadHash N = .ok (N.sha256 data) := by
                    rw [Bundle.payloadHash, hdata]
                    rfl
                  exact (returns_verifyItems hid hhash).mpr fun hhops =>
                    h b items id _ hb hitems (not_lt.mp hle) hhops hid hhash

end ReceiptV2

end DtnCustody
