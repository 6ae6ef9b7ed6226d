/-
# DtnCustody.Transport.AuditV2 — what an accepted version 2 audit says of the receipts and the counts.

Two optional fields tie the receipts of a block together. Field 9 is a digest of the receipts before,
so that a receipt has the same ones before it wherever it is accepted (`field_nine_pins_prefix`).
Field 8 has the hop counts: between two receipts the loop compares them whether or not the names
agree; on the last leg they are read only where the names differ, so that a forwarder which counts
itself and adds no Previous Node block goes unseen there (`complete_counts`).
-/
import DtnCustody.Transport.AcceptedV2

namespace DtnCustody

open Base Js

namespace ReceiptV2

variable {N : Node} {o : Options}

/-! ## What the digest field pins -/

/-- The digest field of a receipt that passed is the digest of the receipts before it. -/
theorem ReceiptPassed.digest {id : Identity} {hash : Bytes} {before : List Cbor} {s : LoopState}
    {item : Cbor} {f : Fields} {keys : List KeyState} {unchecked : Bool} {gaps : List Gap}
    (h : ReceiptPassed N o id hash before s item f keys unchecked gaps) {c : Cbor}
    (hc : f.chain = some c) : ∃ digest, c = .bytes digest ∧ chainDigest N before = .ok digest := by
  have hchain := h.chain
  unfold checkChain at hchain
  rw [hc] at hchain
  split at hchain
  · rename_i heq
    cases heq
  · rename_i heq
    cases heq
    obtain ⟨digest, hdigest, hchain⟩ := Check.passes_andThen.mp hchain
    rw [Check.passes_eval] at hdigest
    rw [Check.passes_require, decide_eq_true_eq] at hchain
    exact ⟨_, rfl, hchain ▸ hdigest⟩
  · exact absurd hchain Check.not_passes_refuse

/-- A digest is of one list of receipts. -/
theorem chainDigest_inj (hsha : Function.Injective N.sha256) {xs ys : List Cbor} {d : Bytes}
    (hxs : (Cbor.array xs).Distinct) (hys : (Cbor.array ys).Distinct)
    (hx : chainDigest N xs = .ok d) (hy : chainDigest N ys = .ok d) : xs = ys := by
  obtain ⟨bx, hbx, hx⟩ := Outcome.bind_eq_ok.mp hx
  obtain ⟨by', hby, hy⟩ := Outcome.bind_eq_ok.mp hy
  simp only [Outcome.pure_eq_ok, Except.ok.injEq] at hx hy
  have hbytes : bx = by' := hsha (hx.trans hy.symm)
  subst hbytes
  have harr := Cbor.encode_inj hxs hys hbx hby
  rwa [Cbor.array.injEq] at harr

theorem Distinct.front {front back : List Cbor} (h : (Cbor.array (front ++ back)).Distinct) :
    (Cbor.array front).Distinct := by
  have hall : ∀ x ∈ front ++ back, x.Distinct := by cases h; assumption
  exact .array fun x hx => hall x (List.mem_append_left _ hx)

/-- **A receipt with field 9 stands behind the same receipts wherever it is accepted.** -/
theorem field_nine_pins_prefix (hsha : Function.Injective N.sha256) {bytes bytes' : Bytes}
    {o' : Options} {r r' : Report} (h : verifyBundleV2 N bytes o = .ok (.ok r))
    (h' : verifyBundleV2 N bytes' o' = .ok (.ok r')) {b b' : Bundle} {items items' : List Cbor}
    (hitems : Carries N bytes b items) (hitems' : Carries N bytes' b' items') {i j : Nat}
    {item : Cbor} (hi : items[i]? = some item) (hj : items'[j]? = some item) {f : Fields}
    (hf : receiptFields item = .ok f) (hchain : f.chain ≠ none) :
    i = j ∧ items.take i = items'.take j := by
  -- at either position, the digest in the receipt is that of the receipts before it
  have hpinned : ∀ {bytes : Bytes} {o : Options} {r : Report} {b : Bundle} {items : List Cbor}
      {i : Nat}, verifyBundleV2 N bytes o = .ok (.ok r) → Carries N bytes b items →
      items[i]? = some item → ∃ d, f.chain = some (.bytes d) ∧
        chainDigest N (items.take i) = .ok d ∧ (Cbor.array (items.take i)).Distinct ∧
        i < items.length := by
    intro bytes o r b items i h hitems hi
    obtain ⟨b₀, items₀, s, hcarried, haccepted⟩ := accepts.mp h
    obtain ⟨rfl, rfl⟩ := hcarried.unique hitems
    obtain ⟨hlt, hget⟩ := List.getElem?_eq_some_iff.mp hi
    have hsplit : items₀ = items₀.take i ++ item :: items₀.drop (i + 1) := by
      rw [← hget, ← List.drop_eq_getElem_cons hlt, List.take_append_drop]
    have hdist := (decoded_of_readBlockItems hcarried.2).2.1
    rw [hsplit] at haccepted hdist
    obtain ⟨hash, t, f', keys, unchecked, gaps, _, _, hpassed, _⟩ := haccepted.receipt
    have hsame := hpassed.fields
    rw [hf, Except.ok.injEq] at hsame
    subst hsame
    obtain ⟨c, hc⟩ := Option.ne_none_iff_exists'.mp hchain
    obtain ⟨d, rfl, hd⟩ := hpassed.digest hc
    exact ⟨d, hc, hd, Distinct.front hdist, hlt⟩
  obtain ⟨d, hd, hdigest, hdist, hlt⟩ := hpinned h hitems hi
  obtain ⟨d', hd', hdigest', hdist', hlt'⟩ := hpinned h' hitems' hj
  rw [hd, Option.some.injEq, Cbor.bytes.injEq] at hd'
  subst hd'
  have hprefix := chainDigest_inj hsha hdist hdist' hdigest hdigest'
  refine ⟨?_, hprefix⟩
  have hlen := congrArg List.length hprefix
  rw [List.length_take_of_le hlt.le, List.length_take_of_le hlt'.le] at hlen
  exact hlen

/-- An accepting report, with the bundle and the receipts it is about. -/
@[irreducible] def audited (N : Node) (bytes : Bytes) (o : Options) : Option (Report × Bundle × List Cbor) :=
  match verifyBundleV2 N bytes o, Bundle.decodeBundle N bytes with
  | .ok (.ok r), .ok b =>
      match readBlockItems b with
      | .ok (.v2 items) => some (r, b, items)
      | _ => none
  | _, _ => none

theorem audited_some {bytes : Bytes} {r : Report} {b : Bundle} {items : List Cbor}
    (h : audited N bytes o = some (r, b, items)) :
    verifyBundleV2 N bytes o = .ok (.ok r) ∧ Carries N bytes b items := by
  unfold audited at h
  split at h
  · rename_i r' b' hr hb
    split at h
    · rename_i items' hitems
      simp only [Option.some.injEq, Prod.mk.injEq] at h
      obtain ⟨rfl, rfl, rfl⟩ := h
      exact ⟨hr, hb, hitems⟩
    · cases h
  · cases h

/-- The sample bundle with the receipts of two custodians. -/
@[irreducible] def twoReceipts : Bytes :=
  sampleCarried 0 [(0, sampleStamp 1 "ipn:5.0"), (0, sampleStamp 2 "ipn:1.0")]

/-- The same, with a third receipt behind them. -/
@[irreducible] def threeReceipts : Bytes :=
  sampleCarried 0 [(0, sampleStamp 1 "ipn:5.0"), (0, sampleStamp 2 "ipn:1.0"),
    (0, sampleRelay 3, { (sampleStamp 3 "ipn:2.0").2 with chain := false })]

/-- The second of two receipts, with a third one behind it or not. -/
theorem secondReceipt_pins_first :
    ∃ b b' items items' item, Carries sampleNode twoReceipts b items ∧
      Carries sampleNode threeReceipts b' items' ∧ items[1]? = some item ∧
      items'[1]? = some item ∧ 1 = 1 ∧ items.take 1 = items'.take 1 := by
  have htwo : (audited sampleNode twoReceipts sampleOptions).isSome = true := by decide +kernel
  have hthree : (audited sampleNode threeReceipts sampleOptions).isSome = true := by decide +kernel
  have hitem : ((audited sampleNode twoReceipts sampleOptions).bind fun x => x.2.2[1]?) =
      (audited sampleNode threeReceipts sampleOptions).bind fun x => x.2.2[1]? := by decide +kernel
  have hchain : (((audited sampleNode twoReceipts sampleOptions).bind fun x => x.2.2[1]?).bind
      fun item => (receiptFields item).toOption.bind Fields.chain).isSome = true := by decide +kernel
  obtain ⟨⟨r, b, items⟩, h⟩ := Option.isSome_iff_exists.mp htwo
  obtain ⟨⟨r', b', items'⟩, h'⟩ := Option.isSome_iff_exists.mp hthree
  rw [h, h', Option.bind_some, Option.bind_some] at hitem
  rw [h, Option.bind_some] at hchain
  obtain ⟨c, hc⟩ := Option.isSome_iff_exists.mp hchain
  obtain ⟨item, hi, hc⟩ := Option.bind_eq_some_iff.mp hc
  obtain ⟨f, hf, hc⟩ := Option.bind_eq_some_iff.mp hc
  have hfields := Outcome.ok_of_toOption hf
  have hj : items'[1]? = some item := hitem.symm.trans hi
  obtain ⟨hv, hcarried⟩ := audited_some h
  obtain ⟨hv', hcarried'⟩ := audited_some h'
  have hne : f.chain ≠ none := by
    rw [hc]
    exact Option.some_ne_none c
  exact ⟨b, b', items, items', item, hcarried, hcarried', hi, hj,
    field_nine_pins_prefix sampleHash_injective hv hv' hcarried hcarried' hi hj hfields hne⟩

/-! ## What the counts say -/

/-- The hop count a receipt says its custodian received, where field 8 has one. -/
def received (f : Fields) : Option Int :=
  match f.hopCount with
  | some (.array (.int z :: _)) => some z
  | _ => none

/-- The hop count a receipt says its custodian released. -/
def released (f : Fields) : Option Int :=
  match f.hopCount with
  | some (.array (_ :: .int z :: _)) => some z
  | _ => none

/-- No count is above the one released before it: not from a receipt to the next, and not from the
last receipt to the bundle. -/
structure CountsFollow (b : Bundle) (items : List Cbor) : Prop where
  between : ∀ front x y back f g m n, items = front ++ x :: y :: back → receiptFields x = .ok f →
    receiptFields y = .ok g → released f = some m → received g = some n → n ≤ m
  last : ∀ front x f m now, items = front ++ [x] → receiptFields x = .ok f → released f = some m →
    hopCountOf b = .ok (some now) → now ≤ m

theorem Prim.lt_zero_of_sub {m n : Int} {p : Prim}
    (h : ((Cbor.int n).toPrim).sub N ((Cbor.int m).toPrim) = .ok p) :
    (Prim.int 0).lt N p = decide (m < n) := by
  simp only [Cbor.toPrim] at h
  split at h <;> split at h
  · rw [Prim.sub_int, Except.ok.injEq] at h
    rw [← h, Prim.lt_int, decide_eq_decide]
    omega
  · simp [Prim.sub, Prim.toNumber] at h
  · simp [Prim.sub, Prim.toNumber] at h
  · simp only [Prim.sub, Except.ok.injEq] at h
    rw [← h]
    simp only [Prim.lt, Prim.lt?, Prim.toComparable, JsNum.lt_fin, Option.getD_some,
      decide_eq_decide]
    norm_cast
    omega

/-- **The comparison in the loop**: where a receipt leaves no gap, its count is not above the one
released before. -/
theorem le_of_checkGap {s : LoopState} {f g : Fields} {m n : Int} {i : Nat} {keys : List KeyState}
    {unchecked : Bool} {gaps : List Gap} (hm : released f = some m) (hn : received g = some n)
    (h : (checkGap N o (s.next i f keys unchecked gaps) g).Passes []) : n ≤ m := by
  unfold released at hm
  split at hm
  · rename_i v z rest hf
    cases hm
    unfold received at hn
    split at hn
    · rename_i w rest' hg
      cases hn
      have hprev : (s.next i f keys unchecked gaps).prevHops = some (v :: .int m :: rest) := by
        simp [LoopState.next, hf]
      have hcount : countReceived g = .val (.int n) := by
        simp [countReceived, hg, Cbor.index, Slot.ofJsVal]
      unfold checkGap at h
      split at h
      · split at h
        · exact absurd h Check.not_passes_refuse
        · obtain ⟨gap, _, h⟩ := Check.passes_andThen.mp h
          rw [Check.passes_pass] at h
          cases h
      · rw [hprev] at h
        dsimp only at h
        have htruthy : g.hopCount.truthy = true := by
          rw [hg]
          rfl
        rw [if_pos htruthy, hcount] at h
        obtain ⟨p, hp, h⟩ := Check.passes_andThen.mp h
        rw [Check.passes_eval] at hp
        rw [Prim.lt_zero_of_sub hp] at h
        split at h
        · rw [Check.passes_pass] at h
          cases h
        · rename_i hlt
          rw [decide_eq_true_eq] at hlt
          exact not_lt.mp hlt
    · cases hn
  · cases hm

/-- Gaps are only added. -/
theorem gaps_of_loop {id : Identity} {hash : Bytes} {items : List Cbor} :
    ∀ {before : List Cbor} {s s' : LoopState},
      (Check.loop (checkReceipt N o id hash) before s items).Passes s' →
        ∃ more, s'.gaps = s.gaps ++ more := by
  induction items with
  | nil =>
      intro before s s' h
      rw [Check.loop, Check.passes_pass] at h
      exact ⟨[], by rw [h, List.append_nil]⟩
  | cons item items ih =>
      intro before s s' h
      rw [Check.loop, Check.passes_andThen] at h
      obtain ⟨t, ht, h⟩ := h
      obtain ⟨f, keys, unchecked, gaps, _, rfl⟩ := checkReceipt_passes.mp ht
      obtain ⟨more, hmore⟩ := ih h
      exact ⟨gaps ++ more, by rw [hmore, LoopState.next, List.append_assoc]⟩

/-- The receipts pass, no gap is found between them, and no revoked key stands in the way; `s` is the
state that the last leg is judged in. -/
structure ReachesEnd (N : Node) (o : Options) (b : Bundle) (items : List Cbor) (s : LoopState) :
    Prop where
  room : items.length ≤ maxReceipts
  route : ∀ hops, o.hops = some hops → hops.length = items.length
  loop : ∃ id hash, b.bundleIdentity N = .ok id ∧ b.payloadHash N = .ok hash ∧
    (checkReceipts N o id hash [] (initial o) items).Passes s
  gaps : s.gaps = []
  revoked : ∃ witnessed, checkRevoked N o 0 (s.fields.zip s.keyState) = .inr witnessed

/-- The last leg names no node: the one that delivered the bundle is not known, or is the last
custodian itself. -/
def LastLegUnnamed (o : Options) (b : Bundle) (s : LoopState) : Prop :=
  ∃ last, lastNodeOf o b = .ok last ∧ lastUnsigned s last = none

/-- A complete audit has come to the end with no gap, and to a last leg that names no node. -/
theorem complete_iff {bytes : Bytes} : (∃ r, verifyBundleV2 N bytes o = .ok (.ok r) ∧
    r.complete = true) ↔
      ∃ b items s, Carries N bytes b items ∧ ReachesEnd N o b items s ∧ LastLegUnnamed o b s := by
  constructor
  · rintro ⟨r, h, hcomplete⟩
    obtain ⟨b, items, s, hcarried, hs⟩ := accepts.mp h
    obtain ⟨hash, hhash, hloop⟩ := hs.loop
    obtain ⟨last, hlast, hgaps⟩ := hs.gaps
    obtain ⟨witnessed, hrevoked, _⟩ := hs.revoked
    rw [Report.complete, List.isEmpty_iff, hgaps, List.append_eq_nil_iff] at hcomplete
    obtain ⟨hnone, rfl⟩ := hcomplete
    refine ⟨b, items, s, hcarried, ⟨hs.room, hs.route, ⟨_, hash, hs.identity, hhash, hloop⟩, hnone,
      witnessed, hrevoked⟩, ?_⟩
    obtain ⟨node, hnode, hlast⟩ := Outcome.bind_eq_ok.mp hlast
    refine ⟨node, hnode, ?_⟩
    split at hlast
    · assumption
    · obtain ⟨count, _, hlast⟩ := Outcome.bind_eq_ok.mp hlast
      split at hlast
      · obtain ⟨n, _, hlast⟩ := Outcome.bind_eq_ok.mp hlast
        cases hlast
      · cases hlast
  · rintro ⟨b, items, s, hcarried, hs, node, hnode, hunnamed⟩
    obtain ⟨id, hash, hid, hhash, hloop⟩ := hs.loop
    obtain ⟨witnessed, hrevoked⟩ := hs.revoked
    have hlast : lastGap N o b s = .ok [] := by
      rw [lastGap, hnode, Outcome.ok_bind, hunnamed]
      rfl
    refine ⟨{ custodied := items.length, gaps := [], hashUnchecked := s.hashUnchecked, bundle := id,
              keys := o.keyring.map fun _ => (s.keyState, witnessed) }, ?_, rfl⟩
    apply accepts.mpr
    refine ⟨b, items, s, hcarried, hs.room, hs.route, hid, ⟨hash, hhash, hloop⟩, ⟨[], hlast, ?_⟩,
      ⟨witnessed, hrevoked, rfl⟩, rfl, rfl⟩
    rw [hs.gaps]
    rfl

/-- Between two receipts the counts follow whenever no gap is found. -/
theorem ReachesEnd.between {b : Bundle} {front back : List Cbor} {x y : Cbor} {s : LoopState}
    (h : ReachesEnd N o b (front ++ x :: y :: back) s) {f g : Fields} {m n : Int}
    (hf : receiptFields x = .ok f) (hg : receiptFields y = .ok g) (hm : released f = some m)
    (hn : received g = some n) : n ≤ m := by
  obtain ⟨id, hash, _, _, hloop⟩ := h.loop
  obtain ⟨t, t', _, hx, hback⟩ := Check.passes_loop_split hloop
  obtain ⟨f', keys, unchecked, gaps, hpassed, rfl⟩ := checkReceipt_passes.mp hx
  have hsame := hpassed.fields
  rw [hf, Except.ok.injEq] at hsame
  subst hsame
  rw [Check.loop, Check.passes_andThen] at hback
  obtain ⟨t'', hy, hback⟩ := hback
  obtain ⟨g', keys', unchecked', gaps', hpassed', rfl⟩ := checkReceipt_passes.mp hy
  have hsame := hpassed'.fields
  rw [hg, Except.ok.injEq] at hsame
  subst hsame
  -- no gap at the end, so none was added here
  obtain ⟨more, hmore⟩ := gaps_of_loop hback
  rw [h.gaps] at hmore
  have hnone : gaps' = [] := by
    simp only [LoopState.next, List.append_assoc] at hmore
    exact (List.append_eq_nil_iff.mp (List.append_eq_nil_iff.mp
      (List.append_eq_nil_iff.mp hmore.symm).2).2).1
  apply le_of_checkGap (N := N) hm hn
  rw [← hnone]
  exact hpassed'.gap

/-- The bundle's count is above the one that the last receipt released, and no rule looks: the
receipts leave no gap, and the last leg names no node. -/
def ForwarderUnseen (N : Node) (bytes : Bytes) (o : Options) : Prop :=
  ∃ b front x s f m now, Carries N bytes b (front ++ [x]) ∧ ReachesEnd N o b (front ++ [x]) s ∧
    LastLegUnnamed o b s ∧ receiptFields x = .ok f ∧ released f = some m ∧
      hopCountOf b = .ok (some now) ∧ m < now

/-- **A complete audit hides no counted forwarder**, unless it is one on the last leg that names
nobody. -/
theorem complete_counts (N : Node) (bytes : Bytes) (o : Options) :
    (∀ r, verifyBundleV2 N bytes o = .ok (.ok r) → r.complete = true →
      ∀ b items, Carries N bytes b items → CountsFollow b items) ↔ ¬ ForwarderUnseen N bytes o := by
  constructor
  · rintro h ⟨b, front, x, s, f, m, now, hcarried, hend, hleg, hf, hm, hnow, hlt⟩
    obtain ⟨r, hr, hcomplete⟩ := complete_iff.mpr ⟨b, front ++ [x], s, hcarried, hend, hleg⟩
    have hle := (h r hr hcomplete b _ hcarried).last front x f m now rfl hf hm hnow
    omega
  · intro h r hr hcomplete b items hcarried
    obtain ⟨b', items', s, hcarried', hend, hleg⟩ := complete_iff.mp ⟨r, hr, hcomplete⟩
    obtain ⟨rfl, rfl⟩ := hcarried.unique hcarried'
    refine ⟨?_, ?_⟩
    · rintro front x y back f g m n rfl hf hg hm hn
      exact hend.between hf hg hm hn
    · rintro front x f m now rfl hf hm hnow
      apply not_lt.mp
      intro hlt
      exact h ⟨b, front, x, s, f, m, now, hcarried, hend, hleg, hf, hm, hnow, hlt⟩

/-- The receipt was made at a count of 0, and a forwarder that adds no Previous Node block has
counted itself since. -/
@[irreducible] def uncountedForwarder : Bytes := sampleCarried 1 [(0, sampleStamp 1 "ipn:5.0")]

/-- The audit is complete, and the bundle's count is above the released one. -/
theorem uncountedForwarder_complete :
    ¬ ∀ r, verifyBundleV2 sampleNode uncountedForwarder sampleOptions = .ok (.ok r) →
      r.complete = true → ∀ b items, Carries sampleNode uncountedForwarder b items →
        CountsFollow b items := by
  intro h
  have hcomplete : ((audited sampleNode uncountedForwarder sampleOptions).map fun x =>
      x.1.complete) = some true := by decide +kernel
  have hcount : ((audited sampleNode uncountedForwarder sampleOptions).map fun x =>
      (hopCountOf x.2.1).toOption) = some (some (some 1)) := by decide +kernel
  have hreleased : ((audited sampleNode uncountedForwarder sampleOptions).map fun x =>
      x.2.2.map fun item => (receiptFields item).toOption.bind released) = some [some 0] := by
    decide +kernel
  obtain ⟨⟨r, b, items⟩, h'⟩ := Option.map_eq_some_iff.mp hcomplete
  rw [h'.1, Option.map_some, Option.some.injEq] at hcount hreleased
  obtain ⟨hr, hcarried⟩ := audited_some h'.1
  have hfollow := h r hr h'.2 b items hcarried
  obtain ⟨x, hx⟩ : ∃ x, items = [x] := by
    have hlen := congrArg List.length hreleased
    rw [List.length_map] at hlen
    exact List.length_eq_one_iff.mp hlen
  subst hx
  rw [List.map_singleton, List.cons.injEq] at hreleased
  obtain ⟨f, hf, hm⟩ := Option.bind_eq_some_iff.mp hreleased.1
  have hle := hfollow.last [] x f 0 1 rfl (Outcome.ok_of_toOption hf) hm
    (Outcome.ok_of_toOption hcount)
  omega

end ReceiptV2

end DtnCustody
