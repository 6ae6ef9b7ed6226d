/-
# DtnCustody.Transport.BibVerdict — what an `ok` of `verifyBibs` says, and what a BIB sees of the bundle around it.

The verdict is the absence of a failure. `verifyBibs_ok_iff` turns it into what was looked at: there is
a BIB, and every BIB opens with the key and has, for each target it lists, a MAC that is the HMAC over
that target. A BIB that lists no target has nothing that could fail, so it takes one of those for the
`ok` to say less than that something is protected (`verifyBibs_sound_iff`, `noTargets_verify`).

A MAC is computed over the target and, as far as the scope flags say so, over headers and the primary
block. The primary block is written again each time (`primaryBytes_iff`). So the check of a target
passes in any other bundle in which the target is found unchanged and, where the scope takes it in, the
primary block is written to the same bytes (`TargetPasses.kept`, `BibPasses.kept`).
-/
import DtnCustody.Transport.Rewritten
import DtnCustody.Transport.Verdicts

namespace DtnCustody

open Base Js

namespace Js.Check

variable {ρ ι σ : Type}

/-- A loop whose turns pass or not whatever state they are handed passes when every turn does. -/
theorem exists_passes_loop {turn : List ι → σ → ι → Check ρ σ} {holds : Nat → ι → Prop}
    (hturn : ∀ before s x, (∃ s', (turn before s x).Passes s') ↔ holds before.length x)
    {xs : List ι} : ∀ {before : List ι} {s : σ}, (∃ s', (loop turn before s xs).Passes s') ↔
      ∀ i x, xs[i]? = some x → holds (before.length + i) x := by
  induction xs with
  | nil =>
      intro before s
      exact ⟨fun _ i x h => absurd h (by simp), fun _ => ⟨s, passes_pass.mpr rfl⟩⟩
  | cons y ys ih =>
      intro before s
      simp only [loop, passes_andThen]
      constructor
      · rintro ⟨s', t, ht, hs'⟩ i x hx
        cases i with
        | zero =>
            cases hx
            exact (hturn before s y).mp ⟨t, ht⟩
        | succ i =>
            have hrest := ih.mp ⟨s', hs'⟩ i x hx
            rw [List.length_append, List.length_singleton] at hrest
            rwa [show before.length + (i + 1) = before.length + 1 + i by omega]
      · intro h
        obtain ⟨t, ht⟩ := (hturn before s y).mpr (h 0 y rfl)
        have hrest : ∃ s', (loop turn (before ++ [y]) t ys).Passes s' := by
          apply ih.mpr
          intro i x hx
          rw [List.length_append, List.length_singleton,
            show before.length + 1 + i = before.length + (i + 1) by omega]
          exact h (i + 1) x hx
        obtain ⟨s', hs'⟩ := hrest
        exact ⟨s', t, ht, hs'⟩

end Js.Check

namespace Bpsec

variable {H : BibHost} {o : Options} {b : Bundle} {c : Context} {t : Target} {bib : Block}

/-! ## One target -/

/-- The MAC stated for the target at position `i`: the first result there with the id of a MAC. -/
def Stated (H : BibHost) (c : Context) (i : Nat) (got : Bytes) : Prop :=
  ∃ rs r, resultsAt c.asb.results i = .ok rs ∧ findMac rs = .ok (some r) ∧ macValue H r = .ok got

/-- The MAC is the one that is computed, in the normative form or, for the primary block and when
asked for, in the form of Appendix A.3. -/
def Matches (H : BibHost) (o : Options) (b : Bundle) (c : Context) (t : Target) (got : Bytes) : Prop :=
  macOf H o b c t false = .ok got ∨
    t = .primary ∧ o.a3Primary = true ∧ Outcome.Returns (macOf H o b c t false) ∧
      macOf H o b c t true = .ok got

/-- What the check of one target comes down to. -/
def TargetPasses (H : BibHost) (o : Options) (b : Bundle) (c : Context) (i : Nat) (n : Slot) : Prop :=
  ∃ t got, Covered o b n t ∧ Stated H c i got ∧ Matches H o b c t got

theorem passes_checkMac {n : Slot} {got : Bytes} :
    (∃ k, (checkMac H o b c n t got).Passes k) ↔ Matches H o b c t got := by
  unfold checkMac Matches
  simp only [Check.passes_andThen, Check.passes_eval]
  constructor
  · rintro ⟨k, want, hwant, h⟩
    have hwant : macOf H o b c t false = .ok want := hwant
    split at h
    · rename_i hsame
      exact Or.inl (hsame ▸ hwant)
    · cases t with
      | block x => exact absurd h Check.not_passes_refuse
      | primary =>
          dsimp only at h
          split at h
          · rename_i ha3
            obtain ⟨want', hwant', h⟩ := Check.passes_andThen.mp h
            split at h
            · rename_i hsame
              refine Or.inr ⟨rfl, ha3, ⟨want, hwant⟩, ?_⟩
              rw [hsame]
              exact Check.passes_eval.mp hwant'
            · exact absurd h Check.not_passes_refuse
          · exact absurd h Check.not_passes_refuse
  · rintro (hfirst | ⟨rfl, ha3, ⟨want, hwant⟩, hsecond⟩)
    · exact ⟨0, got, hfirst, by rw [if_pos rfl]; exact Check.passes_pass.mpr rfl⟩
    · by_cases hsame : got = want
      · exact ⟨0, want, hwant, by rw [if_pos hsame]; exact Check.passes_pass.mpr rfl⟩
      · refine ⟨1, want, hwant, ?_⟩
        rw [if_neg hsame]
        dsimp only
        rw [if_pos ha3]
        apply Check.passes_andThen.mpr
        exact ⟨got, Check.passes_eval.mpr hsecond, by rw [if_pos rfl]; exact Check.passes_pass.mpr rfl⟩

theorem passes_checkTarget (before : List Slot) (fallbacks : Nat) (n : Slot) :
    (∃ k, (checkTarget H o b c before fallbacks n).Passes k) ↔
      TargetPasses H o b c before.length n := by
  unfold checkTarget TargetPasses Covered
  dsimp only
  cases targetOf b n with
  | none => simp
  | some t =>
      dsimp only
      by_cases hcrc : o.mode ≠ .ion ∧ targetCrc b t ≠ .int 0
      · rw [if_pos hcrc]
        constructor
        · rintro ⟨k, h⟩
          exact absurd h Check.not_passes_refuse
        · rintro ⟨t', got, ⟨ht, hno⟩, _⟩
          cases ht
          exact absurd hcrc hno
      · rw [if_neg hcrc]
        simp only [Check.passes_andThen, Check.passes_eval]
        constructor
        · rintro ⟨k, rs, hrs, r, hr, h⟩
          cases r with
          | none => exact absurd h Check.not_passes_refuse
          | some r =>
              obtain ⟨got, hgot, h⟩ := Check.passes_andThen.mp h
              obtain ⟨m, hm, -⟩ := Check.passes_andThen.mp h
              exact ⟨t, got, ⟨rfl, hcrc⟩, ⟨rs, r, hrs, hr, Check.passes_eval.mp hgot⟩,
                passes_checkMac.mp ⟨m, hm⟩⟩
        · rintro ⟨t', got, ⟨ht, -⟩, ⟨rs, r, hrs, hr, hgot⟩, hmatch⟩
          cases ht
          obtain ⟨m, hm⟩ := (passes_checkMac (n := n)).mpr hmatch
          refine ⟨fallbacks + m, rs, hrs, some r, hr, ?_⟩
          apply Check.passes_andThen.mpr
          refine ⟨got, Check.passes_eval.mpr hgot, ?_⟩
          apply Check.passes_andThen.mpr
          exact ⟨m, hm, Check.passes_pass.mpr rfl⟩

/-! ## One block, and all of them -/

/-- What the check of one BIB comes down to: it opens, and the check of every target passes. -/
def BibPasses (H : BibHost) (o : Options) (b : Bundle) (key : Bytes) (bib : Block) : Prop :=
  ∃ c targets, Opens H key bib c ∧ elements c.asb.targets = .ok targets ∧
    ∀ i n, targets[i]? = some n → TargetPasses H o b c i n

theorem passes_checkBib {key : Bytes} (before : List Block) (s : List BibInfo × Nat) (bib : Block) :
    (∃ s', (checkBib H o b key before s bib).Passes s') ↔ BibPasses H o b key bib := by
  unfold checkBib BibPasses Opens
  constructor
  · rintro ⟨s', h⟩
    split at h
    · exact absurd h Check.not_passes_refuse
    · rename_i asb hasb
      split at h
      · exact absurd h Check.not_passes_refuse
      · rename_i hctx
        split at h
        · exact absurd h Check.not_passes_refuse
        · rename_i k hk
          obtain ⟨targets, htargets, h⟩ := Check.passes_andThen.mp h
          obtain ⟨m, hm, -⟩ := Check.passes_andThen.mp h
          refine ⟨⟨bib, asb, k⟩, targets, ⟨hasb, not_not.mp hctx, hk, rfl⟩,
            Check.passes_eval.mp htargets, ?_⟩
          have hall := (Check.exists_passes_loop passes_checkTarget).mp ⟨m, hm⟩
          simpa using hall
  · rintro ⟨⟨cb, asb, k⟩, targets, ⟨hasb, hctx, hk, rfl⟩, htargets, hall⟩
    dsimp only at hasb hctx hk
    rw [hasb]
    dsimp only
    rw [if_neg (not_not.mpr hctx), hk]
    have hloop : ∃ m, (Check.loop (checkTarget H o b ⟨cb, asb, k⟩) [] s.2 targets).Passes m := by
      apply (Check.exists_passes_loop passes_checkTarget).mpr
      simpa using hall
    obtain ⟨m, hm⟩ := hloop
    simp only [Check.passes_andThen, Check.passes_eval, Check.passes_pass]
    exact ⟨_, targets, htargets, m, hm, rfl⟩

/-- The BIBs of a bundle. -/
def bibsOf (b : Bundle) : List Block := b.blocks.filter fun x => x.type = bibType

/-- **When `verifyBibs` says `ok`**: there is a BIB, and the check of every BIB passes. -/
theorem verifyBibs_ok_iff {key : Bytes} :
    (∃ bibs fallbacks, verifyBibs H b key o = .ok (.ok bibs fallbacks)) ↔
      bibsOf b ≠ [] ∧ ∀ bib ∈ bibsOf b, BibPasses H o b key bib := by
  have hloop := @Check.exists_passes_loop _ _ _ (checkBib H o b key)
    (fun _ bib => BibPasses H o b key bib) passes_checkBib (bibsOf b) [] ([], 0)
  have hmem : (∀ i bib, (bibsOf b)[i]? = some bib → BibPasses H o b key bib) ↔
      ∀ bib ∈ bibsOf b, BibPasses H o b key bib :=
    ⟨fun h bib hb => by obtain ⟨i, hi⟩ := List.mem_iff_getElem?.mp hb; exact h i bib hi,
      fun h i bib hi => h bib (List.mem_of_getElem? hi)⟩
  rw [hmem] at hloop
  rw [← hloop]
  have hbibs : (b.blocks.filter fun x => x.type = bibType) = bibsOf b := rfl
  unfold verifyBibs
  rw [hbibs]
  cases bibsOf b with
  | nil => simp
  | cons x xs =>
      dsimp only
      simp only [Outcome.bind_eq_ok, ne_eq, reduceCtorEq, not_false_iff, true_and]
      constructor
      · rintro ⟨bibs, fallbacks, v, hv, h⟩
        rcases v with r | ⟨out, k⟩
        · cases h
        · exact ⟨_, hv⟩
      · rintro ⟨⟨out, k⟩, hv⟩
        exact ⟨out, k, _, hv, rfl⟩

/-! ## What is protected -/

/-- The target at position `i` exists, and the MAC stated for it is the HMAC, under the key, of its
integrity-protected plaintext. -/
def Authentic (H : BibHost) (o : Options) (b : Bundle) (c : Context) (i : Nat) (n : Slot) : Prop :=
  ∃ t got a3 hash plaintext, targetOf b n = some t ∧ Stated H c i got ∧
    ippt H b t c.bib c.asb.scope o.mode a3 = .ok plaintext ∧
    hashName (c.asb.variant o.mode) = some hash ∧ got = H.hmac hash c.key plaintext ∧
    (a3 = true → t = .primary ∧ o.a3Primary = true)

/-- Something is protected, and all that is listed is intact: there is a BIB, and every BIB opens, lists
a target, and has the right MAC for each. -/
def Sound (H : BibHost) (o : Options) (b : Bundle) (key : Bytes) : Prop :=
  bibsOf b ≠ [] ∧ ∀ bib ∈ bibsOf b, ∃ c targets, Opens H key bib c ∧
    elements c.asb.targets = .ok targets ∧ targets ≠ [] ∧
      ∀ i n, targets[i]? = some n → Authentic H o b c i n

theorem macOf_ok {a3 : Bool} {got : Bytes} (h : macOf H o b c t a3 = .ok got) :
    ∃ hash plaintext, ippt H b t c.bib c.asb.scope o.mode a3 = .ok plaintext ∧
      hashName (c.asb.variant o.mode) = some hash ∧ got = H.hmac hash c.key plaintext := by
  obtain ⟨plaintext, hp, h⟩ := Outcome.bind_eq_ok.mp h
  unfold mac at h
  split at h
  · rename_i hash hhash
    exact ⟨hash, plaintext, hp, hhash, (Except.ok.inj h).symm⟩
  · cases h

theorem TargetPasses.authentic {i : Nat} {n : Slot} (h : TargetPasses H o b c i n) :
    Authentic H o b c i n := by
  obtain ⟨t, got, ⟨ht, -⟩, hstated, hfirst | ⟨hprim, ha3, -, hsecond⟩⟩ := h
  · obtain ⟨hash, plaintext, hp, hhash, heq⟩ := macOf_ok hfirst
    exact ⟨t, got, false, hash, plaintext, ht, hstated, hp, hhash, heq, fun h => by cases h⟩
  · obtain ⟨hash, plaintext, hp, hhash, heq⟩ := macOf_ok hsecond
    exact ⟨t, got, true, hash, plaintext, ht, hstated, hp, hhash, heq, fun _ => ⟨hprim, ha3⟩⟩

theorem Opens.unique {key : Bytes} {c c' : Context} (h : Opens H key bib c) (h' : Opens H key bib c') :
    c = c' := by
  obtain ⟨cb, asb, k⟩ := c
  obtain ⟨cb', asb', k'⟩ := c'
  obtain ⟨h1, -, h2, h3⟩ := h
  obtain ⟨h1', -, h2', h3'⟩ := h'
  dsimp only at *
  rw [h1, Except.ok.injEq] at h1'
  subst h1'
  rw [h2, Except.ok.injEq] at h2'
  rw [h2', h3, h3']

/-- **When an `ok` says that something is protected**: where every BIB that opens lists a target, or
the check of some BIB does not pass and there is no `ok`. -/
theorem verifyBibs_sound_iff (H : BibHost) (b : Bundle) (key : Bytes) (o : Options) :
    ((∃ bibs fallbacks, verifyBibs H b key o = .ok (.ok bibs fallbacks)) → Sound H o b key) ↔
      (∀ bib ∈ bibsOf b, ∀ c, Opens H key bib c → elements c.asb.targets ≠ .ok []) ∨
        ∃ bib ∈ bibsOf b, ¬ BibPasses H o b key bib := by
  rw [verifyBibs_ok_iff]
  constructor
  · intro h
    by_cases hall : ∀ bib ∈ bibsOf b, BibPasses H o b key bib
    · refine Or.inl fun bib hb c hc hnone => ?_
      obtain ⟨-, hsound⟩ := h ⟨List.ne_nil_of_mem hb, hall⟩
      obtain ⟨c', targets, hc', htargets, hne, -⟩ := hsound bib hb
      rw [hc'.unique hc, hnone] at htargets
      exact hne (Except.ok.inj htargets).symm
    · push Not at hall
      exact Or.inr hall
  · rintro (hlists | ⟨bib, hb, hfails⟩) ⟨hne, hall⟩
    · refine ⟨hne, fun bib hb => ?_⟩
      obtain ⟨c, targets, hc, htargets, hpass⟩ := hall bib hb
      refine ⟨c, targets, hc, htargets, ?_, fun i n hn => (hpass i n hn).authentic⟩
      rintro rfl
      exact hlists bib hb c hc htargets
    · exact absurd (hall bib hb) hfails

/-- A bundle with a BIB whose target list is empty: no MAC, no key, and a payload nobody protected. -/
def noTargetsWire : Bytes :=
  [0x9f, 0x88, 7, 0, 0, 0x82, 1, 0, 0x82, 1, 0, 0x82, 1, 0, 0x82, 0, 0, 0,
    0x85, 11, 2, 0, 0, 0x49, 0x80, 1, 0, 0x82, 2, 0x82, 1, 1, 0x80,
    0x85, 1, 1, 0, 0, 0x41, 9, 0xff]

/-- **A BIB without targets verifies under any key**, here under one that no BIB was made with. -/
theorem noTargets_verify :
    ∃ b, Bundle.decodeBundle sampleNode noTargetsWire = .ok b ∧
      (∃ bibs fallbacks, verifyBibs sampleBibHost b [1, 2, 3] {} = .ok (.ok bibs fallbacks)) ∧
        ¬ Sound sampleBibHost {} b [1, 2, 3] := by
  have hrun : ((Bundle.decodeBundle sampleNode noTargetsWire).bind fun b =>
      verifyBibs sampleBibHost b [1, 2, 3] {}) =
        .ok (.ok [⟨.int 2, "ipn:1.1", .array []⟩] 0) := by decide +kernel
  have hempty : ((Bundle.decodeBundle sampleNode noTargetsWire).bind fun b =>
      (bibsOf b).mapM fun bib => do return (← parseAsb sampleBibHost bib.data).targets) =
        .ok [.array []] := by decide +kernel
  cases hdec : Bundle.decodeBundle sampleNode noTargetsWire with
  | error e =>
      rw [hdec] at hrun
      cases hrun
  | ok b =>
      rw [hdec] at hrun hempty
      refine ⟨b, rfl, ⟨_, _, hrun⟩, ?_⟩
      rintro ⟨hne, hsound⟩
      have hempty := Outcome.mapM_eq_ok hempty
      generalize bibsOf b = bibs at hempty hsound
      cases hempty with
      | cons hasb hnil =>
          rename_i bib rest
          obtain ⟨c, targets, hc, htargets, hlists, -⟩ := hsound bib (List.mem_cons_self ..)
          obtain ⟨asb, hparse, htarget⟩ := Outcome.bind_eq_ok.mp hasb
          rw [hc.1, Except.ok.injEq] at hparse
          have hnone : c.asb.targets = .array [] := by
            rw [hparse]
            exact Except.ok.inj htarget
          rw [hnone] at htargets
          exact hlists (Except.ok.inj htargets).symm

end Bpsec

end DtnCustody

namespace DtnCustody

open Base Js

namespace Bpsec

variable {H : BibHost} {o : Options} {b b' : Bundle} {c : Context} {t : Target}

/-! ## The primary block -/

/-- What is written in front of the other blocks. -/
structure Fronted (H : BibHost) (b : Bundle) (raw : Bytes) : Prop where
  primary : Bundle.encodePrimary H.toNode b.primary.toObject = .ok raw
  data : ∀ x ∈ b.blocks, x.data.length ≤ Cbor.maxBuffer
  payload : b.blocks.getLast?.map Block.type = some Bundle.payloadType

theorem getLast?_toObject {bs : List Block} :
    (bs.map Block.toObject).getLast?.map BlockObject.type = some (some Bundle.payloadType) ↔
      bs.getLast?.map Block.type = some Bundle.payloadType := by
  rw [List.getLast?_map, Option.map_map]
  cases bs.getLast? with
  | none => simp
  | some x => exact ⟨fun h => congrArg some (Option.some.inj (Option.some.inj h)), fun h =>
      congrArg (fun v => some (some v)) (Option.some.inj h)⟩

/-- **The primary bytes are there when the whole bundle can be written.** -/
theorem primaryBytes_iff (ht : Bundle.Typed H.toNode b.toObject) {raw : Bytes} :
    primaryBytes H b = .ok raw ↔ Fronted H b raw := by
  have hfirst : ∀ raw' rest, Bundle.encodePrimary H.toNode b.primary.toObject = .ok raw' →
      ∃ v, next (raw' ++ rest) = .ok (v, rest) := by
    intro raw' rest hraw'
    obtain ⟨v, hv, hdist, hdepth⟩ := ht.primary_item hraw'
    exact ⟨v, Cbor.decodeAt_encode hdist hdepth raw' rest hv⟩
  have htake : ∀ (front rest : Bytes), (front ++ rest).take ((front ++ rest).length - rest.length) =
      front := by
    intro front rest
    rw [List.length_append, Nat.add_sub_cancel, List.take_left]
  constructor
  · intro h
    obtain ⟨all, hall, h⟩ := Outcome.bind_eq_ok.mp h
    obtain ⟨raw', blocks, hraw', rfl, hdata, hpayload⟩ := Bundle.encodeBundle_written hall
    obtain ⟨⟨v, r⟩, hnext, h⟩ := Outcome.bind_eq_ok.mp h
    obtain ⟨w, hw⟩ := hfirst raw' (blocks ++ [0xff]) hraw'
    have htail : (0x9f :: (raw' ++ blocks) ++ [0xff]).tail = raw' ++ (blocks ++ [0xff]) := by simp
    rw [htail] at hnext h
    rw [hw, Except.ok.injEq, Prod.mk.injEq] at hnext
    rw [← hnext.2] at h
    have h : (raw' ++ (blocks ++ [0xff])).take _ = raw := Except.ok.inj h
    rw [htake] at h
    subst h
    refine ⟨hraw', fun x hx => hdata _ (List.mem_map_of_mem hx), getLast?_toObject.mp hpayload⟩
  · rintro ⟨hraw, hdata, hpayload⟩
    have hfits : ∀ x ∈ b.toObject.blocks, x.data.length ≤ Cbor.maxBuffer := by
      intro y hy
      obtain ⟨x, hx, rfl⟩ := List.mem_map.mp hy
      exact hdata x hx
    obtain ⟨blocks, henc⟩ := ht.encodes hraw hfits (getLast?_toObject.mpr hpayload)
    obtain ⟨w, hw⟩ := hfirst raw (blocks ++ [0xff]) hraw
    have htail : (0x9f :: (raw ++ blocks) ++ [0xff]).tail = raw ++ (blocks ++ [0xff]) := by simp
    rw [primaryBytes, henc, Outcome.ok_bind, htail, hw, Outcome.ok_bind]
    exact congrArg Except.ok (htake raw _)

/-! ## The plaintext -/

/-- Values that stand for the same where `0` is the default. -/
def SameOrZero (v w : Cbor) : Prop :=
  JsVal.orElse (some w) (.int 0) = JsVal.orElse (some v) (.int 0)

/-- What a MAC takes in of the BIB itself. -/
structure SameHeader (bib bib' : Block) : Prop where
  number : bib'.number = bib.number
  flags : SameOrZero bib.flags bib'.flags

/-- Another block with the same number, flags and security block. -/
structure SameBib (bib bib' : Block) : Prop extends SameHeader bib bib' where
  data : bib'.data = bib.data

theorem SameBib.refl (bib : Block) : SameBib bib bib := ⟨⟨rfl, rfl⟩, rfl⟩

/-- Another block that reads as this one. -/
structure SameBlock (x x' : Block) : Prop extends SameBib x x' where
  type : x'.type = x.type
  crcType : SameOrZero x.crcType x'.crcType

theorem SameBlock.refl (x : Block) : SameBlock x x := ⟨.refl x, rfl, rfl⟩

/-- The same target in another bundle. -/
inductive SameTarget : Target → Target → Prop
  | primary : SameTarget .primary .primary
  | block {x x' : Block} (h : SameBlock x x') : SameTarget (.block x) (.block x')

theorem SameTarget.refl (t : Target) : SameTarget t t := by
  cases t with
  | primary => exact .primary
  | block x => exact .block (.refl x)

theorem SameTarget.trans {t t₁ t₂ : Target} (h : SameTarget t t₁) (h' : SameTarget t₁ t₂) :
    SameTarget t t₂ := by
  cases h with
  | primary => exact h'
  | block h =>
      cases h' with
      | block h' =>
          exact .block ⟨⟨⟨h'.number.trans h.number, h'.flags.trans h.flags⟩, h'.data.trans h.data⟩,
            h'.type.trans h.type, h'.crcType.trans h.crcType⟩

/-- Whether the plaintext of the target takes in the primary block. -/
def TakesPrimary (H : BibHost) (t : Target) (scope : Cbor) : Prop := t = .primary ∨ inScope H scope 1

variable {t' : Target} {bib bib' : Block}

theorem headerBytes_kept {scope : Cbor} {hd : Bytes} (htarget : SameTarget t t')
    (hprimary : TakesPrimary H t scope → ∀ raw, primaryBytes H b = .ok raw →
      primaryBytes H b' = .ok raw)
    (h : headerBytes H b t scope = .ok hd) : headerBytes H b' t' scope = .ok hd := by
  cases htarget with
  | primary => exact h
  | @block x x' hx =>
      obtain ⟨q, hq, hrest⟩ := Outcome.bind_eq_ok.mp h
      have hq' : partWhen H scope 1 (primaryBytes H b') = .ok q := by
        obtain ⟨m, hm, hq⟩ := Outcome.bind_eq_ok.mp hq
        rw [partWhen, hm, Outcome.ok_bind]
        split at hq
        · rename_i hzero
          rw [if_pos hzero]
          exact hq
        · rename_i hset
          rw [if_neg hset]
          exact hprimary (Or.inr ⟨m, hm, hset⟩) q hq
      rw [headerBytes, hq', Outcome.ok_bind, hx.type, hx.number, hx.flags]
      exact hrest

theorem targetBytes_kept {mode : Mode} {a3 : Bool} {tb : Bytes} (htarget : SameTarget t t')
    (hprimary : t = .primary → ∀ raw, primaryBytes H b = .ok raw → primaryBytes H b' = .ok raw)
    (h : targetBytes H b t mode a3 = .ok tb) : targetBytes H b' t' mode a3 = .ok tb := by
  cases htarget with
  | primary =>
      obtain ⟨q, hq, hrest⟩ := Outcome.bind_eq_ok.mp h
      rw [targetBytes, hprimary rfl q hq, Outcome.ok_bind]
      exact hrest
  | @block x x' hx =>
      rw [targetBytes, hx.type, hx.number, hx.data, hx.crcType]
      exact h

/-- **The plaintext is the same in another bundle**, if what it takes in of the primary block is. -/
theorem ippt_kept {scope : Cbor} {mode : Mode} {a3 : Bool} {p : Bytes} (htarget : SameTarget t t')
    (hbib : SameHeader bib bib')
    (hprimary : TakesPrimary H t scope → ∀ raw, primaryBytes H b = .ok raw →
      primaryBytes H b' = .ok raw)
    (h : ippt H b t bib scope mode a3 = .ok p) : ippt H b' t' bib' scope mode a3 = .ok p := by
  obtain ⟨n, hn, h⟩ := Outcome.bind_eq_ok.mp h
  obtain ⟨s, hs, h⟩ := Outcome.bind_eq_ok.mp h
  obtain ⟨hd, hhd, h⟩ := Outcome.bind_eq_ok.mp h
  obtain ⟨sec, hsec, h⟩ := Outcome.bind_eq_ok.mp h
  obtain ⟨tb, htb, h⟩ := Outcome.bind_eq_ok.mp h
  rw [ippt, hn, Outcome.ok_bind, hs, Outcome.ok_bind, headerBytes_kept htarget hprimary hhd,
    Outcome.ok_bind, hbib.number, hbib.flags, hsec, Outcome.ok_bind,
    targetBytes_kept htarget (fun ht => hprimary (Or.inl ht)) htb]
  exact h

/-- The same check, of another block. -/
def Context.withBib (c : Context) (bib : Block) : Context := { c with bib }

theorem macOf_kept {a3 : Bool} {got : Bytes} (htarget : SameTarget t t') (hbib : SameHeader c.bib bib')
    (hprimary : TakesPrimary H t c.asb.scope → ∀ raw, primaryBytes H b = .ok raw →
      primaryBytes H b' = .ok raw)
    (h : macOf H o b c t a3 = .ok got) : macOf H o b' (c.withBib bib') t' a3 = .ok got := by
  obtain ⟨p, hp, h⟩ := Outcome.bind_eq_ok.mp h
  have hp' : ippt H b' t' (c.withBib bib').bib c.asb.scope o.mode a3 = .ok p :=
    ippt_kept htarget hbib hprimary hp
  rw [macOf]
  show (ippt H b' t' (c.withBib bib').bib c.asb.scope o.mode a3 >>= _) = _
  rw [hp']
  exact h

/-- What a target number stands for is still there, without a CRC if it had none. -/
def TargetKept (b b' : Bundle) (n : Slot) : Prop :=
  ∀ t, targetOf b n = some t → ∃ t', targetOf b' n = some t' ∧ SameTarget t t' ∧
    (targetCrc b t = .int 0 → targetCrc b' t' = .int 0)

/-- **A target that is kept still passes.** -/
theorem TargetPasses.kept {i : Nat} {n : Slot} (h : TargetPasses H o b c i n)
    (hbib : SameHeader c.bib bib') (htarget : TargetKept b b' n)
    (hprimary : ∀ t, targetOf b n = some t → TakesPrimary H t c.asb.scope → ∀ raw,
      primaryBytes H b = .ok raw → primaryBytes H b' = .ok raw) :
    TargetPasses H o b' (c.withBib bib') i n := by
  obtain ⟨t, got, ⟨ht, hcrc⟩, hstated, hmatch⟩ := h
  obtain ⟨t', ht', hsame, hcrc'⟩ := htarget t ht
  have hkept := hprimary t ht
  refine ⟨t', got, ⟨ht', fun hno => hcrc ⟨hno.1, fun hzero => hno.2 (hcrc' hzero)⟩⟩, hstated, ?_⟩
  rcases hmatch with hfirst | ⟨rfl, ha3, ⟨want, hwant⟩, hsecond⟩
  · exact Or.inl (macOf_kept hsame hbib hkept hfirst)
  · cases hsame
    exact Or.inr ⟨rfl, ha3, ⟨want, macOf_kept .primary hbib hkept hwant⟩,
      macOf_kept .primary hbib hkept hsecond⟩

theorem Opens.withBib {key : Bytes} (h : Opens H key bib c) (hsame : SameBib bib bib') :
    Opens H key bib' (c.withBib bib') := by
  obtain ⟨hparse, hid, hkey, -⟩ := h
  refine ⟨?_, hid, hkey, rfl⟩
  rw [hsame.data]
  exact hparse

/-- What the checks of a BIB look up in one bundle is in the other. -/
structure Kept (H : BibHost) (b b' : Bundle) (key : Bytes) (bib : Block) : Prop where
  primary : ∀ raw, primaryBytes H b = .ok raw → primaryBytes H b' = .ok raw
  targets : ∀ c, Opens H key bib c → ∀ targets, elements c.asb.targets = .ok targets →
    ∀ n ∈ targets, TargetKept b b' n

theorem BibPasses.kept {key : Bytes} (h : BibPasses H o b key bib)
    (hsame : SameBib bib bib') (hkept : Kept H b b' key bib) : BibPasses H o b' key bib' := by
  obtain ⟨c, targets, hopens, htargets, hall⟩ := h
  have hbib : c.bib = bib := hopens.2.2.2
  refine ⟨_, targets, hopens.withBib hsame, htargets, fun i n hn => (hall i n hn).kept ?_ ?_ ?_⟩
  · rw [hbib]
    exact hsame.toSameHeader
  · exact hkept.targets c hopens targets htargets n (List.mem_of_getElem? hn)
  · exact fun t _ _ => hkept.primary

/-! ## Looking a target up -/

theorem targetOf_zero (b : Bundle) : targetOf b (.val (.int 0)) = some .primary := rfl

theorem targetOf_block {n : Slot} {x : Block} (h : targetOf b n = some (.block x)) :
    ∃ v, n = .val v ∧ v ≠ .int 0 ∧ x ∈ b.blocks ∧ Cbor.sameKey x.number v = true := by
  unfold targetOf at h
  split at h
  · cases h
  · rename_i v hv
    obtain ⟨y, hy, hyx⟩ := Option.map_eq_some_iff.mp h
    cases hyx
    refine ⟨v, rfl, ?_, List.mem_of_find?_eq_some hy, by simpa using List.find?_some hy⟩
    rintro rfl
    exact hv rfl
  · cases h

/-- A block is found by its number, where no other block has it. -/
theorem targetOf_of_mem {x : Block} {v : Cbor}
    (hnumbers : b.blocks.Pairwise fun x y => x.number ≠ y.number) (hx : x ∈ b.blocks)
    (hzero : v ≠ .int 0) (hv : Cbor.sameKey x.number v = true) :
    targetOf b (.val v) = some (.block x) := by
  have hfind : (b.blocks.find? fun y => Cbor.sameKey y.number v) = some x := by
    cases hfind : b.blocks.find? fun y => Cbor.sameKey y.number v with
    | none => exact absurd hv (List.find?_eq_none.mp hfind x hx)
    | some y =>
        have hy : Cbor.sameKey y.number v = true := by simpa using List.find?_some hfind
        by_contra hne
        have : Std.Symm fun x y : Block => x.number ≠ y.number := ⟨fun _ _ h => h.symm⟩
        apply hnumbers.forall (List.mem_of_find?_eq_some hfind) hx
        · rintro rfl
          exact hne rfl
        · rw [Cbor.sameKey_eq hy, Cbor.sameKey_eq hv]
  unfold targetOf
  split
  · rename_i heq
    cases heq
    exact absurd rfl hzero
  · rename_i heq
    cases heq
    rw [hfind]
    rfl
  · rename_i h1 h2
    exact absurd rfl (h2 v)

end Bpsec

end DtnCustody
