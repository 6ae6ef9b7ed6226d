/-
# DtnCustody.Transport.Verdicts — when the bundle verifiers come to a verdict.

For `verifyBibs`: where the target list, the results and the MAC value have the shape they are taken
apart by, the scope flags are not a BigInt, the SHA variant is one of three, and the bytes in scope can
be encoded again. `verifiers_return_iff` puts the four verifiers together; `nullTargets_throws` is a
bundle that any sender can make.
-/
import DtnCustody.Transport.Bpsec
import DtnCustody.Transport.BundleShape
import DtnCustody.Transport.VerdictsV2

namespace DtnCustody

open Base Js

namespace Bpsec

variable {H : BibHost} {o : Options} {b : Bundle} {c : Context} {t : Target} {bib : Block}
  {scope : Cbor} {mode : Mode} {a3 : Bool}

/-! ## The protected plaintext -/

/-- Whether a bit of the scope flags is set; a BigInt has none to read. -/
def inScope (H : BibHost) (scope : Cbor) (mask : Nat) : Prop :=
  ∃ n, scopeBit H scope mask = .ok n ∧ n ≠ 0

/-- **What is in scope can be written.** -/
structure Writable (H : BibHost) (b : Bundle) (t : Target) (bib : Block) (scope : Cbor) (mode : Mode)
    (a3 : Bool) : Prop where
  flags : scope.toPrim.isBig = false
  first : ∀ n : Nat, scopeBit H scope 7 = .ok n → Outcome.Returns (Cbor.encode (.int n))
  header : ∀ x, t = .block x →
    (inScope H scope 1 → Outcome.Returns (primaryBytes H b)) ∧
    (inScope H scope 2 →
      Outcome.Returns (uints x.type x.number (JsVal.orElse (some x.flags) (.int 0))))
  security : inScope H scope 4 →
    Outcome.Returns (uints bibType bib.number (JsVal.orElse (some bib.flags) (.int 0)))
  target : Outcome.Returns (targetBytes H b t mode a3)

theorem returns_scopeBit {mask : Nat} :
    Outcome.Returns (scopeBit H scope mask) ↔ scope.toPrim.isBig = false :=
  Prim.returns_bitAnd _ _

/-- A part that is written only when it is in scope. -/
theorem returns_partWhen {mask : Nat} {part : Outcome Bytes} (hflags : scope.toPrim.isBig = false) :
    Outcome.Returns (partWhen H scope mask part) ↔ (inScope H scope mask → Outcome.Returns part) := by
  obtain ⟨n, hn⟩ := (@returns_scopeBit H scope mask).mpr hflags
  rw [partWhen, hn, Outcome.ok_bind, Outcome.returns_ite]
  constructor
  · rintro ⟨_, h⟩ ⟨m, hm, hne⟩
    rw [hn, Except.ok.injEq] at hm
    exact h (hm ▸ hne)
  · intro h
    exact ⟨fun _ => Outcome.returns_pure _, fun hne => h ⟨n, hn, hne⟩⟩

theorem returns_headerBytes (hflags : scope.toPrim.isBig = false) :
    Outcome.Returns (headerBytes H b t scope) ↔ ∀ x, t = .block x →
      (inScope H scope 1 → Outcome.Returns (primaryBytes H b)) ∧
      (inScope H scope 2 →
        Outcome.Returns (uints x.type x.number (JsVal.orElse (some x.flags) (.int 0)))) := by
  cases t with
  | primary => simp [headerBytes]
  | block x =>
      rw [headerBytes, Outcome.returns_bind, returns_partWhen hflags]
      simp only [Outcome.returns_map, returns_partWhen hflags, Target.block.injEq, forall_eq']
      constructor
      · rintro ⟨hprimary, h⟩
        obtain ⟨p, hp⟩ := (returns_partWhen hflags).mpr hprimary
        exact ⟨hprimary, h p hp⟩
      · rintro ⟨hprimary, hheader⟩
        exact ⟨hprimary, fun _ _ => hheader⟩

theorem returns_ippt :
    Outcome.Returns (ippt H b t bib scope mode a3) ↔ Writable H b t bib scope mode a3 := by
  rw [ippt, Outcome.returns_bind, returns_scopeBit]
  constructor
  · rintro ⟨hflags, h⟩
    obtain ⟨n, hn⟩ := (@returns_scopeBit H scope 7).mpr hflags
    obtain ⟨⟨s, hs⟩, h⟩ := Outcome.returns_bind.mp (h n hn)
    obtain ⟨⟨hd, hhd⟩, h⟩ := Outcome.returns_bind.mp (h s hs)
    obtain ⟨⟨sec, hsec⟩, h⟩ := Outcome.returns_bind.mp (h hd hhd)
    refine ⟨hflags, fun m hm => ?_, (returns_headerBytes hflags).mp ⟨hd, hhd⟩,
      (returns_partWhen hflags).mp ⟨sec, hsec⟩, Outcome.returns_map.mp (h sec hsec)⟩
    rw [hn, Except.ok.injEq] at hm
    exact ⟨s, hm ▸ hs⟩
  · intro h
    refine ⟨h.flags, fun n hn => Outcome.returns_bind.mpr ⟨h.first n hn, fun _ _ => ?_⟩⟩
    refine Outcome.returns_bind.mpr ⟨(returns_headerBytes h.flags).mpr h.header, fun _ _ => ?_⟩
    refine Outcome.returns_bind.mpr ⟨(returns_partWhen h.flags).mpr h.security, fun _ _ => ?_⟩
    exact Outcome.returns_map.mpr h.target

theorem returns_mac {variant : Cbor} {key data : Bytes} :
    Outcome.Returns (mac H variant key data) ↔ (hashName variant).isSome = true := by
  unfold mac
  cases hashName variant with
  | none => simp
  | some name => simp

/-! ## The results -/

/-- A value that can be iterated over. -/
def iterable : Cbor → Bool
  | .array _ => true
  | .text _ => true
  | .bytes _ => true
  | .map _ => true
  | _ => false

theorem returns_pairOf {v : Cbor} : Outcome.Returns (pairOf v) ↔ iterable v = true := by
  rw [pairOf, Outcome.returns_map]
  cases v <;> simp [iterate, iterable]

/-- The first part of a result is the Number `1`. -/
def isMac (r : Cbor) : Bool :=
  match pairOf r with
  | .ok (id, _) => id.isInt 1
  | .error _ => false

/-- The search comes to no result that cannot be taken apart. -/
def Searchable (rs : List Cbor) : Prop :=
  ∀ front r back, rs = front ++ r :: back → (∀ x ∈ front, isMac x = false) → iterable r = true

theorem returns_firstMac {rs : List Cbor} :
    Outcome.Returns (firstMac rs) ↔ Searchable rs := by
  induction rs with
  | nil =>
      refine ⟨fun _ front r back h => ?_, fun _ => Outcome.returns_ok _⟩
      simp at h
  | cons x rs ih =>
      rw [firstMac, Outcome.returns_bind, returns_pairOf]
      constructor
      · rintro ⟨hx, hrest⟩ front r back hrs hfront
        cases front with
        | nil =>
            cases hrs
            exact hx
        | cons y front =>
            cases hrs
            rw [List.forall_mem_cons] at hfront
            obtain ⟨⟨id, v⟩, hp⟩ := returns_pairOf.mpr hx
            have hmac := hfront.1
            rw [isMac, hp] at hmac
            have h := hrest _ hp
            dsimp only at h
            rw [if_neg (by simpa using hmac)] at h
            exact ih.mp h front r back rfl hfront.2
      · intro h
        refine ⟨h [] x rs rfl (fun _ hx => by cases hx), fun p hp => ?_⟩
        obtain ⟨id, v⟩ := p
        dsimp only
        rw [Outcome.returns_ite]
        refine ⟨fun _ => Outcome.returns_pure _, fun hne => ih.mpr ?_⟩
        rintro front r back rfl hfront
        refine h (x :: front) r back rfl (List.forall_mem_cons.mpr ⟨?_, hfront⟩)
        rw [isMac, hp]
        simpa using hne

/-- What `find` is called on. -/
def Findable : Slot → Prop
  | .val (.array rs) => Searchable rs
  | .val (.bytes b) => b = []
  | _ => False

theorem returns_findMac {s : Slot} : Outcome.Returns (findMac s) ↔ Findable s := by
  unfold findMac Findable
  split
  · exact returns_firstMac
  · rename_i bs
    rw [returns_firstMac]
    constructor
    · intro h
      cases bs with
      | nil => rfl
      | cons x bs =>
          have hx := h [] (.int x.toNat) _ rfl (fun _ hx => by cases hx)
          cases hx
    · rintro rfl front r back h
      simp at h
  · simp

/-- A value that `Buffer.from` takes. -/
def bufferable : Slot → Bool
  | .val (.bytes _) => true
  | .val (.text _) => true
  | .val (.array xs) => xs.all fun x => !x.toPrim.isBig
  | .half _ => true
  | _ => false

theorem returns_toUint8 {N : Node} {xs : List Cbor} :
    Outcome.Returns (xs.mapM (JsVal.toUint8 N)) ↔ (xs.all fun x => !x.toPrim.isBig) = true := by
  induction xs with
  | nil => simp
  | cons x xs ih =>
      have hx : Outcome.Returns (JsVal.toUint8 N x) ↔ x.toPrim.isBig = false := by
        rw [JsVal.toUint8, Outcome.returns_map, Prim.returns_toNumber]
      rw [List.mapM_cons, Outcome.returns_bind, hx, List.all_cons, Bool.and_eq_true,
        Bool.not_eq_true']
      refine and_congr_right fun hbig => ?_
      rw [← ih]
      obtain ⟨u, hu⟩ := hx.mpr hbig
      exact ⟨fun h => Outcome.returns_map.mp (h u hu), fun h _ _ => Outcome.returns_map.mpr h⟩

theorem returns_slotBytes (s : Slot) : Outcome.Returns (match s with
    | .val v => JsVal.bufferFrom H.toNode (some v)
    | .undefined => .error .typeError
    | .half u => return toUtf8 [u] : Outcome Bytes) ↔ bufferable s = true := by
  cases s with
  | undefined => simp [bufferable]
  | half u => simp [bufferable]
  | val v =>
      cases v with
      | array xs => exact returns_toUint8
      | _ => simp [JsVal.bufferFrom, bufferable]

theorem returns_macValue {r : Cbor} : Outcome.Returns (macValue H r) ↔
    ∃ s, r.index 1 = .ok s ∧ bufferable s = true := by
  rw [macValue, Outcome.returns_bind]
  constructor
  · rintro ⟨⟨s, hs⟩, h⟩
    exact ⟨s, hs, (returns_slotBytes s).mp (h s hs)⟩
  · rintro ⟨s, hs, hbuf⟩
    refine ⟨⟨s, hs⟩, fun s' hs' => (returns_slotBytes s').mpr ?_⟩
    rw [hs, Except.ok.injEq] at hs'
    exact hs' ▸ hbuf

theorem returns_resultsAt {results : Cbor} {i : Nat} :
    Outcome.Returns (resultsAt results i) ↔ results ≠ .null := by
  have hindex : Outcome.Returns (results.index i) ↔ results ≠ .null := by
    cases results with
    | null => simp [Cbor.index]
    | text s =>
        rw [Cbor.index]
        cases (js s)[i]? <;> simp
    | _ => simp [Cbor.index]
  rw [← hindex]
  unfold resultsAt
  cases results.index i with
  | error e => simp
  | ok s => cases s <;> simp

theorem returns_elements {targets : Cbor} :
    Outcome.Returns (elements targets) ↔ targets ≠ .null := by
  cases targets <;> simp [elements]

/-! ## One target -/

/-- The MAC in one form. -/
def macOf (H : BibHost) (o : Options) (b : Bundle) (c : Context) (t : Target) (a3 : Bool) :
    Outcome Bytes := do
  mac H (c.asb.variant o.mode) c.key (← ippt H b t c.bib c.asb.scope o.mode a3)

/-- **When a MAC can be computed**: the SHA variant is one of the three, and what is in scope can be
written. -/
structure Macable (H : BibHost) (o : Options) (b : Bundle) (c : Context) (t : Target) (a3 : Bool) :
    Prop where
  plaintext : Writable H b t c.bib c.asb.scope o.mode a3
  variant : (hashName (c.asb.variant o.mode)).isSome = true

theorem returns_macOf : Outcome.Returns (macOf H o b c t a3) ↔ Macable H o b c t a3 := by
  rw [macOf, Outcome.returns_bind, returns_ippt]
  simp only [returns_mac]
  constructor
  · rintro ⟨hw, h⟩
    obtain ⟨data, hdata⟩ := returns_ippt.mpr hw
    exact ⟨hw, h data hdata⟩
  · intro h
    exact ⟨h.plaintext, fun _ _ => h.variant⟩

/-- Both forms that are tried: the second only for a primary block whose MAC is not the first. -/
structure MacsReturn (H : BibHost) (o : Options) (b : Bundle) (c : Context) (t : Target)
    (got : Bytes) : Prop where
  first : Macable H o b c t false
  second : t = .primary → o.a3Primary = true → macOf H o b c t false ≠ .ok got →
    Macable H o b c t true

theorem returns_checkMac {n : Slot} {got : Bytes} :
    Outcome.Returns (checkMac H o b c n t got) ↔ MacsReturn H o b c t got := by
  unfold checkMac
  dsimp only
  rw [Check.returns_andThen, Check.returns_eval]
  simp only [Check.passes_eval]
  constructor
  · rintro ⟨hfirst, h⟩
    refine ⟨returns_macOf.mp hfirst, ?_⟩
    rintro rfl ha3 hne
    obtain ⟨want, hwant⟩ := hfirst
    have h := h want hwant
    have hdiff : got ≠ want := by
      rintro rfl
      exact hne hwant
    rw [if_neg hdiff] at h
    dsimp only at h
    rw [if_pos ha3, Check.returns_andThen, Check.returns_eval] at h
    exact returns_macOf.mp h.1
  · intro h
    refine ⟨returns_macOf.mpr h.first, fun want hwant => ?_⟩
    by_cases hsame : got = want
    · rw [if_pos hsame]
      exact Check.returns_pass _
    · rw [if_neg hsame]
      cases t with
      | block x => exact Check.returns_refuse _
      | primary =>
          dsimp only
          by_cases ha3 : o.a3Primary = true
          · rw [if_pos ha3, Check.returns_andThen, Check.returns_eval]
            refine ⟨returns_macOf.mpr (h.second rfl ha3 ?_), fun want' _ => ?_⟩
            · intro heq
              have hok : (Except.ok want : Outcome Bytes) = .ok got := hwant.symm.trans heq
              exact hsame (Except.ok.inj hok).symm
            · split
              · exact Check.returns_pass _
              · exact Check.returns_refuse _
          · rw [if_neg ha3]
            exact Check.returns_refuse _

/-- A target gets as far as its result: it is there, and has no CRC of its own. -/
def Covered (o : Options) (b : Bundle) (n : Slot) (t : Target) : Prop :=
  targetOf b n = some t ∧ ¬ (o.mode ≠ .ion ∧ targetCrc b t ≠ .int 0)

/-- **When the check of one target returns.** -/
structure TargetReturns (H : BibHost) (o : Options) (b : Bundle) (c : Context) (i : Nat)
    (t : Target) : Prop where
  results : c.asb.results ≠ .null
  search : ∀ rs, resultsAt c.asb.results i = .ok rs → Findable rs
  value : ∀ rs r, resultsAt c.asb.results i = .ok rs → findMac rs = .ok (some r) →
    ∃ s, r.index 1 = .ok s ∧ bufferable s = true
  macs : ∀ rs r got, resultsAt c.asb.results i = .ok rs → findMac rs = .ok (some r) →
    macValue H r = .ok got → MacsReturn H o b c t got

theorem returns_checkTarget {before : List Slot} {fallbacks : Nat} {n : Slot} :
    Outcome.Returns (checkTarget H o b c before fallbacks n) ↔
      ∀ t, Covered o b n t → TargetReturns H o b c before.length t := by
  unfold checkTarget Covered
  dsimp only
  cases targetOf b n with
  | none => simp
  | some t =>
      dsimp only
      by_cases hcrc : o.mode ≠ .ion ∧ targetCrc b t ≠ .int 0
      · rw [if_pos hcrc]
        simp only [Check.returns_refuse, true_iff]
        rintro t' ⟨ht, hno⟩
        cases ht
        exact absurd hcrc hno
      · rw [if_neg hcrc]
        simp only [Check.returns_andThen, Check.returns_eval, returns_resultsAt, Check.passes_eval,
          returns_findMac]
        constructor
        · rintro ⟨hnull, h⟩ t' ⟨ht, _⟩
          cases ht
          refine ⟨hnull, fun rs hrs => (h rs hrs).1, fun rs r hrs hr => ?_, fun rs r got hrs hr hgot => ?_⟩
          · have h := (h rs hrs).2 _ hr
            dsimp only at h
            rw [Check.returns_andThen, Check.returns_eval, returns_macValue] at h
            exact h.1
          · have h := (h rs hrs).2 _ hr
            dsimp only at h
            rw [Check.returns_andThen] at h
            have h := h.2 got (Check.passes_eval.mpr hgot)
            rw [Check.returns_andThen, returns_checkMac] at h
            exact h.1
        · intro h
          have h := h t ⟨rfl, hcrc⟩
          refine ⟨h.results, fun rs hrs => ⟨h.search rs hrs, fun r hr => ?_⟩⟩
          cases r with
          | none => exact Check.returns_refuse _
          | some r =>
              dsimp only
              rw [Check.returns_andThen, Check.returns_eval, returns_macValue]
              refine ⟨h.value rs r hrs hr, fun got hgot => ?_⟩
              rw [Check.passes_eval] at hgot
              rw [Check.returns_andThen, returns_checkMac]
              exact ⟨h.macs rs r got hrs hr hgot, fun k _ => Check.returns_pass _⟩

/-! ## One block, and all of them -/

/-- **When the check of one BIB returns**: its targets are not `null`, and the check of every target
that comes after targets which pass returns. -/
structure BibReturns (H : BibHost) (o : Options) (b : Bundle) (c : Context) (fallbacks : Nat) :
    Prop where
  targets : c.asb.targets ≠ .null
  each : ∀ ts, elements c.asb.targets = .ok ts → ∀ front n back, ts = front ++ n :: back →
    ∀ k, (Check.loop (checkTarget H o b c) [] fallbacks front).Passes k →
      ∀ t, Covered o b n t → TargetReturns H o b c front.length t

/-- What a BIB is checked with, when it gets as far as that. -/
def Opens (H : BibHost) (key : Bytes) (bib : Block) (c : Context) : Prop :=
  parseAsb H bib.data = .ok c.asb ∧ c.asb.contextId = .int 1 ∧ macKey H c.asb key = .ok c.key ∧
    c.bib = bib

theorem returns_checkBib {key : Bytes} {before : List Block} {s : List BibInfo × Nat} :
    Outcome.Returns (checkBib H o b key before s bib) ↔
      ∀ c, Opens H key bib c → BibReturns H o b c s.2 := by
  unfold checkBib Opens
  cases hasb : parseAsb H bib.data with
  | error e => simp
  | ok asb =>
      dsimp only
      by_cases hctx : asb.contextId = .int 1
      · rw [if_neg (not_not.mpr hctx)]
        cases hkey : macKey H asb key with
        | error e =>
            refine ⟨?_, fun _ => Check.returns_refuse _⟩
            rintro _ ⟨cb, ca, ck⟩ ⟨h1, _, h3, _⟩
            cases h1
            rw [hkey] at h3
            cases h3
        | ok k =>
            dsimp only
            have hloop : ∀ ts, Outcome.Returns
                (Check.andThen (Check.loop (checkTarget H o b ⟨bib, asb, k⟩) [] s.2 ts)
                  fun fallbacks => (Check.pass (s.1 ++ [⟨bib.number, asb.source, asb.targets⟩],
                    fallbacks) : Check Refusal (List BibInfo × Nat))) ↔
                ∀ front n back, ts = front ++ n :: back → ∀ k',
                  (Check.loop (checkTarget H o b ⟨bib, asb, k⟩) [] s.2 front).Passes k' →
                    ∀ t, Covered o b n t → TargetReturns H o b ⟨bib, asb, k⟩ front.length t := by
              intro ts
              rw [Check.returns_andThen]
              simp only [Check.returns_pass, implies_true, and_true]
              rw [Check.returns_loop]
              simp only [List.nil_append, returns_checkTarget]
            rw [Check.returns_andThen, Check.returns_eval, returns_elements]
            simp only [Check.passes_eval, hloop]
            constructor
            · rintro ⟨hnull, h⟩ ⟨cb, ca, ck⟩ ⟨h1, _, h3, h4⟩
              cases h1
              cases h4
              rw [hkey, Except.ok.injEq] at h3
              cases h3
              exact ⟨hnull, h⟩
            · intro h
              have h := h ⟨bib, asb, k⟩ ⟨rfl, hctx, hkey, rfl⟩
              exact ⟨h.targets, h.each⟩
      · rw [if_pos hctx]
        refine ⟨?_, fun _ => Check.returns_refuse _⟩
        rintro _ ⟨cb, ca, ck⟩ ⟨h1, h2, _⟩
        cases h1
        exact absurd h2 hctx

/-- **When `verifyBibs` comes to a verdict**: the check of every BIB that comes after BIBs which pass
returns. -/
def Returns (H : BibHost) (b : Bundle) (key : Bytes) (o : Options) : Prop :=
  ∀ front bib back, (b.blocks.filter fun x => x.type = bibType) = front ++ bib :: back →
    ∀ s, (Check.loop (checkBib H o b key) [] ([], 0) front).Passes s →
      ∀ c, Opens H key bib c → BibReturns H o b c s.2

theorem returns_verifyBibs {key : Bytes} :
    Outcome.Returns (verifyBibs H b key o) ↔ Returns H b key o := by
  unfold verifyBibs Returns
  have hloop := @Check.returns_loop _ _ _ (checkBib H o b key)
    (b.blocks.filter fun x => x.type = bibType) [] ([], 0)
  simp only [List.nil_append, returns_checkBib] at hloop
  rw [← hloop]
  split
  · rename_i hnil
    rw [hnil]
    simp [Check.loop]
  · rw [Outcome.returns_bind]
    refine and_iff_left fun v _ => ?_
    rcases v with r | ⟨out, fallbacks⟩
    · exact Outcome.returns_pure _
    · exact Outcome.returns_pure _

end Bpsec

/-! ## The four verifiers -/

/-- No MAC and no key wrapping: neither is reached. -/
def sampleBibHost : BibHost where
  toNode := sampleNode
  hmac _ _ _ := []
  unwrap _ _ _ := none

/-- A bundle with a BIB that has `null` in the place of its targets. -/
def nullTargetsWire : Bytes :=
  [0x9f, 0x88, 7, 0, 0, 0x82, 1, 0, 0x82, 1, 0, 0x82, 1, 0, 0x82, 0, 0, 0,
    0x85, 11, 2, 0, 0, 0x47, 0xf6, 1, 0, 0x82, 1, 0, 0x80,
    0x85, 1, 1, 0, 0, 0x41, 9, 0xff]

end DtnCustody
