/-
# DtnCustody.Transport.ReceiptV2 — `transport/bpv7/receipt-v2.mjs`: what a signature is bound to.

`bundleIdentity` is the source, the creation timestamp and, for a fragment, its place in the whole.
`Identity.toCbor` is how it is written into signed bytes. That writing is injective up to one case:
a creation timestamp read off a text string can be half of a surrogate pair, and every such half is
written as U+FFFD (`identity_inj`).
-/
import DtnCustody.Transport.Bundle

namespace DtnCustody

open Base Js

structure Identity where
  source : String
  created : Slot × Slot
  /-- Offset and total length, pushed for a fragment. -/
  fragment : Option (JsVal × JsVal)
  deriving DecidableEq, Repr

namespace Bundle

variable (N : Node)

/-- `bundleIdentity(bundle)`. -/
def bundleIdentity (b : Bundle) : Outcome Identity := do
  let frag ← fragmentBit N (JsVal.orElse (some b.primary.flags) (.int 0))
  return { source := b.primary.source, created := b.primary.created,
           fragment := if frag = 0 then none
             else some (b.primary.fragmentOffset, b.primary.totalAduLength) }

/-- SHA-256 of the payload block's data. -/
def payloadHash (b : Bundle) : Outcome Bytes := do return N.sha256 (← b.payloadOf)

end Bundle

namespace Identity

/-- The fragment fields as encoded; `undefined` cannot be. -/
def fragmentCbor : Option (JsVal × JsVal) → Outcome (List Cbor)
  | none => .ok []
  | some (o, t) => do
      let o ← (Slot.ofJsVal o).toCbor
      let t ← (Slot.ofJsVal t).toCbor
      return [o, t]

/-- `[source, [time, seq]]`, with the two fragment fields behind. -/
def toCbor (id : Identity) : Outcome Cbor := do
  let time ← id.created.1.toCbor
  let seq ← id.created.2.toCbor
  let frag ← fragmentCbor id.fragment
  return .array (.text id.source :: .array [time, seq] :: frag)

end Identity

/-! ## When the written identity names one bundle -/

def replacementText : Cbor := .text (String.ofList [replacementChar])

/-- Two slots are written the same only if they are the same, or one is half a surrogate pair. -/
theorem Slot.toCbor_inj {s t : Slot} {v : Cbor} (hs : s.toCbor = .ok v) (ht : t.toCbor = .ok v) :
    s = t ∨ v = replacementText ∧ ((∃ u, s = .half u) ∨ ∃ u, t = .half u) := by
  rcases s with _ | s | s
  · cases hs
  · rcases t with _ | t | t
    · cases ht
    · cases hs; cases ht; exact Or.inl rfl
    · cases hs; cases ht; exact Or.inr ⟨rfl, Or.inr ⟨t, rfl⟩⟩
  · cases hs; exact Or.inr ⟨rfl, Or.inl ⟨s, rfl⟩⟩

theorem Slot.ofJsVal_inj {v w : JsVal} {x : Cbor} (hv : (ofJsVal v).toCbor = .ok x)
    (hw : (ofJsVal w).toCbor = .ok x) : v = w := by
  cases v with
  | none => cases hv
  | some v =>
    cases w with
    | none => cases hw
    | some w => cases hv; cases hw; rfl

theorem Slot.toCbor_ofUnit (u : UInt16) :
    (ofUnit u).toCbor = .ok (.text (String.ofList [unitScalar u])) := by
  unfold ofUnit
  split
  · rename_i h
    have hu : unitScalar u = replacementChar := by rw [unitScalar, if_pos h]
    rw [hu]
    rfl
  · rfl

/-- A half can only have been read off a text string, which then has a unit at every index below. -/
theorem Cbor.index_half {item : Cbor} {i : Nat} {u : UInt16} (h : item.index i = .ok (.half u)) :
    ∃ s, item = .text s ∧ ∃ w, (js s)[i]? = some w ∧ Slot.ofUnit w = .half u := by
  unfold index at h
  split at h
  · cases h
  · rename_i s
    split at h
    · cases h
    · rename_i w hw
      exact ⟨s, rfl, w, hw, by simpa using h⟩
  all_goals
    · simp only [Except.ok.injEq] at h
      first
      | cases h
      | (unfold Slot.ofJsVal at h; split at h <;> cases h)

theorem Cbor.index_text {s : String} {i : Nat} {w : UInt16} (h : (js s)[i]? = some w) :
    (Cbor.text s).index i = .ok (.ofUnit w) := by
  simp [index, h]

/-- A text string that starts with half a pair has the other half next. -/
theorem js_pair {s : String} {u w : UInt16} (h : (js s)[0]? = some w)
    (hw : Slot.ofUnit w = .half u) : ∃ w' u', (js s)[1]? = some w' ∧ Slot.ofUnit w' = .half u' := by
  unfold js at h ⊢
  rcases hs : s.toList with _ | ⟨c, cs⟩
  · rw [hs] at h; cases h
  · rw [hs] at h
    have hc := char_range c
    rw [show utf16 (c :: cs) = utf16Char c ++ utf16 cs from rfl] at h ⊢
    unfold utf16Char at h ⊢
    split at h
    · rename_i hsmall
      exfalso
      have hn : (UInt16.ofNat c.toNat).toNat = c.toNat := by
        rw [UInt16.toNat_ofNat']; exact Nat.mod_eq_of_lt hsmall
      simp only [List.cons_append, List.getElem?_cons_zero, Option.some.injEq] at h
      subst h
      unfold Slot.ofUnit at hw
      split at hw
      · rename_i hsur
        simp only [isHighSurrogate, isLowSurrogate, hn, Bool.or_eq_true, Bool.and_eq_true,
          decide_eq_true_eq] at hsur
        omega
      · cases hw
    · rename_i hbig
      rw [if_neg hbig]
      set lo := 0xDC00 + (c.toNat - 0x10000) % 0x400 with hlo
      have hn : (UInt16.ofNat lo).toNat = lo := by
        rw [UInt16.toNat_ofNat']; apply Nat.mod_eq_of_lt; omega
      refine ⟨UInt16.ofNat lo, UInt16.ofNat lo, rfl, ?_⟩
      have hsur : isLowSurrogate (UInt16.ofNat lo) = true := by
        simp only [isLowSurrogate, hn, Bool.and_eq_true, decide_eq_true_eq]
        omega
      rw [Slot.ofUnit, hsur, Bool.or_true, if_pos rfl]

theorem Cbor.index_distinct {item v : Cbor} {i : Nat} {s : Slot} (hitem : item.Distinct)
    (h : item.index i = .ok s) (hv : s.toCbor = .ok v) : v.Distinct := by
  unfold index at h
  split at h
  · cases h
  · split at h
    · cases h; cases hv
    · cases h
      rw [Slot.toCbor_ofUnit] at hv
      cases hv
      exact .text _
  · rename_i b
    cases hb : b[i]? with
    | none => rw [hb] at h; cases h; cases hv
    | some x => rw [hb] at h; cases h; cases hv; exact .int _
  · rename_i xs
    cases hx : xs[i]? with
    | none => rw [hx] at h; cases h; cases hv
    | some x =>
        rw [hx] at h
        cases h
        cases hv
        have hxs : ∀ x ∈ xs, x.Distinct := by cases hitem; assumption
        exact hxs _ (List.mem_of_getElem? hx)
  · cases h; cases hv

namespace Bundle

/-- The timestamp is written as one code unit of text and U+FFFD: it may have been read off two
different strings. -/
def Ambiguous (created : Slot × Slot) : Prop :=
  (∃ u, created.1.toCbor = .ok (.text (String.ofList [unitScalar u]))) ∧
    created.2.toCbor = .ok replacementText

/-- The first half of a timestamp whose second half is half of a pair is one code unit. -/
theorem Timestamp.fst_of_half {p : Slot × Slot} {u : UInt16} (hp : Timestamp p)
    (h : p.2 = .half u) : ∃ w, p.1.toCbor = .ok (.text (String.ofList [unitScalar w])) := by
  obtain ⟨item, _, h0, h1⟩ := hp
  rw [h] at h1
  obtain ⟨s, rfl, w, hw, _⟩ := Cbor.index_half h1
  have hlt := (List.getElem?_eq_some_iff.mp hw).1
  have h00 : (js s)[0]? = some ((js s).get ⟨0, by omega⟩) := List.getElem?_eq_getElem (by omega)
  rw [Cbor.index_text h00] at h0
  simp only [Except.ok.injEq] at h0
  exact ⟨_, by rw [← h0, Slot.toCbor_ofUnit]⟩

theorem Timestamp.snd_of_half {p : Slot × Slot} {u : UInt16} (hp : Timestamp p)
    (h : p.1 = .half u) : ∃ u', p.2 = .half u' := by
  obtain ⟨item, _, h0, h1⟩ := hp
  rw [h] at h0
  obtain ⟨s, rfl, w, hw, hu⟩ := Cbor.index_half h0
  obtain ⟨w', u', hw', hu'⟩ := js_pair hw hu
  rw [Cbor.index_text hw', hu'] at h1
  exact ⟨u', by simpa using h1.symm⟩

/-- **A written timestamp names one timestamp**, unless it is ambiguous. -/
theorem Timestamp.inj {p q : Slot × Slot} {v w : Cbor} (hp : Timestamp p) (hq : Timestamp q)
    (hp1 : p.1.toCbor = .ok v) (hq1 : q.1.toCbor = .ok v) (hp2 : p.2.toCbor = .ok w)
    (hq2 : q.2.toCbor = .ok w) (hamb : ¬ Ambiguous p) : p = q := by
  have hsnd : p.2 = q.2 := by
    rcases Slot.toCbor_inj hp2 hq2 with h | ⟨rfl, ⟨u, hu⟩ | ⟨u, hu⟩⟩
    · exact h
    · exact absurd ⟨hp.fst_of_half hu, hp2⟩ hamb
    · obtain ⟨x, hx⟩ := hq.fst_of_half hu
      exact absurd ⟨⟨x, by rw [hp1, ← hq1, hx]⟩, hp2⟩ hamb
  have hhalf : ∀ u, p.2 ≠ .half u := by
    intro u hu
    have : p.2.toCbor = .ok replacementText := by rw [hu]; rfl
    exact hamb ⟨hp.fst_of_half hu, this⟩
  have hfst : p.1 = q.1 := by
    rcases Slot.toCbor_inj hp1 hq1 with h | ⟨_, ⟨u, hu⟩ | ⟨u, hu⟩⟩
    · exact h
    · obtain ⟨u', hu'⟩ := hp.snd_of_half hu
      exact absurd hu' (hhalf u')
    · obtain ⟨u', hu'⟩ := hq.snd_of_half hu
      exact absurd (hsnd.trans hu') (hhalf u')
  exact Prod.ext hfst hsnd

theorem unitScalar_lt (u : UInt16) : (unitScalar u).toNat < 0x10000 := by
  unfold unitScalar
  split
  · decide
  · by_cases hvalid : u.toNat.isValidChar
    · rw [toNat_charOfNat hvalid]
      exact u.toNat_lt
    · rw [Char.ofNat, dif_neg hvalid]
      decide

theorem ofUnit_char {c : Char} (hc : c.toNat < 0x10000) :
    Slot.ofUnit (UInt16.ofNat c.toNat) = .val (.text (String.ofList [c])) := by
  have hn : (UInt16.ofNat c.toNat).toNat = c.toNat := by
    rw [UInt16.toNat_ofNat']; exact Nat.mod_eq_of_lt hc
  have hrange := char_range c
  have hsur : (isHighSurrogate (UInt16.ofNat c.toNat) || isLowSurrogate (UInt16.ofNat c.toNat))
      = false := by
    simp only [isHighSurrogate, isLowSurrogate, hn, Bool.or_eq_false_iff, Bool.and_eq_false_iff,
      decide_eq_false_iff_not]
    omega
  unfold Slot.ofUnit unitScalar
  rw [hsur]
  simp [hn, Char.ofNat_toNat]

/-- A string that gives one code unit of text, then half of a pair. -/
theorem index_unit_half (u : UInt16) :
    ∃ s : String, ∃ w,
      (Cbor.text s).index 0 = .ok (.val (.text (String.ofList [unitScalar u]))) ∧
      (Cbor.text s).index 1 = .ok (.half w) := by
  have hjs : js (String.ofList [unitScalar u, Char.ofNat 0x1F600])
      = [UInt16.ofNat (unitScalar u).toNat, 0xD83D, 0xDE00] := by
    rw [js, String.toList_ofList]
    show utf16Char (unitScalar u) ++ (utf16Char (Char.ofNat 0x1F600) ++ []) = _
    rw [show utf16Char (Char.ofNat 0x1F600) = [0xD83D, 0xDE00] by decide, utf16Char,
      if_pos (unitScalar_lt u)]
    rfl
  refine ⟨String.ofList [unitScalar u, Char.ofNat 0x1F600], 0xD83D, ?_, ?_⟩
  · rw [Cbor.index_text (by rw [hjs]; rfl), ofUnit_char (unitScalar_lt u)]
  · rw [Cbor.index_text (by rw [hjs]; rfl)]
    rfl

/-- An ambiguous timestamp has a rival that is written the same. -/
theorem Ambiguous.rival {p : Slot × Slot} (h : Ambiguous p) :
    ∃ q, q ≠ p ∧ Timestamp q ∧ q.1.toCbor = p.1.toCbor ∧ q.2.toCbor = p.2.toCbor := by
  obtain ⟨⟨u, hu⟩, hrep⟩ := h
  by_cases hhalf : ∃ w, p.2 = .half w
  · obtain ⟨w, hw⟩ := hhalf
    refine ⟨(.val (.text (String.ofList [unitScalar u])), .val replacementText), ?_, ?_, hu.symm,
      hrep.symm⟩
    · intro h
      rw [← h] at hw
      cases hw
    · refine ⟨.array [.text (String.ofList [unitScalar u]), replacementText], ?_, rfl, rfl⟩
      refine .array fun x hx => ?_
      simp only [List.mem_cons, List.not_mem_nil, or_false] at hx
      rcases hx with rfl | rfl
      · exact .text _
      · exact .text _
  · obtain ⟨s, w, h0, h1⟩ := index_unit_half u
    refine ⟨(.val (.text (String.ofList [unitScalar u])), .half w), ?_,
      ⟨.text s, .text s, h0, h1⟩, hu.symm, hrep.symm⟩
    intro h
    exact hhalf ⟨w, by rw [← h]⟩

end Bundle

namespace Identity

theorem fragmentCbor_inj {f g : Option (JsVal × JsVal)} {xs : List Cbor}
    (hf : fragmentCbor f = .ok xs) (hg : fragmentCbor g = .ok xs) : f = g := by
  unfold fragmentCbor at hf hg
  split at hf
  · cases hf
    split at hg
    · rfl
    · obtain ⟨o, _, hg⟩ := Outcome.bind_eq_ok.mp hg
      obtain ⟨t, _, hg⟩ := Outcome.bind_eq_ok.mp hg
      cases hg
  · obtain ⟨o, ho, hf⟩ := Outcome.bind_eq_ok.mp hf
    obtain ⟨t, ht, hf⟩ := Outcome.bind_eq_ok.mp hf
    cases hf
    split at hg
    · cases hg
    · obtain ⟨o', ho', hg⟩ := Outcome.bind_eq_ok.mp hg
      obtain ⟨t', ht', hg⟩ := Outcome.bind_eq_ok.mp hg
      cases hg
      rw [Slot.ofJsVal_inj ho ho', Slot.ofJsVal_inj ht ht']

theorem toCbor_ok {id : Identity} {v : Cbor} (h : id.toCbor = .ok v) :
    ∃ time seq frag, id.created.1.toCbor = .ok time ∧ id.created.2.toCbor = .ok seq ∧
      fragmentCbor id.fragment = .ok frag ∧
      v = .array (.text id.source :: .array [time, seq] :: frag) := by
  obtain ⟨time, ht, h⟩ := Outcome.bind_eq_ok.mp h
  obtain ⟨seq, hs, h⟩ := Outcome.bind_eq_ok.mp h
  obtain ⟨frag, hf, h⟩ := Outcome.bind_eq_ok.mp h
  cases h
  exact ⟨time, seq, frag, ht, hs, hf, rfl⟩

/-- **The written identity names one bundle**, unless its timestamp is ambiguous. -/
theorem toCbor_inj {id id' : Identity} {v : Cbor} (h : id.toCbor = .ok v)
    (h' : id'.toCbor = .ok v) (ht : Bundle.Timestamp id.created) (ht' : Bundle.Timestamp id'.created)
    (hamb : ¬ Bundle.Ambiguous id.created) : id = id' := by
  obtain ⟨time, seq, frag, h1, h2, h3, rfl⟩ := toCbor_ok h
  obtain ⟨time', seq', frag', h1', h2', h3', heq⟩ := toCbor_ok h'
  simp only [Cbor.array.injEq, List.cons.injEq, Cbor.text.injEq, and_true] at heq
  obtain ⟨hsource, ⟨rfl, rfl⟩, rfl⟩ := heq
  have hcreated := ht.inj ht' h1 h1' h2 h2' hamb
  have hfrag := fragmentCbor_inj h3 h3'
  cases id
  cases id'
  simp_all

end Identity

namespace Bundle

variable (N : Node)

theorem bundleIdentity_ok {b : Bundle} {id : Identity} (h : b.bundleIdentity N = .ok id) :
    ∃ frag, fragmentBit N (JsVal.orElse (some b.primary.flags) (.int 0)) = .ok frag ∧
      id = { source := b.primary.source, created := b.primary.created,
             fragment := if frag = 0 then none
               else some (b.primary.fragmentOffset, b.primary.totalAduLength) } := by
  obtain ⟨frag, hfrag, h⟩ := Outcome.bind_eq_ok.mp h
  cases h
  exact ⟨frag, hfrag, rfl⟩

theorem bundleIdentity_created {b : Bundle} {id : Identity} (h : b.bundleIdentity N = .ok id) :
    id.created = b.primary.created := by
  obtain ⟨_, _, rfl⟩ := bundleIdentity_ok N h
  rfl

/-- The written identity of a decoded bundle can be read back. -/
theorem WellFormed.distinct_identity {b : Bundle} {id : Identity} {v : Cbor} (hb : b.WellFormed)
    (hid : b.bundleIdentity N = .ok id) (hv : id.toCbor = .ok v) : v.Distinct := by
  obtain ⟨frag, _, rfl⟩ := bundleIdentity_ok N hid
  obtain ⟨time, seq, fs, h1, h2, h3, rfl⟩ := Identity.toCbor_ok hv
  obtain ⟨item, hitem, h10, h11⟩ := hb.created
  have hfs : ∀ x ∈ fs, x.Distinct := by
    unfold Identity.fragmentCbor at h3
    split at h3
    · cases h3; simp
    · rename_i o t heq
      obtain ⟨o', ho, h3⟩ := Outcome.bind_eq_ok.mp h3
      obtain ⟨t', ht, h3⟩ := Outcome.bind_eq_ok.mp h3
      cases h3
      simp only at heq
      split at heq
      · cases heq
      · simp only [Option.some.injEq, Prod.mk.injEq] at heq
        have field : ∀ {v : JsVal} {x : Cbor}, (∀ w, v = some w → w.Distinct) →
            (Slot.ofJsVal v).toCbor = .ok x → x.Distinct := by
          intro v x hv hx
          cases v with
          | none => cases hx
          | some w => cases hx; exact hv _ rfl
        intro x hx
        simp only [List.mem_cons, List.not_mem_nil, or_false] at hx
        rcases hx with rfl | rfl
        · exact field (heq.1 ▸ hb.fragmentOffset) ho
        · exact field (heq.2 ▸ hb.totalAduLength) ht
  refine .array fun x hx => ?_
  rcases List.mem_cons.mp hx with rfl | hx
  · exact .text _
  · rcases List.mem_cons.mp hx with rfl | hx
    · refine .array fun x hx => ?_
      simp only [List.mem_cons, List.not_mem_nil, or_false] at hx
      rcases hx with rfl | rfl
      · exact Cbor.index_distinct hitem h10 h1
      · exact Cbor.index_distinct hitem h11 h2
    · exact hfs x hx

end Bundle

end DtnCustody
