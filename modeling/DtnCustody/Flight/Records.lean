/-
# DtnCustody.Flight.Records — the library on board writes what the reference implementation writes.

On both sides a record comes down to its fields in one order: the writer on board has them in that order,
and the reference sorts its keys into it. So the two texts are compared field by field (`SameField`). The
batch differs in how it gets there: sorted and stripped of repeats in place against a set that is sorted,
and a tree folded in place against a tree kept in layers.
-/
import DtnCustody.Agent.Batch
import DtnCustody.Flight.Custody

namespace DtnCustody

open Base Js

namespace Flight

/-! ## The writer -/

theorem put_ok {w : W} {s : Bytes} (h : (w.put s).err = none) :
    w.err = none ∧ (w.put s).text = w.text ++ s := by
  unfold W.put at h ⊢
  split at h
  · next hsome =>
    rw [h] at hsome
    cases hsome
  · next hnone =>
    rw [Bool.not_eq_true, Option.isSome_eq_false_iff, Option.isNone_iff_eq_none] at hnone
    split at h
    · cases h
    · next hroom =>
      rw [if_neg (by rw [hnone]; exact Bool.false_ne_true), if_neg hroom]
      exact ⟨hnone, rfl⟩

/-- What a field is written as, after the quote that opens it. -/
def Field.body : Field → Bytes
  | .str k v => lit k ++ (lit "\":\"" ++ (v.getD [] ++ lit "\""))
  | .num k v => lit k ++ (lit "\":" ++ decimal v)
  | .chunkSize v => lit "meta\":" ++ metaText v

/-- The writer takes the value. -/
def Field.Accepted : Field → Prop
  | .str _ v => ∃ s, v = some s ∧ safe s = true
  | .num _ v => v ≤ 9007199254740991
  | .chunkSize _ => True

theorem field_ok {w : W} {first : Bool} {f : Field} (h : (w.field first f).err = none) :
    w.err = none ∧ f.Accepted ∧ (w.field first f).text = w.text ++ (opening first ++ f.body) := by
  cases f with
  | str k v =>
      unfold W.field W.kstr at h ⊢
      cases v with
      | none => cases h
      | some s =>
          dsimp only at h ⊢
          split at h
          · next hsafe =>
            rw [if_pos hsafe]
            obtain ⟨h, hend⟩ := put_ok h
            obtain ⟨h, hvalue⟩ := put_ok h
            obtain ⟨h, hcolon⟩ := put_ok h
            obtain ⟨h, hkey⟩ := put_ok h
            obtain ⟨h, hopen⟩ := put_ok h
            refine ⟨h, ⟨s, rfl, hsafe⟩, ?_⟩
            rw [hend, hvalue, hcolon, hkey, hopen, Field.body, Option.getD_some]
            simp only [List.append_assoc]
          · cases h
  | num k v =>
      unfold W.field W.knum at h ⊢
      dsimp only at h ⊢
      split at h
      · cases h
      · next hfits =>
        rw [if_neg hfits]
        obtain ⟨h, hvalue⟩ := put_ok h
        obtain ⟨h, hcolon⟩ := put_ok h
        obtain ⟨h, hkey⟩ := put_ok h
        obtain ⟨h, hopen⟩ := put_ok h
        refine ⟨h, Nat.le_of_not_lt hfits, ?_⟩
        rw [hvalue, hcolon, hkey, hopen, Field.body]
        simp only [List.append_assoc]
  | chunkSize v =>
      unfold W.field at h ⊢
      obtain ⟨h, hvalue⟩ := put_ok h
      obtain ⟨h, hkey⟩ := put_ok h
      refine ⟨h, trivial, ?_⟩
      rw [hvalue, hkey, Field.body]
      simp only [List.append_assoc]

/-- The fields between the braces. -/
def fieldsText : (first : Bool) → List Field → Bytes
  | _, [] => []
  | first, f :: rest => opening first ++ (f.body ++ fieldsText false rest)

theorem fields_ok {fs : List Field} : ∀ {w : W} {first : Bool}, (w.fields first fs).err = none →
    w.err = none ∧ (∀ f ∈ fs, f.Accepted) ∧
      (w.fields first fs).text = w.text ++ fieldsText first fs := by
  induction fs with
  | nil => exact fun h => ⟨h, fun _ hf => absurd hf List.not_mem_nil, (List.append_nil _).symm⟩
  | cons f rest ih =>
      intro w first h
      obtain ⟨hf, hrest, htext⟩ := ih h
      obtain ⟨hw, haccepted, hfield⟩ := field_ok hf
      refine ⟨hw, List.forall_mem_cons.mpr ⟨haccepted, hrest⟩, ?_⟩
      rw [W.fields, htext, hfield, fieldsText]
      simp only [List.append_assoc]

/-- **A record that is written** has every value accepted, and is its fields between braces. -/
theorem writeRecord_ok {cap : Nat} {fs : List Field} {out : Bytes} (h : writeRecord cap fs = .ok out) :
    (∀ f ∈ fs, f.Accepted) ∧ out = lit "\x7b" ++ (fieldsText true fs ++ lit "\x7d") := by
  unfold writeRecord at h
  dsimp only at h
  split at h
  · cases h
  · next hnone =>
    cases h
    obtain ⟨h, hclose⟩ := put_ok hnone
    obtain ⟨h, haccepted, hfields⟩ := fields_ok h
    obtain ⟨-, hopen⟩ := put_ok h
    refine ⟨haccepted, ?_⟩
    rw [hclose, hfields, hopen]
    simp only [List.append_assoc, List.nil_append]

/-! ## The reference -/

/-- Text that is written between quotes as it is. -/
def IsPlain (s : JsString) : Prop :=
  ∀ u ∈ s, 0x20 ≤ u.toNat ∧ u.toNat ≤ 0x7e ∧ u ≠ 0x22 ∧ u ≠ 0x5c

instance IsPlain.decidable (s : JsString) : Decidable (IsPlain s) :=
  List.decidableBAll
    (fun u : UInt16 => 0x20 ≤ u.toNat ∧ u.toNat ≤ 0x7e ∧ u ≠ 0x22 ∧ u ≠ 0x5c) s

theorem IsPlain.isAscii {s : JsString} (h : IsPlain s) : IsAscii s := by
  intro u hu
  have hle := (h u hu).2.1
  omega

theorem quoteUnit_plain {u : UInt16} (h : 0x20 ≤ u.toNat ∧ u.toNat ≤ 0x7e ∧ u ≠ 0x22 ∧ u ≠ 0x5c) :
    Json.quoteUnit u = [u] := by
  obtain ⟨hlow, hhigh, hquote, hslash⟩ := h
  have hne : ∀ {v : UInt16}, v.toNat < 0x20 → u ≠ v := by
    rintro v hv rfl
    omega
  have hhi : isHighSurrogate u = false := by
    simp only [isHighSurrogate, Bool.and_eq_false_iff, decide_eq_false_iff_not]
    left
    omega
  have hlo : isLowSurrogate u = false := by
    simp only [isLowSurrogate, Bool.and_eq_false_iff, decide_eq_false_iff_not]
    left
    omega
  have hctl : ¬ u < 0x20 := by
    rw [UInt16.lt_iff_toNat_lt]
    exact Nat.not_lt.mpr hlow
  unfold Json.quoteUnit
  rw [if_neg hquote, if_neg hslash, if_neg (hne (by decide)), if_neg (hne (by decide)),
    if_neg (hne (by decide)), if_neg (hne (by decide)), if_neg (hne (by decide)), if_neg]
  simp only [hctl, hhi, hlo, decide_false, Bool.or_false, Bool.false_eq_true, not_false_eq_true]

theorem quote_plain {s : JsString} (h : IsPlain s) : Json.quote s = 0x22 :: s ++ [0x22] := by
  have hunits : Json.quoteUnits s = s := by
    induction s with
    | nil => rfl
    | cons u rest ih =>
        have hu := h u List.mem_cons_self
        have hrest := ih fun v hv => h v (List.mem_cons_of_mem u hv)
        cases rest with
        | nil => exact quoteUnit_plain hu
        | cons v rest =>
            have hhi : isHighSurrogate u = false := by
              simp only [isHighSurrogate, Bool.and_eq_false_iff, decide_eq_false_iff_not]
              left
              omega
            rw [Json.quoteUnits, hhi, Bool.false_and, if_neg Bool.false_ne_true, hrest,
              quoteUnit_plain hu]
            rfl
  rw [Json.quote, hunits]

/-- What the reference has for a string on board. -/
abbrev textOf (s : Bytes) : JsString := ofUtf8 s

theorem safe_iff {s : Bytes} : safe s = true ↔
    ∀ x ∈ s, 0x20 ≤ x.toNat ∧ x.toNat ≤ 0x7e ∧ x ≠ 0x22 ∧ x ≠ 0x5c := by
  simp only [safe, List.all_eq_true, Bool.and_eq_true, decide_eq_true_eq, bne_iff_ne, and_assoc]

theorem textOf_safe {s : Bytes} (h : safe s = true) : textOf s = unitsOf s := by
  apply ofUtf8_unitsOf
  intro x hx
  have hle := (safe_iff.mp h x hx).2.1
  omega

theorem isPlain_safe {s : Bytes} (h : safe s = true) : IsPlain (unitsOf s) := by
  intro u hu
  obtain ⟨x, hx, rfl⟩ := List.mem_map.mp hu
  obtain ⟨hlow, hhigh, hquote, hslash⟩ := safe_iff.mp h x hx
  refine ⟨hlow, hhigh, fun heq => hquote ?_, fun heq => hslash ?_⟩
  · exact UInt8.toNat_inj.mp (congrArg UInt16.toNat heq)
  · exact UInt8.toNat_inj.mp (congrArg UInt16.toNat heq)

variable (N : Node)

/-- One field, on board and in the reference. -/
def SameField (f : Field) (p : JsString × Json) : Prop :=
  IsAscii (Json.stringifyField N p) ∧ bytesOf (Json.stringifyField N p) = lit "\"" ++ f.body

variable {N}

theorem isAscii_field {k : String} (hk : IsPlain (js k)) {value : JsString} (hvalue : IsAscii value) :
    IsAscii ((0x22 :: js k ++ [0x22]) ++ js ":" ++ value) := by
  have hquote : IsAscii [0x22] := by decide
  have hcolon : IsAscii (js ":") := by decide
  exact isAscii_append (isAscii_append (isAscii_append (isAscii_append hquote hk.isAscii) hquote) hcolon) hvalue

theorem sameField_str {k : String} {s : Bytes} (hk : IsPlain (js k)) (hs : safe s = true) :
    SameField N (.str k (some s)) (js k, .str (textOf s)) := by
  have hplain := isPlain_safe hs
  have htext : Json.stringifyField N (js k, .str (textOf s)) =
      (0x22 :: js k ++ [0x22]) ++ js ":" ++ (0x22 :: unitsOf s ++ [0x22]) := by
    rw [Json.stringifyField, Json.stringify, textOf_safe hs, quote_plain hk, quote_plain hplain]
  rw [SameField, htext]
  refine ⟨?_, ?_⟩
  · have hquote : IsAscii [0x22] := by decide
    exact isAscii_field hk (isAscii_append (isAscii_append hquote hplain.isAscii) hquote)
  · rw [Field.body, Option.getD_some]
    show bytesOf (([0x22] ++ js k ++ [0x22]) ++ js ":" ++ ([0x22] ++ unitsOf s ++ [0x22])) = _
    simp only [bytesOf_append, bytesOf_unitsOf, List.append_assoc]
    rfl

theorem isAscii_decimal (v : Nat) : IsAscii (js (toString v)) := by
  intro u hu
  obtain ⟨c, hc, hmem⟩ := List.mem_flatMap.mp hu
  have hdigit : c ∈ Nat.toDigits 10 v := by
    have hlist : (toString v).toList = Nat.toDigits 10 v := Nat.toList_repr
    rwa [hlist] at hc
  have hrange := Json.toDigits_isDigit c hdigit
  rw [Char.isDigit, Bool.and_eq_true, decide_eq_true_eq, decide_eq_true_eq] at hrange
  have hle : c.toNat ≤ 57 := hrange.2
  rw [utf16Char, if_pos (by omega), List.mem_singleton] at hmem
  rw [hmem, UInt16.toNat_ofNat']
  omega

theorem stringify_nat {v : Nat} (hv : v ≤ 9007199254740991) :
    Json.stringify N (.int v) = js (toString v) := Json.numToString_int (by omega)

theorem sameField_num {k : String} {v : Nat} (hk : IsPlain (js k)) (hv : v ≤ 9007199254740991) :
    SameField N (.num k v) (js k, .int v) := by
  have htext : Json.stringifyField N (js k, .int v) =
      (0x22 :: js k ++ [0x22]) ++ js ":" ++ js (toString v) := by
    rw [Json.stringifyField, stringify_nat hv, quote_plain hk]
  rw [SameField, htext]
  refine ⟨?_, ?_⟩
  · exact isAscii_field hk (isAscii_decimal v)
  · show bytesOf (([0x22] ++ js k ++ [0x22]) ++ js ":" ++ js (toString v)) = _
    simp only [bytesOf_append, Field.body, List.append_assoc]
    rfl

/-- `meta`, which has the one field. -/
theorem sameField_meta {v : Nat} (hv : v ≤ 9007199254740991) :
    SameField N (.chunkSize v) (js "meta", .obj [(js "chunkSize", .int v)]) := by
  have hmeta : IsPlain (js "meta") := by decide
  have hsize : IsPlain (js "chunkSize") := by decide
  have htext : Json.stringifyField N (js "meta", .obj [(js "chunkSize", .int v)]) =
      js "\"meta\":\x7b\"chunkSize\":" ++ js (toString v) ++ js "\x7d" := by
    rw [Json.stringifyField, Json.stringify, Json.stringifyFields, Json.stringifyField, stringify_nat hv,
      quote_plain hmeta, quote_plain hsize]
    simp only [List.append_assoc]
    rfl
  rw [SameField, htext]
  refine ⟨?_, ?_⟩
  · have hfront : IsAscii (js "\"meta\":\x7b\"chunkSize\":") := by decide
    have hback : IsAscii (js "\x7d") := by decide
    exact isAscii_append (isAscii_append hfront (isAscii_decimal v)) hback
  · simp only [bytesOf_append, Field.body, metaText, List.append_assoc]
    rfl

theorem fieldsText_false {fs : List Field} (h : fs ≠ []) :
    fieldsText false fs = lit "," ++ fieldsText true fs := by
  cases fs with
  | nil => exact absurd rfl h
  | cons f rest =>
      rw [fieldsText, fieldsText, ← List.append_assoc]
      rfl

/-- **The fields of a record are the same, if each is.** -/
theorem sameFields {fs : List Field} {ps : List (JsString × Json)}
    (h : List.Forall₂ (SameField N) fs ps) : IsAscii (Json.stringifyFields N ps) ∧
      bytesOf (Json.stringifyFields N ps) = fieldsText true fs := by
  induction h with
  | nil => exact ⟨fun _ hu => absurd hu List.not_mem_nil, rfl⟩
  | @cons f p fs ps hfirst hrest ih =>
      cases hrest with
      | nil =>
          refine ⟨hfirst.1, ?_⟩
          rw [Json.stringifyFields, hfirst.2, fieldsText, fieldsText, List.append_nil]
          rfl
      | @cons g q fs ps hsecond hrest =>
          have hcomma : IsAscii (js ",") := by decide
          refine ⟨isAscii_append (isAscii_append hfirst.1 hcomma) ih.1, ?_⟩
          rw [Json.stringifyFields, bytesOf_append, bytesOf_append, hfirst.2, ih.2]
          show _ = opening true ++ (f.body ++ fieldsText false (g :: fs))
          rw [fieldsText_false (List.cons_ne_nil g fs)]
          simp only [List.append_assoc]
          rfl

/-- **A record on board is the text of the reference.** -/
theorem writeRecord_same {cap : Nat} {fs : List Field} {out : Bytes}
    (h : writeRecord cap fs = .ok out) {ps : List (JsString × Json)}
    (hsame : List.Forall₂ (SameField N) fs ps) : out = toUtf8 (Json.stringify N (.obj ps)) := by
  obtain ⟨hascii, hbytes⟩ := sameFields hsame
  have hopen : IsAscii (js "\x7b") := by decide
  have hclose : IsAscii (js "\x7d") := by decide
  rw [(writeRecord_ok h).2, Json.stringify,
    toUtf8_ascii (isAscii_append (isAscii_append hopen hascii) hclose), bytesOf_append, bytesOf_append,
    hbytes, List.append_assoc]
  rfl

end Flight

end DtnCustody
