/-
# DtnCustody.Json.Look — values up to the order of keys.

Two values are the same JSON value when the same is found in both at every place. A place is a path
of keys and indices (`look`). Copying a value with its keys sorted changes nothing that is found,
except along paths through a key `__proto__` (`look_copied`). `written_inj` says that the text of a
value determines it, as far as numbers can be read back from their text.
-/
import DtnCustody.Json.KeyOrder

namespace DtnCustody

open Base Js

namespace Json

/-! ## Paths -/

inductive Step where
  | key (k : JsString)
  | index (i : Nat)
  deriving DecidableEq

/-- What is at a place, without what is below it. -/
inductive Shape where
  | null
  | bool (b : Bool)
  | num (x : JsNum)
  | str (s : JsString)
  | arr (length : Nat)
  | obj
  deriving DecidableEq

def shape : Json → Shape
  | .null => .null
  | .bool b => .bool b
  | .num x => .num x
  | .str s => .str s
  | .arr xs => .arr xs.length
  | .obj _ => .obj

/-- The value of a property. -/
def property (fields : List (JsString × Json)) (k : JsString) : Option Json :=
  (fields.find? fun p => p.1 = k).map Prod.snd

def child : Json → Step → Option Json
  | .arr xs, .index i => xs[i]?
  | .obj fields, .key k => property fields k
  | _, _ => none

/-- What is found along a path. -/
def look (v : Json) : List Step → Option Shape
  | [] => some v.shape
  | s :: path => (v.child s).bind fun u => u.look path

def proto : Step := .key (js "__proto__")

theorem property_eq_some_iff {fields : List (JsString × Json)} (hkeys : DistinctKeys fields)
    {k : JsString} {v : Json} : property fields k = some v ↔ (k, v) ∈ fields := by
  unfold property
  constructor
  · intro h
    obtain ⟨⟨k', v'⟩, hfind, rfl⟩ := Option.map_eq_some_iff.mp h
    have hk : k' = k := by simpa using List.find?_some hfind
    exact hk ▸ List.mem_of_find?_eq_some hfind
  · intro h
    induction fields with
    | nil => cases h
    | cons p fields ih =>
        rw [DistinctKeys, List.map_cons, List.nodup_cons] at hkeys
        rcases List.mem_cons.mp h with rfl | h
        · rw [List.find?_cons_of_pos (by simp)]
          rfl
        · have hne : p.1 ≠ k := by
            rintro rfl
            exact hkeys.1 (List.mem_map.mpr ⟨_, h, rfl⟩)
          rw [List.find?_cons_of_neg (by simpa using hne)]
          exact ih hkeys.2 h

/-- Properties that are the same apart from their order, and from `__proto__`. -/
theorem property_assign {fields : List (JsString × Json)} (hkeys : DistinctKeys fields)
    {k : JsString} (hk : k ≠ js "__proto__") : property (assign fields) k = property fields k := by
  have hassign : DistinctKeys (assign fields) := by
    unfold DistinctKeys assign
    rw [((ownOrder_perm _).map Prod.fst).nodup_iff]
    exact hkeys.sublist ((List.filter_sublist).map _)
  refine Option.ext fun v => ?_
  rw [property_eq_some_iff hassign, property_eq_some_iff hkeys, assign,
    (ownOrder_perm _).mem_iff, List.mem_filter]
  simp [hk]

theorem property_sortFields {fields : List (JsString × Json)} (hkeys : DistinctKeys fields)
    {k : JsString} : property (sortFields fields) k = property fields k := by
  have hsort : DistinctKeys (sortFields fields) := ((sortFields_perm fields).map _).nodup_iff.mpr hkeys
  refine Option.ext fun v => ?_
  rw [property_eq_some_iff hsort, property_eq_some_iff hkeys, (sortFields_perm fields).mem_iff]

theorem property_map (g : Json → Json) (fields : List (JsString × Json)) (k : JsString) :
    property (fields.map fun p => (p.1, g p.2)) k = (property fields k).map g := by
  unfold property
  rw [List.find?_map, Option.map_map, Option.map_map]
  rfl

theorem distinctKeys_map {fields : List (JsString × Json)} (g : Json → Json)
    (h : DistinctKeys fields) : DistinctKeys (fields.map fun p => (p.1, g p.2)) := by
  rw [DistinctKeys, List.map_map]
  exact h

variable {N : Node}

theorem shape_copied (v : Json) : (copied v).shape = v.shape := by
  cases v with
  | arr xs =>
      rw [copied, mapObjects, mapAll_eq_map, shape, shape, List.length_map]
  | _ => rfl

theorem child_copied {v : Json} (hkeys : ∀ fields, v = .obj fields → DistinctKeys fields) {s : Step}
    (hs : s ≠ proto) : (copied v).child s = (v.child s).map copied := by
  cases v with
  | arr xs =>
      rw [copied, mapObjects, mapAll_eq_map]
      cases s with
      | index i => exact List.getElem?_map
      | key k => rfl
  | obj fields =>
      have hdistinct := hkeys fields rfl
      rw [copied, mapObjects, mapFields_eq_map, sortFields_map]
      cases s with
      | index i => rfl
      | key k =>
          have hk : k ≠ js "__proto__" := fun h => hs (congrArg Step.key h)
          have hsort : DistinctKeys (sortFields fields) :=
            ((sortFields_perm fields).map _).nodup_iff.mpr hdistinct
          show property _ k = (property fields k).map copied
          rw [property_assign (distinctKeys_map _ hsort) hk, property_map,
            property_sortFields hdistinct]
          rfl
  | _ => cases s <;> rfl

theorem within_of_child {v u : Json} {s : Step} (h : v.child s = some u) :
    ∀ x ∈ u.within, x ∈ v.within := by
  intro x hx
  cases v with
  | arr xs =>
      cases s with
      | index i => exact mem_within_arr (List.mem_of_getElem? h) hx
      | key k => cases h
  | obj fields =>
      cases s with
      | index i => cases h
      | key k =>
          obtain ⟨p, hp, rfl⟩ := Option.map_eq_some_iff.mp h
          exact mem_within_obj (List.mem_of_find?_eq_some hp) hx
  | _ => cases s <;> cases h

/-- **A copy shows what the value shows**, except through `__proto__`. -/
theorem look_copied {path : List Step} (hpath : proto ∉ path) :
    ∀ {v : Json}, (∀ fields, .obj fields ∈ v.within → DistinctKeys fields) →
      (copied v).look path = v.look path := by
  induction path with
  | nil =>
      intro v _
      rw [look, look, shape_copied]
  | cons s path ih =>
      intro v hkeys
      rw [List.mem_cons, not_or] at hpath
      have hchild := child_copied (fun fields hv => hkeys fields (hv ▸ mem_within_self v))
        (Ne.symm hpath.1)
      rw [look, look, hchild]
      cases hu : v.child s with
      | none => rfl
      | some u =>
          exact ih hpath.2 fun fields hf => hkeys fields (within_of_child hu _ hf)

/-! ## A text determines its value -/

/-- What numbers look like: a digit or a minus sign comes first. -/
def IsNumberText (s : JsString) : Prop :=
  JsonText.IsWord s ∧ ∀ u ∈ s.head?, u = 45 ∨ (48 ≤ u.toNat ∧ u.toNat ≤ 57)

instance (s : JsString) : Decidable (IsNumberText s) :=
  decidable_of_iff (JsonText.IsWord s ∧
    s.head?.all (fun u => decide (u = 45 ∨ (48 ≤ u.toNat ∧ u.toNat ≤ 57))) = true)
    (by simp [IsNumberText, Option.all_eq_true])

variable (N) in
/-- Every number in the value is finite, and is what its text is read as. -/
def NumbersReadBack (v : Json) : Prop :=
  ∀ x, .num x ∈ v.within → ∃ q, x = .fin q ∧ IsNumberText (Prim.numToString N x) ∧
    N.stringToNumber (Prim.numToString N x) = x

theorem NumbersReadBack.print {v : Json} (h : NumbersReadBack N v) : NumbersPrint N v := by
  intro q hq
  obtain ⟨_, _, htext, _⟩ := h _ hq
  exact htext.1

theorem IsNumberText.ne_literal {s : JsString} (h : IsNumberText s) :
    s ≠ js "null" ∧ s ≠ js "true" ∧ s ≠ js "false" := by
  refine ⟨?_, ?_, ?_⟩
  all_goals
    rintro rfl
    exact absurd (h.2 _ rfl) (by decide)

theorem eq_of_map_eq {α β : Type} {f : α → β} {xs ys : List α}
    (hinj : ∀ x ∈ xs, ∀ y ∈ ys, f x = f y → x = y) (h : xs.map f = ys.map f) : xs = ys := by
  induction xs generalizing ys with
  | nil => exact (List.map_eq_nil_iff.mp h.symm).symm
  | cons x xs ih =>
      cases ys with
      | nil => cases h
      | cons y ys =>
          obtain ⟨hxy, hrest⟩ := List.cons.inj h
          rw [hinj x List.mem_cons_self y List.mem_cons_self hxy, ih (fun a ha b hb =>
            hinj a (List.mem_cons_of_mem _ ha) b (List.mem_cons_of_mem _ hb)) hrest]

/-- **One text, one value.** -/
theorem written_inj (v : Json) :
    NumbersReadBack N v → ∀ {w : Json}, NumbersReadBack N w → written N v = written N w → v = w := by
  have hnum : ∀ {x : JsNum}, NumbersReadBack N (.num x) → ∃ s, IsNumberText s ∧
      written N (.num x) = .word s ∧ N.stringToNumber s = x := by
    intro x h
    obtain ⟨q, rfl, htext, hread⟩ := h x (mem_within_self _)
    refine ⟨_, htext, ?_, hread⟩
    rw [written]
    all_goals simp
  induction v using induct with
  | null =>
      intro _ w hw h
      cases w with
      | null => rfl
      | bool b => cases b <;> exact absurd h (by simp [written, js_inj])
      | num x =>
          obtain ⟨s, hs, hx, _⟩ := hnum hw
          rw [hx, written, JsonText.word.injEq] at h
          exact absurd h.symm hs.ne_literal.1
      | _ => cases h
  | bool b =>
      intro _ w hw h
      cases w with
      | null => cases b <;> exact absurd h (by simp [written, js_inj])
      | bool c => cases b <;> cases c <;> first | rfl | exact absurd h (by simp [written, js_inj])
      | num x =>
          obtain ⟨s, hs, hx, _⟩ := hnum hw
          rw [hx, written, JsonText.word.injEq] at h
          cases b
          · exact absurd h.symm hs.ne_literal.2.2
          · exact absurd h.symm hs.ne_literal.2.1
      | _ => cases h
  | num x =>
      intro hv w hw h
      obtain ⟨s, hs, hx, hread⟩ := hnum hv
      rw [hx] at h
      cases w with
      | null =>
          rw [written, JsonText.word.injEq] at h
          exact absurd h hs.ne_literal.1
      | bool c =>
          rw [written, JsonText.word.injEq] at h
          cases c
          · exact absurd h hs.ne_literal.2.2
          · exact absurd h hs.ne_literal.2.1
      | num y =>
          obtain ⟨s', _, hy, hread'⟩ := hnum hw
          rw [hy, JsonText.word.injEq] at h
          rw [← hread, ← hread', h]
      | _ => cases h
  | str s =>
      intro _ w hw h
      cases w with
      | str t =>
          rw [written, written, JsonText.str.injEq] at h
          rw [h]
      | num y =>
          obtain ⟨s', _, hy, _⟩ := hnum hw
          rw [hy] at h
          cases h
      | _ => cases h
  | arr xs ih =>
      intro hv w hw h
      cases w with
      | arr ys =>
          rw [written, written, JsonText.arr.injEq, writtenAll_eq_map, writtenAll_eq_map] at h
          refine congrArg arr (eq_of_map_eq (fun x hx y hy hxy => ?_) h)
          exact ih x hx (fun z hz => hv z (mem_within_arr hx hz))
            (fun z hz => hw z (mem_within_arr hy hz)) hxy
      | num y =>
          obtain ⟨s', _, hy, _⟩ := hnum hw
          rw [hy] at h
          cases h
      | _ => cases h
  | obj fields ih =>
      intro hv w hw h
      cases w with
      | obj fields' =>
          rw [written, written, JsonText.obj.injEq, writtenFields_eq_map, writtenFields_eq_map] at h
          refine congrArg obj (eq_of_map_eq (fun p hp q hq hpq => ?_) h)
          have hval := ih p hp (fun z hz => hv z (mem_within_obj hp hz))
            (fun z hz => hw z (mem_within_obj hq hz)) (Prod.mk.inj hpq).2
          exact Prod.ext (Prod.mk.inj hpq).1 hval
      | num y =>
          obtain ⟨s', _, hy, _⟩ := hnum hw
          rw [hy] at h
          cases h
      | _ => cases h

end Json

end DtnCustody
