/-
# DtnCustody.Json.Returns — which values have a content identifier, and which can be printed.

`sortKeysDeep` throws on a value that stands more than 32 levels deep, an empty array or object
included; so what counts is the level of the innermost value (`height`). `String(v)` throws on an
object with a property `toString` of its own, which `JSON.parse` never makes a function, and on an
array that leads to one.
-/
import DtnCustody.Js.Check
import DtnCustody.Json.KeyOrder

namespace DtnCustody

open Base Js

namespace Json

/-! ## Levels -/

mutual

/-- The level of the innermost value below `v`. -/
def height : Json → Nat
  | .arr xs => heightAll xs
  | .obj fields => heightFields fields
  | _ => 0

def heightAll : List Json → Nat
  | [] => 0
  | x :: xs => max (height x + 1) (heightAll xs)

def heightFields : List (JsString × Json) → Nat
  | [] => 0
  | p :: ps => max (heightField p + 1) (heightFields ps)

def heightField : JsString × Json → Nat
  | (_, v) => height v

end

theorem returns_sortAll {depth : Nat} {xs : List Json} (ih : ∀ x ∈ xs, ∀ {depth : Nat},
    Outcome.Returns (sortKeysDeep depth x) ↔ depth + height x ≤ maxDepth) (hdepth : depth ≤ maxDepth) :
    Outcome.Returns (sortAll (depth + 1) xs) ↔ depth + heightAll xs ≤ maxDepth := by
  induction xs with
  | nil => simp [sortAll, heightAll, hdepth]
  | cons x xs ihxs =>
      rw [List.forall_mem_cons] at ih
      rw [sortAll, Outcome.returns_bind, ih.1, heightAll]
      constructor
      · rintro ⟨hx, hxs⟩
        have hx' := ih.1.mpr hx
        obtain ⟨y, hy⟩ := hx'
        have hrest := (ihxs ih.2).mp (Outcome.returns_map.mp (hxs y hy))
        omega
      · intro h
        refine ⟨by omega, fun y _ => Outcome.returns_map.mpr ((ihxs ih.2).mpr (by omega))⟩

theorem returns_sortValues {depth : Nat} {fields : List (JsString × Json)}
    (ih : ∀ p ∈ fields, ∀ {depth : Nat},
      Outcome.Returns (sortKeysDeep depth p.2) ↔ depth + height p.2 ≤ maxDepth)
    (hdepth : depth ≤ maxDepth) :
    Outcome.Returns (sortValues (depth + 1) fields) ↔ depth + heightFields fields ≤ maxDepth := by
  induction fields with
  | nil => simp [sortValues, heightFields, hdepth]
  | cons p fields ihf =>
      obtain ⟨k, v⟩ := p
      rw [List.forall_mem_cons] at ih
      rw [sortValues, sortValue, Outcome.returns_bind, Outcome.returns_map, ih.1, heightFields,
        heightField]
      constructor
      · rintro ⟨hv, hrest⟩
        obtain ⟨w, hw⟩ := ih.1.mpr hv
        have hrest := (ihf ih.2).mp (Outcome.returns_map.mp (hrest (k, w) (by rw [hw]; rfl)))
        dsimp only at hv ⊢
        omega
      · intro h
        dsimp only at h ⊢
        refine ⟨by omega, fun y _ => Outcome.returns_map.mpr ((ihf ih.2).mpr (by omega))⟩

/-- **Sorting returns up to the limit.** -/
theorem returns_sortKeysDeep (v : Json) : ∀ {depth : Nat},
    Outcome.Returns (sortKeysDeep depth v) ↔ depth + height v ≤ maxDepth := by
  induction v using induct with
  | arr xs ih =>
      intro depth
      rw [sortKeysDeep, Outcome.returns_ite, Outcome.returns_map, height]
      constructor
      · rintro ⟨hdeep, hrest⟩
        by_cases h : maxDepth < depth
        · exact absurd (hdeep h) (Outcome.not_returns_error _)
        · exact (returns_sortAll ih (by omega)).mp (hrest h)
      · intro h
        refine ⟨fun hdeep => by omega, fun _ => (returns_sortAll ih (by omega)).mpr h⟩
  | obj fields ih =>
      intro depth
      rw [sortKeysDeep, Outcome.returns_ite, Outcome.returns_map, height]
      constructor
      · rintro ⟨hdeep, hrest⟩
        by_cases h : maxDepth < depth
        · exact absurd (hdeep h) (Outcome.not_returns_error _)
        · exact (returns_sortValues ih (by omega)).mp (hrest h)
      · intro h
        refine ⟨fun hdeep => by omega, fun _ => (returns_sortValues ih (by omega)).mpr h⟩
  | _ =>
      intro depth
      rw [sortKeysDeep, height]
      · by_cases h : maxDepth < depth
        · simp [h]
        · simp only [if_neg h, Outcome.returns_ok, true_iff]
          omega
      all_goals simp

/-- A value has a content identifier as long as its content is no deeper than the limit. -/
theorem returns_contentId {N : Node} (v : Json) :
    Outcome.Returns (v.contentId N) ↔ height v.pickContent ≤ maxDepth := by
  rw [contentId, Outcome.returns_map, canonicalize, Outcome.returns_map, returns_sortKeysDeep,
    Nat.zero_add]

theorem mem_of_mem_assign {fields : List (JsString × Json)} {p : JsString × Json}
    (h : p ∈ assign fields) : p ∈ fields := by
  rw [assign, (ownOrder_perm _).mem_iff] at h
  exact List.mem_of_mem_filter h

theorem heightFields_le {fields : List (JsString × Json)} {k : Nat}
    (h : ∀ p ∈ fields, height p.2 < k) : heightFields fields ≤ k := by
  induction fields with
  | nil => exact Nat.zero_le _
  | cons p fields ih =>
      obtain ⟨key, v⟩ := p
      rw [List.forall_mem_cons] at h
      rw [heightFields, heightField]
      exact max_le h.1 (ih h.2)

/-- An object of shallow properties has a content identifier. -/
theorem returns_contentId_obj {N : Node} {fields : List (JsString × Json)}
    (h : ∀ p ∈ fields, height p.2 < maxDepth) : Outcome.Returns ((obj fields).contentId N) := by
  rw [returns_contentId, pickContent, height]
  refine heightFields_le fun p hp => h p ?_
  exact List.mem_of_mem_filter (mem_of_mem_assign hp)

/-! ## Printing -/

mutual

/-- No object that printing comes to has a `toString` of its own. -/
def printable : Json → Bool
  | .arr xs => printableAll xs
  | .obj fields => !fields.any fun p => p.1 = js "toString"
  | _ => true

def printableAll : List Json → Bool
  | [] => true
  | x :: xs => printable x && printableAll xs

end

variable {N : Node}

theorem returns_joinStr {xs : List Json}
    (ih : ∀ x ∈ xs, Outcome.Returns (toStr N x) ↔ printable x = true) :
    Outcome.Returns (joinStr N xs) ↔ printableAll xs = true := by
  have hone : ∀ {x : Json}, (Outcome.Returns (toStr N x) ↔ printable x = true) →
      (Outcome.Returns (if x.isNull then .ok [] else toStr N x) ↔ printable x = true) := by
    intro x hx
    cases x with
    | null => simp [isNull, printable]
    | _ => exact hx
  induction xs with
  | nil => simp [joinStr, printableAll]
  | cons x xs ihxs =>
      rw [List.forall_mem_cons] at ih
      cases xs with
      | nil => simp only [joinStr, printableAll, Bool.and_true, hone ih.1]
      | cons y rest =>
          have hrest := ihxs ih.2
          have hstep : joinStr N (x :: y :: rest) = ((if x.isNull then .ok [] else toStr N x) >>=
              fun s => joinStr N (y :: rest) >>= fun t => pure (s ++ js "," ++ t)) := by
            rw [joinStr]
            split
            · rfl
            · rfl
          rw [hstep, Outcome.returns_bind, hone ih.1, printableAll, Bool.and_eq_true]
          constructor
          · rintro ⟨hx, hxs⟩
            obtain ⟨s, hs⟩ := (hone ih.1).mpr hx
            exact ⟨hx, hrest.mp (Outcome.returns_map.mp (hxs s hs))⟩
          · rintro ⟨hx, hxs⟩
            exact ⟨hx, fun s _ => Outcome.returns_map.mpr (hrest.mpr hxs)⟩

/-- **Printing returns exactly for what can be printed.** -/
theorem returns_toStr (v : Json) : Outcome.Returns (toStr N v) ↔ printable v = true := by
  induction v using induct with
  | arr xs ih =>
      rw [toStr, printable]
      exact returns_joinStr ih
  | obj fields ih =>
      rw [toStr, printable]
      cases hown : fields.any fun p => p.1 = js "toString" with
      | true => simp
      | false => simp
  | _ => simp [toStr, printable]

end Json

namespace JsonVal

/-- `undefined` prints as well. -/
def printable : JsonVal → Bool
  | none => true
  | some v => v.printable

theorem returns_toStr {N : Node} (v : JsonVal) :
    Outcome.Returns (toStr N v) ↔ printable v = true := by
  cases v with
  | none => simp [toStr, printable]
  | some v => exact Json.returns_toStr v

/-- A value becomes a primitive exactly when it can be printed. -/
theorem returns_toPrim {N : Node} (v : JsonVal) :
    Outcome.Returns (toPrim N v) ↔ printable v = true := by
  cases v with
  | none => exact ⟨fun _ => rfl, fun _ => Outcome.returns_ok _⟩
  | some v =>
      cases v with
      | arr xs =>
          show Outcome.Returns (Json.toStr N (.arr xs) >>= fun s => pure (Prim.str s)) ↔ _
          rw [Outcome.returns_map, Json.returns_toStr]
          rfl
      | obj fields =>
          show Outcome.Returns (Json.toStr N (.obj fields) >>= fun s => pure (Prim.str s)) ↔ _
          rw [Outcome.returns_map, Json.returns_toStr]
          rfl
      | _ => exact ⟨fun _ => rfl, fun _ => Outcome.returns_ok _⟩

/-- A property is read of everything but `null` and `undefined`. -/
theorem returns_get {v : JsonVal} {name : String} :
    Outcome.Returns (get v name) ↔ ∃ w, v = some w ∧ w ≠ .null := by
  cases v with
  | none => simp [get]
  | some v => cases v <;> simp [get]

end JsonVal

end DtnCustody
