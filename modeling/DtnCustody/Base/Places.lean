/-
# DtnCustody.Base.Places — where the parts of a whole are.

A whole is written part after part. `Finds` says that looking at certain places of the parts gives
their values; it passes to a part between others (`Finds.within`) and to a row of parts (`Finds.row`).
Looking everywhere gives exactly the values of the places when there is nothing to see at any other
(`filterMap_range_eq_iff`).
-/
import Mathlib.Data.List.Nodup
import Mathlib.Data.List.Range
import Mathlib.Data.List.Sort

namespace DtnCustody.Base.Places

variable {α β γ : Type}

/-- The part is in the whole, from the position on. -/
def OccursAt (whole : List α) (start : Nat) (part : List α) : Prop :=
  ∃ rest, whole.drop start = part ++ rest

variable {whole : List α} {start : Nat}

theorem OccursAt.left {a b : List α} (h : OccursAt whole start (a ++ b)) : OccursAt whole start a := by
  obtain ⟨rest, hrest⟩ := h
  exact ⟨b ++ rest, by rw [hrest, List.append_assoc]⟩

theorem OccursAt.right {a b : List α} (h : OccursAt whole start (a ++ b)) :
    OccursAt whole (start + a.length) b := by
  obtain ⟨rest, hrest⟩ := h
  refine ⟨rest, ?_⟩
  rw [← List.drop_drop, hrest, List.append_assoc, List.drop_left]

theorem OccursAt.head {x : α} {part : List α} (h : OccursAt whole start (x :: part)) :
    whole[start]? = some x := by
  obtain ⟨rest, hrest⟩ := h
  rw [← List.head?_drop, hrest]
  rfl

theorem OccursAt.tail {x : α} {part : List α} (h : OccursAt whole start (x :: part)) :
    OccursAt whole (start + 1) part :=
  OccursAt.right (a := [x]) h

theorem OccursAt.length_le {part : List α} (h : OccursAt whole start part) :
    part.length ≤ whole.length := by
  obtain ⟨rest, hrest⟩ := h
  have hlen := congrArg List.length hrest
  rw [List.length_drop, List.length_append] at hlen
  omega

theorem occursAt_whole (whole : List α) : OccursAt whole 0 whole := ⟨[], by simp⟩

/-! ## Places of the parts -/

/-- **What is found at the places of a part are its values**, in order, and the places lie in it. -/
structure Finds (find : Nat → Option γ) (whole : List α) (code : β → List α)
    (places : Nat → β → List Nat) (values : β → List γ) : Prop where
  found : ∀ {start x}, OccursAt whole start (code x) → (places start x).map find = (values x).map some
  inside : ∀ {start x p}, p ∈ places start x → start ≤ p ∧ p < start + (code x).length
  sorted : ∀ {start x}, (places start x).Pairwise (· < ·)

variable {find : Nat → Option γ} {code : β → List α} {places : Nat → β → List Nat}
  {values : β → List γ}

/-- A part between two others. -/
theorem Finds.within {front back : β → List α} (h : Finds find whole code places values) :
    Finds find whole (fun x => front x ++ code x ++ back x)
      (fun start x => places (start + (front x).length) x) values := by
  refine ⟨fun hoccurs => h.found hoccurs.left.right, fun hp => ?_, h.sorted⟩
  have hin := h.inside hp
  rw [List.length_append, List.length_append]
  omega

/-- The places of parts that are in a row. -/
def placesInRow (code : β → List α) (places : Nat → β → List Nat) : Nat → List β → List Nat
  | _, [] => []
  | start, x :: xs => places start x ++ placesInRow code places (start + (code x).length) xs

theorem Finds.row (h : Finds find whole code places values) :
    Finds find whole (fun xs : List β => xs.flatMap code) (placesInRow code places)
      (fun xs => xs.flatMap values) := by
  have hinside : ∀ {xs : List β} {start p : Nat}, p ∈ placesInRow code places start xs →
      start ≤ p ∧ p < start + (xs.flatMap code).length := by
    intro xs
    induction xs with
    | nil => exact fun hp => (by cases hp)
    | cons x xs ih =>
        intro start p hp
        rw [List.flatMap_cons, List.length_append]
        rcases List.mem_append.mp hp with hp | hp
        · have hin := h.inside hp
          omega
        · have hin := ih hp
          omega
  refine ⟨?_, hinside, ?_⟩
  · intro start xs
    induction xs generalizing start with
    | nil => exact fun _ => rfl
    | cons x xs ih =>
        intro hoccurs
        have hoccurs : OccursAt whole start (code x ++ xs.flatMap code) := hoccurs
        rw [placesInRow, List.map_append, h.found hoccurs.left, ih hoccurs.right, List.flatMap_cons,
          List.map_append]
  · intro start xs
    induction xs generalizing start with
    | nil => exact List.Pairwise.nil
    | cons x xs ih =>
        rw [placesInRow, List.pairwise_append]
        refine ⟨h.sorted, ih, fun p hp q hq => ?_⟩
        have hfirst := h.inside hp
        have hrest := hinside hq
        omega

/-! ## Looking everywhere -/

/-- **Looking everywhere finds the values alone** when nothing else is there to be found. -/
theorem filterMap_range_eq_iff {places : List Nat} {values : List γ} {n : Nat}
    (hfound : places.map find = values.map some) (hsorted : places.Pairwise (· < ·))
    (hinside : ∀ p ∈ places, p < n) :
    (List.range n).filterMap find = values ↔ ∀ p, p < n → (find p).isSome = true → p ∈ places := by
  set seen := (List.range n).filter fun p => (find p).isSome with hseen
  have hmem : ∀ p, p ∈ seen ↔ p < n ∧ (find p).isSome = true := by
    intro p
    rw [hseen, List.mem_filter, List.mem_range]
  have hsome : ∀ p ∈ places, (find p).isSome = true := by
    intro p hp
    have hin : find p ∈ values.map some := hfound ▸ List.mem_map_of_mem hp
    obtain ⟨v, _, hv⟩ := List.mem_map.mp hin
    rw [← hv]
    rfl
  have hsubset : places ⊆ seen := fun p hp => (hmem p).mpr ⟨hinside p hp, hsome p hp⟩
  have hnodup : places.Nodup := hsorted.imp fun h => Nat.ne_of_lt h
  have hall : (List.range n).filterMap find = seen.filterMap find := by
    rw [hseen, List.filterMap_filter]
    apply List.filterMap_congr
    intro p _
    cases find p <;> rfl
  have hvalues : places.filterMap find = values := by
    have hid : places.filterMap find = (places.map find).filterMap id := by
      rw [List.filterMap_map]
      rfl
    rw [hid, hfound, List.filterMap_map]
    exact List.filterMap_some
  rw [hall]
  constructor
  · intro h p hp hfind
    -- as many places as there are values, so they are all that is seen
    have hlength : seen.length = places.length := by
      have hseenLength : (seen.filterMap find).length = seen.length := by
        rw [List.length_filterMap_eq_countP, List.countP_eq_length]
        exact fun p hp => ((hmem p).mp hp).2
      rw [← hseenLength, h, ← List.length_map (f := some), ← hfound, List.length_map]
    have hperm := (List.subperm_of_subset hnodup hsubset).perm_of_length_le (le_of_eq hlength)
    exact hperm.mem_iff.mpr ((hmem p).mpr ⟨hp, hfind⟩)
  · intro h
    have heq : seen = places := by
      apply List.Perm.eq_of_pairwise' (r := (· < ·)) _ hsorted
      · rw [List.perm_ext_iff_of_nodup (List.nodup_range.filter _) hnodup]
        exact fun p => ⟨fun hp => h p ((hmem p).mp hp).1 ((hmem p).mp hp).2, fun hp => hsubset hp⟩
      · exact List.pairwise_lt_range.filter _
    rw [heq, hvalues]

end DtnCustody.Base.Places
