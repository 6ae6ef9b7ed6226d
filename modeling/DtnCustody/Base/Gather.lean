/-
# DtnCustody.Base.Gather — the items of a list gathered by a key.

`gather` keeps a value for each key: the first item with the key makes it, and every item with the key, the first
too, goes into it. The value is that of the items with the key alone, in their order (`get?_gather`).
-/
import DtnCustody.Base.JsMap
import Mathlib.Algebra.BigOperators.Group.List.Basic

namespace DtnCustody.Base.Gather

section Gather

variable {α κ β : Type} [DecidableEq κ] (key : α → κ) (new : α → β) (put : β → α → β)

/-- One item more. -/
def add (m : JsMap κ β) (x : α) : JsMap κ β := m.set (key x) (put ((m.get? (key x)).getD (new x)) x)

def gather (xs : List α) : JsMap κ β := xs.foldl (add key new put) JsMap.empty

/-- The value of some items. -/
def value : List α → Option β
  | [] => none
  | x :: xs => some (xs.foldl put (put (new x) x))

variable {key new put}

theorem gather_append (xs : List α) (x : α) :
    gather key new put (xs ++ [x]) = add key new put (gather key new put xs) x := List.foldl_append

theorem value_append (xs : List α) (x : α) :
    value new put (xs ++ [x]) = some (put ((value new put xs).getD (new x)) x) := by
  cases xs with
  | nil => rfl
  | cons y xs =>
      rw [List.cons_append, value, List.foldl_append]
      rfl

/-- **The value of a key** is that of the items with the key. -/
theorem get?_gather (xs : List α) (k : κ) :
    (gather key new put xs).get? k = value new put (xs.filter fun x => key x = k) := by
  induction xs using List.reverseRecOn with
  | nil => rfl
  | append_singleton xs x ih =>
      rw [gather_append, add, List.filter_append]
      by_cases hk : k = key x
      · subst hk
        rw [JsMap.get?_set_self, ih, List.filter_singleton, decide_eq_true rfl]
        exact (value_append _ _).symm
      · rw [JsMap.get?_set_ne _ hk, ih, List.filter_singleton, decide_eq_false (Ne.symm hk)]
        exact congrArg (value new put) (List.append_nil _).symm

/-- A value is that of the first of its items and of the others. -/
theorem exists_of_get?_gather {xs : List α} {k : κ} {b : β} (h : (gather key new put xs).get? k = some b) :
    ∃ x rest, xs.filter (fun x => key x = k) = x :: rest ∧ rest.foldl put (put (new x) x) = b := by
  rw [get?_gather] at h
  cases hfilter : xs.filter fun x => key x = k with
  | nil =>
      rw [hfilter] at h
      cases h
  | cons x rest =>
      rw [hfilter] at h
      exact ⟨x, rest, rfl, Option.some.inj h⟩

/-- The key of an item has a value. -/
theorem get?_gather_isSome {xs : List α} {x : α} (hx : x ∈ xs) :
    ((gather key new put xs).get? (key x)).isSome = true := by
  have hmem : x ∈ xs.filter fun y => key y = key x := List.mem_filter.mpr ⟨hx, decide_eq_true rfl⟩
  rw [get?_gather]
  cases hfilter : xs.filter fun y => key y = key x with
  | nil =>
      rw [hfilter] at hmem
      cases hmem
  | cons y rest => rfl

end Gather

/-! ## Lists of items -/

section Lists

variable {α κ β : Type} [DecidableEq κ] {key : α → κ} {f : α → β}

theorem foldl_push (front : List β) (xs : List α) :
    xs.foldl (fun bs x => bs ++ [f x]) front = front ++ xs.map f := by
  induction xs generalizing front with
  | nil => exact (List.append_nil front).symm
  | cons x xs ih =>
      rw [List.foldl_cons, ih, List.append_assoc, List.map_cons]
      rfl

/-- The list of a key. -/
theorem value_push (xs : List α) : (value (fun _ => []) (fun bs x => bs ++ [f x]) xs).getD [] = xs.map f := by
  cases xs with
  | nil => rfl
  | cons x xs => exact foldl_push [f x] xs

/-- **Gathered lists have the items**, each under its key. -/
theorem mem_gather_push {xs : List α} {k : κ} {b : β} :
    (∃ bs, (gather key (fun _ => []) (fun bs x => bs ++ [f x]) xs).get? k = some bs ∧ b ∈ bs) ↔
      ∃ x ∈ xs, key x = k ∧ f x = b := by
  constructor
  · rintro ⟨bs, hbs, hb⟩
    obtain ⟨x, rest, hfilter, rfl⟩ := exists_of_get?_gather hbs
    rw [foldl_push, List.nil_append, List.singleton_append, ← List.map_cons, ← hfilter] at hb
    obtain ⟨y, hy, rfl⟩ := List.mem_map.mp hb
    obtain ⟨hmem, hkey⟩ := List.mem_filter.mp hy
    exact ⟨y, hmem, of_decide_eq_true hkey, rfl⟩
  · rintro ⟨x, hx, rfl, rfl⟩
    obtain ⟨bs, hbs⟩ := Option.isSome_iff_exists.mp
      (@get?_gather_isSome α κ (List β) _ key (fun _ => []) (fun bs x => bs ++ [f x]) xs x hx)
    refine ⟨bs, hbs, ?_⟩
    obtain ⟨y, rest, hfilter, rfl⟩ := exists_of_get?_gather hbs
    rw [foldl_push, List.nil_append, List.singleton_append, ← List.map_cons, ← hfilter]
    exact List.mem_map_of_mem (List.mem_filter.mpr ⟨hx, decide_eq_true rfl⟩)

/-- What is in one of two lists that match has its match in the other. -/
theorem mem_of_forall₂ {R : α → β → Prop} {as : List α} {bs : List β} (h : List.Forall₂ R as bs) :
    ∀ a ∈ as, ∃ b ∈ bs, R a b := by
  induction h with
  | nil => exact fun a ha => absurd ha List.not_mem_nil
  | cons hab _ ih =>
      rw [List.forall_mem_cons]
      refine ⟨⟨_, List.mem_cons_self, hab⟩, fun a ha => ?_⟩
      obtain ⟨b, hb, hr⟩ := ih a ha
      exact ⟨b, List.mem_cons_of_mem _ hb, hr⟩

/-- No item is lost or doubled. -/
theorem length_gather_push (xs : List α) :
    (gather key (fun _ => []) (fun bs x => bs ++ [f x]) xs).total (fun bs => (bs.length : Int)) = xs.length := by
  induction xs using List.reverseRecOn with
  | nil => rfl
  | append_singleton xs x ih =>
      rw [gather_append, add, JsMap.total_set, ih, List.length_append, List.length_append]
      cases (gather key (fun _ => []) (fun bs x => bs ++ [f x]) xs).get? (key x) with
      | none => simp
      | some bs =>
          simp only [Option.getD_some, Option.elim_some, List.length_singleton]
          omega

end Lists

end DtnCustody.Base.Gather
