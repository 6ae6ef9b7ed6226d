/-
# DtnCustody.Base.Greedy — links chosen one after another, where a vertex has room for some only.

Candidates are offered in a list. A candidate is taken unless one of its ends is full by then, which is asked of
the number of links it has (`offer`, `run`). Whatever the order: no vertex gets more links than it has room for
(`degree_run_le`), and of a candidate that was not taken an end is full at the end (`run_maximal`).

Offered first those of one kind and then all, a candidate of the kind is only left out where an end has filled up
with others of the kind (`run_preferred`).
-/
import Mathlib.Data.List.Basic
import Mathlib.Data.List.Nodup

namespace DtnCustody.Base.Greedy

variable {V : Type} [DecidableEq V]

/-- The other end of a link, if `v` is one. -/
def other (v : V) (e : V × V) : Option V :=
  if e.1 = v then some e.2 else if e.2 = v then some e.1 else none

/-- The vertices linked with `v`, in the order of the links. -/
def links (E : List (V × V)) (v : V) : List V := E.filterMap (other v)

def degree (E : List (V × V)) (v : V) : Nat := (links E v).length

variable (full : Nat → Bool)

/-- One candidate. -/
def offer (E : List (V × V)) (e : V × V) : List (V × V) :=
  if e ∈ E then E
  else if full (degree E e.1) || full (degree E e.2) then E
  else E ++ [e]

def run (E : List (V × V)) (xs : List (V × V)) : List (V × V) := xs.foldl (offer full) E

/-! ## Links -/

theorem links_append (E F : List (V × V)) (v : V) : links (E ++ F) v = links E v ++ links F v :=
  List.filterMap_append

theorem other_eq_some {v u : V} {e : V × V} (h : other v e = some u) : e = (v, u) ∨ e = (u, v) := by
  obtain ⟨a, b⟩ := e
  unfold other at h
  split at h
  · next ha =>
    cases h
    exact .inl (by rw [← ha])
  · split at h
    · next hb =>
      cases h
      exact .inr (by rw [← hb])
    · cases h

/-- A new link is one at each of its ends, and nowhere else. -/
theorem links_concat (E : List (V × V)) (e : V × V) (v : V) :
    links (E ++ [e]) v =
      links E v ++ if e.1 = v then [e.2] else if e.2 = v then [e.1] else [] := by
  rw [links_append]
  congr 1
  by_cases h1 : e.1 = v
  · simp [links, other, h1]
  · by_cases h2 : e.2 = v
    · simp [links, other, h1, h2]
    · simp [links, other, h1, h2]

theorem degree_concat (E : List (V × V)) (e : V × V) (v : V) :
    degree (E ++ [e]) v = degree E v + if e.1 = v ∨ e.2 = v then 1 else 0 := by
  unfold degree
  rw [links_concat, List.length_append]
  by_cases h1 : e.1 = v
  · rw [if_pos h1, if_pos (.inl h1)]
    rfl
  · by_cases h2 : e.2 = v
    · rw [if_neg h1, if_pos h2, if_pos (.inr h2)]
      rfl
    · rw [if_neg h1, if_neg h2, if_neg fun h => h.elim h1 h2]
      rfl

theorem mem_links {E : List (V × V)} {u v : V} : u ∈ links E v ↔ (v, u) ∈ E ∨ (u, v) ∈ E := by
  unfold links
  rw [List.mem_filterMap]
  constructor
  · rintro ⟨e, he, hother⟩
    rcases other_eq_some hother with rfl | rfl
    · exact .inl he
    · exact .inr he
  · rintro (he | he)
    · exact ⟨(v, u), he, if_pos rfl⟩
    · by_cases heq : u = v
      · subst heq
        exact ⟨(u, u), he, if_pos rfl⟩
      · exact ⟨(u, v), he, by rw [other, if_neg heq, if_pos rfl]⟩

/-- No vertex is linked with another twice, if no link is there twice, nor the other way round. -/
theorem nodup_links {E : List (V × V)} (hE : E.Nodup) (hreverse : ∀ e ∈ E, e.swap ∉ E) (v : V) :
    (links E v).Nodup := by
  refine List.pairwise_filterMap.mpr (List.Pairwise.imp_of_mem ?_ hE)
  rintro e f he hf hne u hu w hw rfl
  rcases other_eq_some hu with rfl | rfl
  · rcases other_eq_some hw with rfl | rfl
    · exact hne rfl
    · exact hreverse _ he hf
  · rcases other_eq_some hw with rfl | rfl
    · exact hreverse _ he hf
    · exact hne rfl

/-! ## A run -/

variable {full}

theorem prefix_offer (E : List (V × V)) (e : V × V) : E <+: offer full E e := by
  unfold offer
  split
  · exact List.prefix_rfl
  · split
    · exact List.prefix_rfl
    · exact List.prefix_append E [e]

theorem prefix_run (xs : List (V × V)) : ∀ E : List (V × V), E <+: run full E xs := by
  induction xs with
  | nil => exact fun E => List.prefix_rfl
  | cons e xs ih => exact fun E => (prefix_offer E e).trans (ih _)

theorem degree_mono {E F : List (V × V)} (h : E <+: F) (v : V) : degree E v ≤ degree F v := by
  obtain ⟨G, rfl⟩ := h
  unfold degree
  rw [links_append, List.length_append]
  exact Nat.le_add_right _ _

/-- What is linked was so before, or was offered. -/
theorem mem_of_mem_run {xs : List (V × V)} : ∀ {E : List (V × V)} {e : V × V}, e ∈ run full E xs →
    e ∈ E ∨ e ∈ xs := by
  induction xs with
  | nil => exact fun h => .inl h
  | cons x xs ih =>
      intro E e h
      rcases ih h with hoffer | hxs
      · unfold offer at hoffer
        split at hoffer
        · exact .inl hoffer
        · split at hoffer
          · exact .inl hoffer
          · rcases List.mem_append.mp hoffer with hE | hx
            · exact .inl hE
            · exact .inr (List.mem_singleton.mp hx ▸ List.mem_cons_self)
      · exact .inr (List.mem_cons_of_mem _ hxs)

theorem nodup_run {xs : List (V × V)} : ∀ {E : List (V × V)}, E.Nodup → (run full E xs).Nodup := by
  induction xs with
  | nil => exact fun h => h
  | cons x xs ih =>
      intro E hE
      refine ih ?_
      unfold offer
      split
      · exact hE
      · next hx =>
        split
        · exact hE
        · exact List.nodup_append.mpr ⟨hE, List.nodup_singleton x, fun a ha b hb hab =>
            hx (List.mem_singleton.mp hb ▸ hab ▸ ha)⟩

/-- **No vertex gets more links than it has room for.** -/
theorem degree_run_le {cap : Nat} (hcap : ∀ d, cap ≤ d → full d = true) {xs : List (V × V)} :
    ∀ {E : List (V × V)}, (∀ v, degree E v ≤ cap) → ∀ v, degree (run full E xs) v ≤ cap := by
  induction xs with
  | nil => exact fun h => h
  | cons x xs ih =>
      intro E hE
      refine ih fun v => ?_
      unfold offer
      split
      · exact hE v
      · split
        · exact hE v
        · next hroom =>
          rw [Bool.or_eq_true, not_or] at hroom
          rw [degree_concat]
          by_cases hend : x.1 = v ∨ x.2 = v
          · rw [if_pos hend]
            have hlt : degree E v < cap := by
              by_contra hle
              rcases hend with rfl | rfl
              · exact hroom.1 (hcap _ (Nat.le_of_not_lt hle))
              · exact hroom.2 (hcap _ (Nat.le_of_not_lt hle))
            omega
          · rw [if_neg hend]
            exact hE v

/-- **Of a candidate that was not taken an end is full.** -/
theorem run_maximal (hmono : ∀ d d', d ≤ d' → full d = true → full d' = true) {xs : List (V × V)} :
    ∀ {E : List (V × V)} {e : V × V}, e ∈ xs → e ∈ run full E xs ∨
      full (degree (run full E xs) e.1) = true ∨ full (degree (run full E xs) e.2) = true := by
  induction xs with
  | nil => exact fun he => absurd he List.not_mem_nil
  | cons x xs ih =>
      intro E e he
      rcases List.mem_cons.mp he with rfl | he
      · -- what was offered now stands or fell for an end that stays full
        have hkept : offer full E e <+: run full (offer full E e) xs := prefix_run xs _
        by_cases hmem : e ∈ offer full E e
        · exact .inl (hkept.subset hmem)
        · refine .inr ?_
          have hfull : full (degree E e.1) = true ∨ full (degree E e.2) = true := by
            by_contra hroom
            rw [not_or] at hroom
            refine hmem ?_
            unfold offer
            split
            · assumption
            · rw [if_neg (by simpa using hroom)]
              exact List.mem_append_right _ List.mem_cons_self
          have hle : ∀ v, degree E v ≤ degree (run full (offer full E e) xs) v := fun v =>
            degree_mono ((prefix_offer E e).trans hkept) v
          exact hfull.imp (hmono _ _ (hle _)) (hmono _ _ (hle _))
      · exact ih he

/-- **Candidates of a kind that come first** are only left out where an end has filled up with others of the
kind. -/
theorem run_preferred (hmono : ∀ d d', d ≤ d' → full d = true → full d' = true) {p : V × V → Bool}
    {xs : List (V × V)} {e : V × V} (he : e ∈ xs) (hp : p e = true)
    (hout : e ∉ run full (run full [] (xs.filter p)) xs) :
    full (degree ((run full (run full [] (xs.filter p)) xs).filter p) e.1) = true ∨
      full (degree ((run full (run full [] (xs.filter p)) xs).filter p) e.2) = true := by
  have hstart : run full [] (xs.filter p) <+: run full (run full [] (xs.filter p)) xs := prefix_run xs _
  have hfirst : ∀ f ∈ run full [] (xs.filter p), p f = true := by
    intro f hf
    rcases mem_of_mem_run hf with hf | hf
    · exact absurd hf List.not_mem_nil
    · exact (List.mem_filter.mp hf).2
  have hle : ∀ v, degree (run full [] (xs.filter p)) v ≤
      degree ((run full (run full [] (xs.filter p)) xs).filter p) v := by
    intro v
    obtain ⟨G, hG⟩ := hstart
    refine degree_mono ⟨G.filter p, ?_⟩ v
    rw [← hG, List.filter_append, List.filter_eq_self.mpr hfirst]
  rcases run_maximal hmono (E := []) (List.mem_filter.mpr ⟨he, hp⟩) with hmem | hfull
  · exact absurd (hstart.subset hmem) hout
  · exact hfull.imp (hmono _ _ (hle _)) (hmono _ _ (hle _))

end DtnCustody.Base.Greedy
