/-
# DtnCustody.Base.JsMap — the insertion-ordered map of the language.

A `Map` is a list of entries with distinct keys, in the order the keys were first set. `set` on a
key that is there replaces the value where it stands; on a new key it appends. The distinctness of
keys is a field, so `get?` and membership say the same thing (`mem_entries_iff`).
-/
import Mathlib.Data.List.Nodup
import Mathlib.Data.List.Basic
import Mathlib.Data.List.Induction
import Mathlib.Data.List.Forall2
import Mathlib.Algebra.Order.BigOperators.Group.List
import Mathlib.Algebra.Order.Group.Int
import Mathlib.Algebra.Ring.Int.Defs

namespace DtnCustody.Base

structure JsMap (κ ν : Type) [DecidableEq κ] where
  entries : List (κ × ν)
  nodup : (entries.map Prod.fst).Nodup

namespace JsMap

variable {κ ν : Type} [DecidableEq κ]

def empty : JsMap κ ν := ⟨[], List.nodup_nil⟩

def get? (m : JsMap κ ν) (k : κ) : Option ν := (m.entries.find? fun p => p.1 = k).map Prod.snd

def has (m : JsMap κ ν) (k : κ) : Bool := (m.get? k).isSome

def keys (m : JsMap κ ν) : List κ := m.entries.map Prod.fst

def values (m : JsMap κ ν) : List ν := m.entries.map Prod.snd

def size (m : JsMap κ ν) : Nat := m.entries.length

/-- The entries with the value at `k` replaced, or `(k, v)` appended. -/
def setEntries (k : κ) (v : ν) : List (κ × ν) → List (κ × ν)
  | [] => [(k, v)]
  | p :: rest => if p.1 = k then (k, v) :: rest else p :: setEntries k v rest

theorem setEntries_of_mem {k : κ} {v : ν} {es : List (κ × ν)} (h : k ∈ es.map Prod.fst) :
    (setEntries k v es).map Prod.fst = es.map Prod.fst := by
  induction es with
  | nil => cases h
  | cons p rest ih =>
      rw [setEntries]
      split
      · rename_i hp
        rw [List.map_cons, List.map_cons, hp]
      · rename_i hp
        rw [List.map_cons, List.map_cons, ih]
        rcases List.mem_cons.mp h with h | h
        · exact absurd h.symm hp
        · exact h

theorem setEntries_of_not_mem {k : κ} {v : ν} {es : List (κ × ν)} (h : k ∉ es.map Prod.fst) :
    setEntries k v es = es ++ [(k, v)] := by
  induction es with
  | nil => rfl
  | cons p rest ih =>
      rw [List.map_cons, List.mem_cons, not_or] at h
      rw [setEntries, if_neg (Ne.symm h.1), ih h.2, List.cons_append]

theorem nodup_setEntries {k : κ} {v : ν} {es : List (κ × ν)} (h : (es.map Prod.fst).Nodup) :
    ((setEntries k v es).map Prod.fst).Nodup := by
  by_cases hk : k ∈ es.map Prod.fst
  · rw [setEntries_of_mem hk]; exact h
  · rw [setEntries_of_not_mem hk, List.map_append]
    exact List.Nodup.append h (List.nodup_singleton k) (by simpa using hk)

def set (m : JsMap κ ν) (k : κ) (v : ν) : JsMap κ ν :=
  ⟨setEntries k v m.entries, nodup_setEntries m.nodup⟩

def delete (m : JsMap κ ν) (k : κ) : JsMap κ ν :=
  ⟨m.entries.filter fun p => p.1 ≠ k, (List.filter_sublist.map _).nodup m.nodup⟩

/-- `new Map(entries)`. -/
def ofList (es : List (κ × ν)) : JsMap κ ν := es.foldl (fun m p => m.set p.1 p.2) empty

theorem mem_entries_iff {m : JsMap κ ν} {k : κ} {v : ν} :
    (k, v) ∈ m.entries ↔ m.get? k = some v := by
  obtain ⟨es, hn⟩ := m
  simp only [get?]
  induction es with
  | nil => simp
  | cons p rest ih =>
      rw [List.map_cons, List.nodup_cons] at hn
      by_cases hp : p.1 = k
      · rw [List.find?_cons_of_pos (by simpa using hp), List.mem_cons]
        constructor
        · rintro (h | h)
          · rw [← h]; rfl
          · exact absurd (List.mem_map.mpr ⟨(k, v), h, hp.symm⟩) hn.1
        · intro h
          left
          rw [Option.map_some, Option.some.injEq] at h
          rw [← hp, ← h]
      · rw [List.find?_cons_of_neg (by simpa using hp), List.mem_cons, ← ih hn.2]
        constructor
        · rintro (h | h)
          · exact absurd (congrArg Prod.fst h).symm hp
          · exact h
        · exact Or.inr

theorem mem_values_iff {m : JsMap κ ν} {v : ν} : v ∈ m.values ↔ ∃ k, m.get? k = some v := by
  simp only [values, List.mem_map, Prod.exists, exists_eq_right, mem_entries_iff]

theorem mem_keys_iff {m : JsMap κ ν} {k : κ} : k ∈ m.keys ↔ ∃ v, m.get? k = some v := by
  simp only [keys, List.mem_map, Prod.exists, exists_and_right, exists_eq_right, mem_entries_iff]

theorem has_iff {m : JsMap κ ν} {k : κ} : m.has k = true ↔ k ∈ m.keys := by
  rw [has, Option.isSome_iff_exists, mem_keys_iff]

theorem get?_eq_none_iff {m : JsMap κ ν} {k : κ} : m.get? k = none ↔ k ∉ m.keys := by
  rw [← has_iff, has]
  cases m.get? k <;> simp

@[simp] theorem get?_empty (k : κ) : (empty : JsMap κ ν).get? k = none := rfl

private theorem find?_setEntries_self (k : κ) (v : ν) (es : List (κ × ν)) :
    (setEntries k v es).find? (fun p => p.1 = k) = some (k, v) := by
  induction es with
  | nil => simp [setEntries]
  | cons p rest ih =>
      rw [setEntries]
      split
      · simp
      · rename_i hp
        rw [List.find?_cons_of_neg (by simpa using hp), ih]

private theorem find?_setEntries_ne {k k' : κ} (h : k' ≠ k) (v : ν) (es : List (κ × ν)) :
    (setEntries k v es).find? (fun p => p.1 = k') = es.find? (fun p => p.1 = k') := by
  induction es with
  | nil => simp [setEntries, Ne.symm h]
  | cons p rest ih =>
      rw [setEntries]
      split
      · rename_i hp
        rw [List.find?_cons_of_neg (by simpa using Ne.symm h),
          List.find?_cons_of_neg (by simpa [hp] using Ne.symm h)]
      · by_cases hp' : p.1 = k'
        · rw [List.find?_cons_of_pos (by simpa using hp'), List.find?_cons_of_pos (by simpa using hp')]
        · rw [List.find?_cons_of_neg (by simpa using hp'), List.find?_cons_of_neg (by simpa using hp'),
            ih]

@[simp] theorem get?_set_self (m : JsMap κ ν) (k : κ) (v : ν) : (m.set k v).get? k = some v := by
  rw [get?, set, find?_setEntries_self, Option.map_some]

theorem get?_set_ne (m : JsMap κ ν) {k k' : κ} (h : k' ≠ k) (v : ν) :
    (m.set k v).get? k' = m.get? k' := by
  rw [get?, set, find?_setEntries_ne h, get?]

theorem entries_set_of_not_has {m : JsMap κ ν} {k : κ} (h : m.has k = false) (v : ν) :
    (m.set k v).entries = m.entries ++ [(k, v)] := by
  refine setEntries_of_not_mem fun hk => ?_
  rw [has_iff.mpr hk] at h
  cases h

/-- Entries with distinct keys are the map that they make. -/
theorem entries_ofList {es : List (κ × ν)} (h : (es.map Prod.fst).Nodup) :
    (ofList es).entries = es := by
  have hfold : ∀ {es : List (κ × ν)} {m : JsMap κ ν}, ((m.entries ++ es).map Prod.fst).Nodup →
      (es.foldl (fun m p => m.set p.1 p.2) m).entries = m.entries ++ es := by
    intro es
    induction es with
    | nil => intro m _; exact (List.append_nil _).symm
    | cons p es ih =>
        intro m hm
        have hnew : m.has p.1 = false := by
          rw [Bool.eq_false_iff, ne_eq, has_iff]
          intro hmem
          rw [List.map_append, List.map_cons] at hm
          exact List.disjoint_of_nodup_append hm hmem List.mem_cons_self
        have hset := entries_set_of_not_has hnew p.2
        rw [List.foldl_cons, ih (by rw [hset, List.append_assoc]; exact hm), hset, List.append_assoc]
        rfl
  exact hfold (m := empty) h

theorem keys_set_of_has {m : JsMap κ ν} {k : κ} (h : m.has k = true) (v : ν) :
    (m.set k v).keys = m.keys :=
  setEntries_of_mem (has_iff.mp h)

theorem keys_set_of_not_has {m : JsMap κ ν} {k : κ} (h : m.has k = false) (v : ν) :
    (m.set k v).keys = m.keys ++ [k] := by
  rw [keys, entries_set_of_not_has h, List.map_append, keys]
  rfl

theorem mem_keys_set {m : JsMap κ ν} {k k' : κ} {v : ν} :
    k' ∈ (m.set k v).keys ↔ k' ∈ m.keys ∨ k' = k := by
  by_cases h : k' = k
  · subst h
    simp [mem_keys_iff]
  · simp only [mem_keys_iff, get?_set_ne m h, h, or_false]

theorem values_set_of_not_has {m : JsMap κ ν} {k : κ} (h : m.has k = false) (v : ν) :
    (m.set k v).values = m.values ++ [v] := by
  rw [values, entries_set_of_not_has h, List.map_append, values]
  rfl

/-- Setting a key that is there changes one value and leaves the others where they are. -/
theorem values_set_of_get? {R : ν → ν → Prop} (hrefl : ∀ v, R v v) {m : JsMap κ ν} {k : κ} {v w : ν}
    (hget : m.get? k = some v) (hvw : R v w) : List.Forall₂ R m.values (m.set k w).values := by
  obtain ⟨es, hn⟩ := m
  show List.Forall₂ R (es.map Prod.snd) ((setEntries k w es).map Prod.snd)
  change (es.find? fun p => p.1 = k).map Prod.snd = some v at hget
  clear hn
  induction es with
  | nil => cases hget
  | cons p rest ih =>
      rw [setEntries]
      by_cases hp : p.1 = k
      · rw [List.find?_cons_of_pos (by simpa using hp), Option.map_some, Option.some.injEq] at hget
        rw [if_pos hp, List.map_cons, List.map_cons, hget]
        exact .cons hvw (List.forall₂_same.mpr fun v _ => hrefl v)
      · rw [List.find?_cons_of_neg (by simpa using hp)] at hget
        rw [if_neg hp, List.map_cons, List.map_cons]
        exact .cons (hrefl _) (ih hget)

theorem size_eq_length_keys (m : JsMap κ ν) : m.size = m.keys.length := by
  rw [size, keys, List.length_map]

theorem get?_delete_self (m : JsMap κ ν) (k : κ) : (m.delete k).get? k = none := by
  rw [get?_eq_none_iff, keys, delete]
  intro h
  obtain ⟨p, hp, rfl⟩ := List.mem_map.mp h
  simpa using (List.mem_filter.mp hp).2

theorem get?_delete_ne (m : JsMap κ ν) {k k' : κ} (h : k' ≠ k) :
    (m.delete k).get? k' = m.get? k' := by
  ext v
  rw [← mem_entries_iff, ← mem_entries_iff, delete, List.mem_filter]
  simp [h]

theorem get?_of_delete {m : JsMap κ ν} {k k' : κ} {v : ν} (h : (m.delete k).get? k' = some v) :
    m.get? k' = some v := by
  by_cases hk : k' = k
  · rw [hk, get?_delete_self] at h
    cases h
  · rw [get?_delete_ne m hk] at h
    exact h

/-- Setting a key to the value it has changes nothing. -/
theorem entries_set_of_mem {m : JsMap κ ν} {k : κ} {v : ν} (h : (k, v) ∈ m.entries) :
    (m.set k v).entries = m.entries := by
  obtain ⟨es, hn⟩ := m
  show setEntries k v es = es
  induction es with
  | nil => cases h
  | cons p rest ih =>
      rw [List.map_cons, List.nodup_cons] at hn
      rw [setEntries]
      split
      · rename_i hp
        rcases List.mem_cons.mp h with h | h
        · rw [h]
        · exact absurd (List.mem_map.mpr ⟨(k, v), h, hp.symm⟩) hn.1
      · rename_i hp
        rcases List.mem_cons.mp h with h | h
        · exact absurd (congrArg Prod.fst h).symm hp
        · exact congrArg (p :: ·) (ih hn.2 h)

/-! ## Changing every value -/

/-- Every value changed, unless one of the changes fails. -/
def updateAll {ε : Type} (f : ν → Except ε ν) (m : JsMap κ ν) : Except ε (JsMap κ ν) :=
  m.entries.foldlM (fun m p => do return m.set p.1 (← f p.2)) m

private theorem get?_foldlM {ε : Type} {f : ν → Except ε ν} {es : List (κ × ν)} :
    ∀ {m m' : JsMap κ ν}, (es.map Prod.fst).Nodup →
      es.foldlM (fun m p => do return m.set p.1 (← f p.2)) m = .ok m' →
      (∀ k v, (k, v) ∈ es → ∃ v', f v = .ok v' ∧ m'.get? k = some v') ∧
        ∀ k, k ∉ es.map Prod.fst → m'.get? k = m.get? k := by
  induction es with
  | nil =>
      intro m m' _ h
      cases h
      exact ⟨fun k v hkv => (List.not_mem_nil hkv).elim, fun k _ => rfl⟩
  | cons p es ih =>
      intro m m' hn h
      rw [List.map_cons, List.nodup_cons] at hn
      rw [List.foldlM_cons] at h
      cases hp : f p.2 with
      | error e => rw [hp] at h; cases h
      | ok w =>
          rw [hp] at h
          obtain ⟨hin, hout⟩ := ih hn.2 h
          refine ⟨fun k v hkv => ?_, fun k hk => ?_⟩
          · rcases List.mem_cons.mp hkv with rfl | hkv
            · exact ⟨w, hp, (hout k hn.1).trans (get?_set_self _ _ _)⟩
            · exact hin k v hkv
          · rw [List.map_cons, List.mem_cons, not_or] at hk
            rw [hout k hk.2, get?_set_ne _ hk.1]

theorem get?_updateAll {ε : Type} {f : ν → Except ε ν} {m m' : JsMap κ ν}
    (h : m.updateAll f = .ok m') {k : κ} {v : ν} (hk : m.get? k = some v) :
    ∃ v', f v = .ok v' ∧ m'.get? k = some v' :=
  (get?_foldlM m.nodup h).1 k v (mem_entries_iff.mpr hk)

theorem get?_updateAll_none {ε : Type} {f : ν → Except ε ν} {m m' : JsMap κ ν}
    (h : m.updateAll f = .ok m') {k : κ} (hk : m.get? k = none) : m'.get? k = none :=
  ((get?_foldlM m.nodup h).2 k (get?_eq_none_iff.mp hk)).trans hk

theorem updateAll_returns {ε : Type} {f : ν → Except ε ν} {m : JsMap κ ν}
    (hf : ∀ v ∈ m.values, ∃ v', f v = .ok v') : ∃ m', m.updateAll f = .ok m' := by
  have hfold : ∀ {es : List (κ × ν)} {m : JsMap κ ν}, (∀ p ∈ es, ∃ v', f p.2 = .ok v') →
      ∃ m', es.foldlM (fun m p => do return m.set p.1 (← f p.2)) m = .ok m' := by
    intro es
    induction es with
    | nil => intro m _; exact ⟨m, rfl⟩
    | cons p es ih =>
        intro m hes
        rw [List.forall_mem_cons] at hes
        obtain ⟨v', hv'⟩ := hes.1
        rw [List.foldlM_cons, hv']
        exact ih hes.2
  exact hfold fun p hp => hf p.2 (List.mem_map.mpr ⟨p, hp, rfl⟩)

/-! ## Sums over the values -/

/-- What the values add up to. -/
def total (f : ν → Int) (m : JsMap κ ν) : Int := (m.values.map f).sum

theorem total_set (f : ν → Int) (m : JsMap κ ν) (k : κ) (v : ν) :
    (m.set k v).total f = m.total f + f v - (m.get? k).elim 0 f := by
  obtain ⟨es, hn⟩ := m
  show (((setEntries k v es).map Prod.snd).map f).sum = ((es.map Prod.snd).map f).sum + f v -
    ((es.find? fun p => p.1 = k).map Prod.snd).elim 0 f
  clear hn
  induction es with
  | nil => simp [setEntries]
  | cons p rest ih =>
      rw [setEntries]
      by_cases hp : p.1 = k
      · rw [if_pos hp, List.find?_cons_of_pos (by simpa using hp)]
        simp only [List.map_cons, List.sum_cons, Option.map_some, Option.elim_some]
        omega
      · rw [if_neg hp, List.find?_cons_of_neg (by simpa using hp)]
        simp only [List.map_cons, List.sum_cons] at ih ⊢
        omega

theorem total_delete (f : ν → Int) (m : JsMap κ ν) (k : κ) :
    (m.delete k).total f = m.total f - (m.get? k).elim 0 f := by
  obtain ⟨es, hn⟩ := m
  show (((es.filter fun p => p.1 ≠ k).map Prod.snd).map f).sum = ((es.map Prod.snd).map f).sum -
    ((es.find? fun p => p.1 = k).map Prod.snd).elim 0 f
  induction es with
  | nil => rfl
  | cons p rest ih =>
      rw [List.map_cons, List.nodup_cons] at hn
      by_cases hp : p.1 = k
      · have hrest : (rest.filter fun p => p.1 ≠ k) = rest := by
          refine List.filter_eq_self.mpr fun q hq => decide_eq_true fun hk => ?_
          exact hn.1 (List.mem_map.mpr ⟨q, hq, hk.trans hp.symm⟩)
        rw [List.filter_cons_of_neg (by simpa using hp), List.find?_cons_of_pos (by simpa using hp),
          hrest]
        simp only [List.map_cons, List.sum_cons, Option.map_some, Option.elim_some]
        omega
      · rw [List.filter_cons_of_pos (by simpa using hp), List.find?_cons_of_neg (by simpa using hp)]
        have hrest := ih hn.2
        simp only [List.map_cons, List.sum_cons] at hrest ⊢
        omega

/-- What is not negative adds up to no more than over a list of all keys. -/
theorem total_le {f : ν → Int} (hf : ∀ v, 0 ≤ f v) {m : JsMap κ ν} {ks : List κ}
    (hks : ∀ k ∈ m.keys, k ∈ ks) :
    m.total f ≤ (ks.map fun k => (m.get? k).elim 0 f).sum := by
  have hkeys : m.total f = (m.keys.map fun k => (m.get? k).elim 0 f).sum := by
    rw [total, values, keys, List.map_map, List.map_map]
    congr 1
    apply List.map_congr_left
    rintro ⟨k, v⟩ hp
    show f v = (m.get? k).elim 0 f
    rw [mem_entries_iff.mp hp]
    rfl
  obtain ⟨l, hperm, hsub⟩ := List.subperm_of_subset m.nodup hks
  have hnonneg : ∀ x ∈ ks.map fun k => (m.get? k).elim 0 f, 0 ≤ x := by
    intro x hx
    obtain ⟨k, _, rfl⟩ := List.mem_map.mp hx
    cases m.get? k with
    | none => exact le_refl _
    | some v => exact hf v
  calc m.total f = (m.keys.map fun k => (m.get? k).elim 0 f).sum := hkeys
    _ = (l.map fun k => (m.get? k).elim 0 f).sum := ((hperm.map _).sum_eq).symm
    _ ≤ (ks.map fun k => (m.get? k).elim 0 f).sum := (hsub.map _).sum_le_sum hnonneg

theorem ofList_append_singleton (es : List (κ × ν)) (e : κ × ν) :
    ofList (es ++ [e]) = (ofList es).set e.1 e.2 := by
  rw [ofList, List.foldl_append]
  rfl

/-- What a map made of entries holds was one of them. -/
theorem mem_of_get?_ofList {es : List (κ × ν)} {k : κ} {v : ν} (h : (ofList es).get? k = some v) :
    (k, v) ∈ es := by
  induction es using List.reverseRecOn with
  | nil => cases h
  | append_singleton es e ih =>
      rw [ofList_append_singleton] at h
      by_cases hk : k = e.1
      · rw [hk, get?_set_self] at h
        cases h
        rw [hk]
        exact List.mem_append_right _ (List.mem_singleton_self e)
      · rw [get?_set_ne _ hk] at h
        exact List.mem_append_left _ (ih h)

/-- Where the keys stand for the values, the map holds each value once, in the order of the list. -/
theorem values_ofList [DecidableEq ν] {es : List (κ × ν)}
    (hkeys : ∀ p ∈ es, ∀ q ∈ es, p.1 = q.1 ↔ p.2 = q.2) :
    (ofList es).values = (es.map Prod.snd).eraseDups ∧ ∀ p, p ∈ (ofList es).entries ↔ p ∈ es := by
  induction es using List.reverseRecOn with
  | nil => exact ⟨rfl, fun p => Iff.rfl⟩
  | append_singleton es e ih =>
      obtain ⟨hvalues, hentries⟩ := ih fun p hp q hq =>
        hkeys p (List.mem_append_left _ hp) q (List.mem_append_left _ hq)
      have hset := ofList_append_singleton es e
      rw [hset, List.map_append, List.eraseDups_append, ← hvalues]
      cases hhas : (ofList es).has e.1 with
      | false =>
          have hnew : e.2 ∉ es.map Prod.snd := by
            intro hmem
            obtain ⟨q, hq, hqe⟩ := List.mem_map.mp hmem
            have hkey := (hkeys q (List.mem_append_left _ hq) e (by simp)).mpr hqe
            rw [Bool.eq_false_iff, ne_eq, has_iff] at hhas
            exact hhas (List.mem_map.mpr ⟨q, (hentries q).mpr hq, hkey⟩)
          constructor
          · have hone : [e.2].removeAll (es.map Prod.snd) = [e.2] :=
              List.filter_cons_of_pos (by simpa using hnew)
            rw [values_set_of_not_has hhas, List.map_cons, List.map_nil, hone]
            rfl
          · intro p
            rw [entries_set_of_not_has hhas, List.mem_append, List.mem_append, hentries]
      | true =>
          obtain ⟨q, hq, hqe⟩ := List.mem_map.mp (has_iff.mp hhas)
          have hqes := (hentries q).mp hq
          have hsame := (hkeys q (List.mem_append_left _ hqes) e (by simp)).mp hqe
          have hmem : e ∈ (ofList es).entries := by rwa [← Prod.ext hqe hsame]
          have hkept := entries_set_of_mem hmem
          constructor
          · have hold : e.2 ∈ es.map Prod.snd := List.mem_map_of_mem ((hentries e).mp hmem)
            have hnone : [e.2].removeAll (es.map Prod.snd) = [] :=
              List.filter_cons_of_neg (by simpa using hold)
            rw [values, hkept, ← values, List.map_cons, List.map_nil, hnone, List.eraseDups_nil,
              List.append_nil]
          · intro p
            rw [hkept, hentries, List.mem_append, List.mem_singleton]
            exact ⟨Or.inl, fun h => h.elim id fun h => h ▸ (hentries e).mp hmem⟩

end JsMap

end DtnCustody.Base
