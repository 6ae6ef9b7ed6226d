/-
# DtnCustody.Base.Memo — a table of remembered results, and when using it shows.

`answer` answers from the table when the input's key is there, and computes and remembers
otherwise. Inputs are arbitrary and keys need not tell them apart: what makes the table invisible is
that inputs with one key have one result (`Agreeing`), for all the inputs the table ever sees. An
input without a key, and a computation that fails, leave the table as it is.

Nothing here names what is computed.
-/
import DtnCustody.Base.JsMap
import Mathlib.Data.Set.Basic

namespace DtnCustody.Base.Memo

variable {α κ ν ε : Type} [DecidableEq κ] (key : α → Option κ) (f : α → Except ε ν)

def remember (table : JsMap κ ν) (a : α) (v : ν) : JsMap κ ν :=
  match key a with
  | some k => table.set k v
  | none => table

def answer (table : JsMap κ ν) (a : α) : Except ε ν × JsMap κ ν :=
  match (key a).bind table.get? with
  | some v => (.ok v, table)
  | none =>
      match f a with
      | .error e => (.error e, table)
      | .ok v => (.ok v, remember key table a v)

/-- Every entry is the result of some input in `seen` with that key. -/
def Faithful (seen : Set α) (table : JsMap κ ν) : Prop :=
  ∀ k v, table.get? k = some v → ∃ a ∈ seen, key a = some k ∧ f a = .ok v

/-- Inputs with one key have one result. -/
def Agreeing (seen : Set α) : Prop :=
  ∀ a ∈ seen, ∀ b ∈ seen, ∀ k, key a = some k → key b = some k → f a = f b

theorem faithful_empty (seen : Set α) : Faithful key f seen (JsMap.empty : JsMap κ ν) := by
  intro k v h
  rw [JsMap.get?_empty] at h
  cases h

variable {key f}

theorem Faithful.remember {seen : Set α} {table : JsMap κ ν} {a : α} {v : ν}
    (h : Faithful key f seen table) (ha : a ∈ seen) (hv : f a = .ok v) :
    Faithful key f seen (remember key table a v) := by
  unfold Memo.remember
  split
  · rename_i k hk
    intro l w hl
    by_cases hkl : l = k
    · rw [hkl, JsMap.get?_set_self, Option.some.injEq] at hl
      exact ⟨a, ha, hkl ▸ hk, hl ▸ hv⟩
    · rw [JsMap.get?_set_ne _ hkl] at hl
      exact h l w hl
  · exact h

/-- **The table does not show**: over agreeing inputs, recalling is computing, and the table stays
faithful. -/
theorem answer_eq {seen : Set α} {table : JsMap κ ν} {a : α} (hagree : Agreeing key f seen)
    (h : Faithful key f seen table) (ha : a ∈ seen) :
    (answer key f table a).1 = f a ∧ Faithful key f seen (answer key f table a).2 := by
  unfold answer
  split
  · rename_i v hv
    obtain ⟨k, hk, hget⟩ := Option.bind_eq_some_iff.mp hv
    obtain ⟨b, hb, hkb, hfb⟩ := h k v hget
    exact ⟨(hfb.symm.trans (hagree b hb a ha k hkb hk)), h⟩
  · split
    · rename_i e he
      exact ⟨he.symm, h⟩
    · rename_i v hv
      exact ⟨hv.symm, h.remember ha hv⟩

/-- Over inputs that need not agree, what is recalled is still the result of some input with the key
of the one that was asked. -/
theorem answer_of_key {seen : Set α} {table : JsMap κ ν} {a : α} {v : ν}
    (h : Faithful key f seen table) (ha : a ∈ seen) (hv : f a = .ok v) :
    ∃ b ∈ seen, ∃ w, f b = .ok w ∧ (b = a ∨ ∃ k, key b = some k ∧ key a = some k) ∧
      (answer key f table a).1 = .ok w ∧ Faithful key f seen (answer key f table a).2 := by
  unfold answer
  split
  · rename_i w hw
    obtain ⟨k, hk, hget⟩ := Option.bind_eq_some_iff.mp hw
    obtain ⟨b, hb, hkb, hfb⟩ := h k w hget
    exact ⟨b, hb, w, hfb, Or.inr ⟨k, hkb, hk⟩, rfl, h⟩
  · rw [hv]
    exact ⟨a, ha, v, hv, Or.inl rfl, rfl, h.remember ha hv⟩

end DtnCustody.Base.Memo
