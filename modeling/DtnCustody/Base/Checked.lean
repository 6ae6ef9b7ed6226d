/-
# DtnCustody.Base.Checked — code that checks its bounds by hand.

Memory is a list. A load or a copy that leaves its memory, or a null pointer that is followed, is a `MemoryFault`,
which nothing catches. Between the faults stands the code's own refusal: a reader gives nothing where a check of its
own fails.

`Fine P` says of a reader that it never faults, and that what it gives, if it gives something, is `P`. Of a sequence of
two readers it holds when it holds of the first, and of the second on whatever the first can give (`Fine.bind`).
-/
import DtnCustody.Base.Text

namespace DtnCustody.Base

inductive MemoryFault where
  | outOfBounds
  | nullPointer
  deriving DecidableEq, Repr

/-- A computation that may fault. -/
abbrev Checked (α : Type) := Except MemoryFault α

section Memory

variable {β : Type}

/-- `p[i]`. -/
def load (p : List β) (i : Nat) : Checked β :=
  match p[i]? with
  | some b => .ok b
  | none => .error .outOfBounds

/-- The `len` elements from `p + i` on. -/
def loads (p : List β) (i len : Nat) : Checked (List β) :=
  if i + len ≤ p.length then .ok ((p.drop i).take len) else .error .outOfBounds

/-- Those elements, copied into an array of `cap`. -/
def copy (cap : Nat) (p : List β) (i len : Nat) : Checked (List β) := do
  let b ← loads p i len
  if len ≤ cap then return b else .error .outOfBounds

theorem load_ok {p : List β} {i : Nat} (h : i < p.length) : load p i = .ok p[i] := by
  unfold load
  rw [List.getElem?_eq_getElem h]

theorem loads_ok {p : List β} {i len : Nat} (h : i + len ≤ p.length) :
    loads p i len = .ok ((p.drop i).take len) := if_pos h

theorem length_loaded {p : List β} {i len : Nat} (h : i + len ≤ p.length) : ((p.drop i).take len).length = len := by
  rw [List.length_take, List.length_drop]
  omega

theorem copy_ok {cap : Nat} {p : List β} {i len : Nat} (h : i + len ≤ p.length) (hcap : len ≤ cap) :
    copy cap p i len = .ok ((p.drop i).take len) := by
  unfold copy
  rw [loads_ok h]
  exact if_pos hcap

end Memory

section Fine

variable {α β : Type} {P : α → Prop} {Q : β → Prop}

/-- No fault, and `P` of what is given. -/
def Fine (P : α → Prop) (x : Checked (Option α)) : Prop := ∃ y, x = .ok y ∧ ∀ a, y = some a → P a

theorem Fine.refused : Fine P (.ok none) := ⟨_, rfl, fun _ h => by cases h⟩

theorem Fine.given {a : α} (h : P a) : Fine P (.ok (some a)) := ⟨_, rfl, fun _ ha => by cases ha; exact h⟩

/-- A reader, and what comes after it. -/
theorem Fine.bind {x : Checked (Option α)} {g : Option α → Checked (Option β)} (hx : Fine P x)
    (hnone : g none = .ok none) (hsome : ∀ a, P a → Fine Q (g (some a))) : Fine Q (x >>= g) := by
  obtain ⟨y, rfl, hP⟩ := hx
  cases y with
  | none =>
      show Fine Q (g none)
      rw [hnone]
      exact Fine.refused
  | some a => exact hsome a (hP a rfl)

/-- A step that does not fault. -/
theorem Fine.step {a : α} {x : Checked α} {g : α → Checked (Option β)} (hx : x = .ok a) (hg : Fine Q (g a)) :
    Fine Q (x >>= g) := by
  rw [hx]
  exact hg

theorem Fine.ite {p : Prop} [Decidable p] {x y : Checked (Option α)} (hx : p → Fine P x) (hy : ¬ p → Fine P y) :
    Fine P (if p then x else y) := by
  split
  · next h => exact hx h
  · next h => exact hy h

end Fine

@[simp] theorem Checked.ok_bind {α β : Type} (a : α) (f : α → Checked β) :
    ((Except.ok a : Checked α) >>= f) = f a := rfl

end DtnCustody.Base
