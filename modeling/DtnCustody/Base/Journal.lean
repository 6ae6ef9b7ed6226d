/-
# DtnCustody.Base.Journal — what is put on record: a file of records, and the effects they are kept of.

A journal is a file of records, a line each, that is only ever appended to. An append can stop anywhere, so the
file holds whole lines, pieces, and records whose newline is missing. It is read back as a whole: one line that
is no record and nothing can be read (`load`). Apart from that there is what is in the file, read or not
(`records`), and what is read is what is in it (`load_eq`).

An effect log is an attempt after another, each at something named by keys. It may happen in the world and it
may be put on record, and neither follows from the other: the effect and the record are two steps, with a failure
between them. A guard allows an attempt by looking at the record alone, and where whatever happens is recorded
(`Honest`), guarding the record guards the world (`Inv.step`).
-/
import Mathlib.Data.List.Basic
import Mathlib.Data.List.Count
import Mathlib.Order.Defs.PartialOrder

namespace DtnCustody.Base

namespace Journal

variable {α : Type}

inductive Item (α : Type) where
  | record (r : α)
  | newline
  | piece

/-- How far an append gets with a line: to the end, to the end but for the newline, to somewhere
inside, or nowhere. -/
inductive Written where
  | line
  | text
  | piece
  | nothing
  deriving DecidableEq

/-- What an append leaves in the file. -/
def Written.items (r : α) : Written → List (Item α)
  | .line => [.record r, .newline]
  | .text => [.record r]
  | .piece => [.piece]
  | .nothing => []

/-- The whole record is in the file. -/
def Written.whole : Written → Bool
  | .line | .text => true
  | .piece | .nothing => false

/-- The file as it is read, or nothing where a line is not one record. -/
def load : List (Item α) → Option (List α)
  | [] => some []
  | .newline :: rest => load rest
  | [.record r] => some [r]
  | .record r :: .newline :: rest => (load rest).map (r :: ·)
  | _ => none

def Item.record? : Item α → Option α
  | .record r => some r
  | _ => none

/-- The records in the file. -/
def records (file : List (Item α)) : List α := file.filterMap Item.record?

theorem records_append (file more : List (Item α)) :
    records (file ++ more) = records file ++ records more := List.filterMap_append

theorem records_items (r : α) (w : Written) : records (w.items r) = if w.whole then [r] else [] := by
  cases w <;> rfl

/-- **What is read is what is in the file.** -/
theorem load_eq {file : List (Item α)} {rs : List α} (h : load file = some rs) : rs = records file := by
  fun_induction load file generalizing rs with
  | case1 => exact (Option.some.inj h).symm
  | case2 rest ih => exact ih h
  | case3 r => exact (Option.some.inj h).symm
  | case4 r rest ih =>
      obtain ⟨later, hlater, rfl⟩ := Option.map_eq_some_iff.mp h
      rw [ih hlater]
      rfl
  | case5 => cases h

end Journal

end DtnCustody.Base

namespace DtnCustody.Base.EffectLog

variable {κ : Type} [DecidableEq κ]

/-- The keys of all that happened, and of all that is on record. -/
structure State (κ : Type) where
  world : List κ
  record : List κ

structure Attempt (κ : Type) where
  keys : List κ
  happens : Bool
  recorded : Bool

def State.new : State κ := { world := [], record := [] }

def step (s : State κ) (a : Attempt κ) : State κ :=
  { world := s.world ++ if a.happens then a.keys else []
    record := s.record ++ if a.recorded then a.keys else [] }

/-- What happens is recorded. -/
def Attempt.Honest (a : Attempt κ) : Prop := a.happens = true → a.recorded = true

/-- The record has room for the attempt. -/
def Allowed (limit : κ → Nat) (s : State κ) (a : Attempt κ) : Prop :=
  ∀ k, s.record.count k + a.keys.count k ≤ limit k ∨ k ∉ a.keys

/-- Nothing happened more often than it is on record, or is on record more often than allowed. -/
structure Inv (limit : κ → Nat) (s : State κ) : Prop where
  recorded : ∀ k, s.world.count k ≤ s.record.count k
  within : ∀ k, s.record.count k ≤ limit k

theorem inv_new (limit : κ → Nat) : Inv limit (State.new : State κ) :=
  ⟨fun _ => Nat.le_refl _, fun _ => Nat.zero_le _⟩

/-- **An honest attempt that the record allows keeps to the limit.** -/
theorem Inv.step {limit : κ → Nat} {s : State κ} (h : Inv limit s) {a : Attempt κ}
    (hallowed : a.recorded = true → Allowed limit s a) (hhonest : a.Honest) :
    Inv limit (step s a) := by
  refine ⟨fun k => ?_, fun k => ?_⟩
  · have hold := h.recorded k
    dsimp only [EffectLog.step]
    rw [List.count_append, List.count_append]
    cases hhappens : a.happens with
    | false =>
        rw [if_neg Bool.false_ne_true, List.count_nil]
        omega
    | true =>
        rw [if_pos rfl, if_pos (hhonest hhappens)]
        omega
  · have hold := h.within k
    dsimp only [EffectLog.step]
    rw [List.count_append]
    cases hrecorded : a.recorded with
    | false =>
        rw [if_neg Bool.false_ne_true, List.count_nil]
        omega
    | true =>
        rw [if_pos rfl]
        rcases hallowed hrecorded k with hroom | hout
        · exact hroom
        · rw [List.count_eq_zero_of_not_mem hout]
          omega

/-- Nothing happened more often than allowed. -/
theorem Inv.world_le {limit : κ → Nat} {s : State κ} (h : Inv limit s) (k : κ) :
    s.world.count k ≤ limit k := Nat.le_trans (h.recorded k) (h.within k)

end DtnCustody.Base.EffectLog
