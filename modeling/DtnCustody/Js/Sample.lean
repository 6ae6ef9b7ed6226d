/-
# DtnCustody.Js.Sample — a runtime to run the model on.

A hash that escapes its input between two marks, and a signature that names the key and the hash
of the message. Private and public keys are the same bytes.
-/
import DtnCustody.Base.MerkleTree
import DtnCustody.Js.Operators

namespace DtnCustody

open Base Js

/-- One byte, escaped. -/
def escape (x : UInt8) : Bytes := if x < 254 then [x] else [254, x - 254]

def sampleHash (b : Bytes) : Bytes := 255 :: b.flatMap escape ++ [255]

theorem escape_append_inj {x y : UInt8} {r s : Bytes} (h : escape x ++ r = escape y ++ s) :
    x = y ∧ r = s := by
  unfold escape at h
  split at h <;> split at h
  · simpa using h
  · rename_i hx _
    simp only [List.cons_append, List.nil_append, List.cons.injEq] at h
    rw [h.1] at hx
    exact absurd hx (by decide)
  · rename_i _ hy
    simp only [List.cons_append, List.nil_append, List.cons.injEq] at h
    rw [← h.1] at hy
    exact absurd hy (by decide)
  · simp only [List.cons_append, List.nil_append, List.cons.injEq, true_and] at h
    have hxy := congrArg (· + 254) h.1
    simp only [UInt8.sub_add_cancel] at hxy
    exact ⟨hxy, h.2⟩

theorem escape_ne_mark (x : UInt8) (r s : Bytes) : escape x ++ r ≠ 255 :: s := by
  intro h
  unfold escape at h
  split at h
  · rename_i hx
    simp only [List.cons_append, List.cons.injEq] at h
    rw [h.1] at hx
    exact absurd hx (by decide)
  · simp at h

theorem escapeAll_inj {a b r s : Bytes} (h : a.flatMap escape ++ 255 :: r = b.flatMap escape ++ 255 :: s) :
    a = b ∧ r = s := by
  induction a generalizing b with
  | nil =>
      cases b with
      | nil => simpa using h
      | cons y b =>
          rw [List.flatMap_cons, List.append_assoc] at h
          exact absurd h.symm (escape_ne_mark y _ _)
  | cons x a ih =>
      rw [List.flatMap_cons, List.append_assoc] at h
      cases b with
      | nil => exact absurd h (escape_ne_mark x _ _)
      | cons y b =>
          rw [List.flatMap_cons, List.append_assoc] at h
          obtain ⟨rfl, htail⟩ := escape_append_inj h
          obtain ⟨rfl, hrest⟩ := ih htail
          exact ⟨rfl, hrest⟩

/-- The marks show where an output ends. -/
theorem sampleHash_append_inj {a b r s : Bytes} (h : sampleHash a ++ r = sampleHash b ++ s) :
    a = b ∧ r = s := by
  simp only [sampleHash, List.cons_append, List.append_assoc, List.cons.injEq, true_and,
    List.nil_append] at h
  exact escapeAll_inj h

theorem sampleHash_injective : Function.Injective sampleHash := fun _ _ h =>
  (sampleHash_append_inj (congrArg (· ++ []) h)).1

theorem mark_notMem_escape (x : UInt8) : 255 ∉ escape x := by
  unfold escape
  split
  · rename_i hsmall
    rw [List.mem_singleton]
    intro h
    rw [← h] at hsmall
    exact absurd hsmall (by decide)
  · rename_i hlarge
    rw [List.mem_cons, List.mem_singleton]
    rintro (h | h)
    · exact absurd h (by decide)
    · rw [← UInt8.sub_add_cancel x 254, ← h] at hlarge
      exact absurd (by decide) hlarge

theorem mark_notMem_escapeAll (a : Bytes) : 255 ∉ a.flatMap escape := by
  intro h
  obtain ⟨x, _, hx⟩ := List.mem_flatMap.mp h
  exact mark_notMem_escape x hx

/-- The last mark but one shows where an output starts. -/
theorem sampleHash_collisionFree : MerkleTree.CollisionFree sampleHash where
  front := sampleHash_append_inj
  back := by
    intro a b r s h
    have hlast : r ++ 255 :: a.flatMap escape = s ++ 255 :: b.flatMap escape := by
      refine @List.append_cancel_right _ _ [255] _ ?_
      simpa [sampleHash] using h
    obtain ⟨hfront, hback⟩ :=
      append_separator_inj hlast (mark_notMem_escapeAll a) (mark_notMem_escapeAll b)
    exact ⟨(escapeAll_inj (congrArg (· ++ [255]) hback)).1, hfront⟩

def sampleNode : Node where
  sha256 := sampleHash
  ed25519Verify der m sig := sig == der.drop 12 ++ sampleHash m
  ed25519Sign priv m := priv ++ sampleHash m
  stringToNumber _ := .nan
  stringToBigInt _ := none
  numberToString _ := []

end DtnCustody
