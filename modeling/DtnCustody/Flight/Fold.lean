/-
# DtnCustody.Flight.Fold — the tree of a batch on board, and its leaves.

The tree is folded in one array: node `k` of a layer is written over place `k`, while places `2k` and
`2k + 1` are still those of the layer below (`Folded`). So a round leaves the next layer in front, and
what is left at place zero in the end is the root that the layers come down to. The leaves are the
identifiers sorted as bytes, each kept once; that is the sorted set of the reference, since bytes of
plain text are ordered as its code units are.
-/
import DtnCustody.Agent.Batch
import DtnCustody.Flight.Custody

namespace DtnCustody

open Base Js

namespace Flight

/-! ## One layer over the other -/

variable (N : FlightHost)

/-- The array after the first `k` nodes over the `w` places in front are written. -/
structure Folded (w : Nat) (old : List Bytes) (k : Nat) (s : List Bytes) : Prop where
  length : s.length = old.length
  written : ∀ j < k, s[j]? = (MerkleTree.nextLayer N.sha256 (old.take w))[j]?
  kept : ∀ j, k ≤ j → s[j]? = old[j]?

variable {N}

theorem Folded.step {w k : Nat} {old s : List Bytes} (h : Folded N w old k s) (hw : w ≤ old.length)
    (hk : k < (w + 1) / 2) : Folded N w old (k + 1) (layerStep N w s k) := by
  -- both places that are read lie at or behind the place that is written
  have hleft : s.getD (2 * k) [] = old.getD (2 * k) [] := by
    rw [List.getD_eq_getElem?_getD, List.getD_eq_getElem?_getD, h.kept _ (by omega)]
  have hright : s.getD (2 * k + 1) [] = old.getD (2 * k + 1) [] := by
    rw [List.getD_eq_getElem?_getD, List.getD_eq_getElem?_getD, h.kept _ (by omega)]
  have hplace : (old.take w)[2 * k]? = some (old.getD (2 * k) []) := by
    rw [List.getElem?_take_of_lt (by omega), List.getD_eq_getElem?_getD,
      List.getElem?_eq_getElem (by omega), Option.getD_some]
  have hsibling : (old.take w).getD (2 * k + 1) (old.getD (2 * k) []) =
      if 2 * k + 1 < w then old.getD (2 * k + 1) [] else old.getD (2 * k) [] := by
    rw [List.getD_eq_getElem?_getD]
    split
    · next hlt =>
      have hsome : old[2 * k + 1]? = some old[2 * k + 1] := List.getElem?_eq_getElem (by omega)
      have hright' : old.getD (2 * k + 1) [] = old[2 * k + 1] := by
        rw [List.getD_eq_getElem?_getD, hsome, Option.getD_some]
      rw [List.getElem?_take_of_lt hlt, hsome, Option.getD_some, hright']
    · next hge =>
      rw [List.getElem?_take_eq_none (by omega), Option.getD_none]
  have hnode := MerkleTree.getElem?_nextLayer (H := N.sha256) _ k hplace
  rw [hsibling] at hnode
  refine ⟨?_, ?_, ?_⟩
  · rw [layerStep, List.length_set, h.length]
  · intro j hj
    rw [layerStep, hleft, hright]
    rcases Nat.lt_succ_iff_lt_or_eq.mp hj with hlt | rfl
    · rw [List.getElem?_set_ne (by omega), h.written j hlt]
    · rw [List.getElem?_set_self (by rw [h.length]; omega), hnode]
      rfl
  · intro j hj
    rw [layerStep, List.getElem?_set_ne (by omega), h.kept j (by omega)]

theorem folded_range {w : Nat} {old : List Bytes} (hw : w ≤ old.length) :
    ∀ {k : Nat}, k ≤ (w + 1) / 2 → Folded N w old k ((List.range k).foldl (layerStep N w) old) := by
  intro k
  induction k with
  | zero => exact fun _ => ⟨rfl, fun j hj => absurd hj (Nat.not_lt_zero j), fun _ _ => rfl⟩
  | succ k ih =>
      intro hk
      rw [List.range_succ, List.foldl_append]
      exact (ih (by omega)).step hw hk

/-- **A round** puts the next layer in front. -/
theorem take_foldLayer {w : Nat} {s : List Bytes} (hw : w ≤ s.length) :
    (foldLayer N w s).take ((w + 1) / 2) = MerkleTree.nextLayer N.sha256 (s.take w) := by
  have h := folded_range (N := N) hw le_rfl
  have hlength : (MerkleTree.nextLayer N.sha256 (s.take w)).length = (w + 1) / 2 := by
    rw [MerkleTree.length_nextLayer, List.length_take, min_eq_left hw]
  apply List.ext_getElem?
  intro j
  by_cases hj : j < (w + 1) / 2
  · rw [List.getElem?_take_of_lt hj]
    exact h.written j hj
  · rw [List.getElem?_take_eq_none (by omega), List.getElem?_eq_none (by omega)]

theorem length_foldLayer {w : Nat} {s : List Bytes} (hw : w ≤ s.length) :
    (foldLayer N w s).length = s.length := (folded_range (N := N) hw le_rfl).length

/-- **The rounds** come down to what the layers come down to. -/
theorem take_foldLayers {fuel : Nat} : ∀ {w : Nat} {s : List Bytes}, 0 < w → w ≤ fuel →
    w ≤ s.length → (foldLayers N fuel w s).take 1 =
      (MerkleTree.nextLayer N.sha256)^[Nat.clog 2 w] (s.take w) := by
  induction fuel with
  | zero => intro w s hpos hfuel; omega
  | succ fuel ih =>
      intro w s hpos hfuel hw
      unfold foldLayers
      split
      · next hmore =>
        have hdepth : Nat.clog 2 w = Nat.clog 2 ((w + 1) / 2) + 1 := Nat.clog_of_two_le (by omega) hmore
        rw [ih (by omega) (by omega) (by rw [length_foldLayer hw]; omega), take_foldLayer hw, hdepth,
          Function.iterate_succ_apply]
      · next hone =>
        obtain rfl : w = 1 := by omega
        rw [Nat.clog_one_right]
        rfl

/-- **The root on board** is the root of the reference. -/
theorem foldLayers_root {leaves : List Bytes} (hne : leaves ≠ []) {tree : Merkle.Tree}
    (h : Merkle.buildTree N.toNode (leaves.map Hex.encode) = .ok tree) :
    Hex.encode ((foldLayers N leaves.length leaves.length leaves).getD 0 []) = tree.root := by
  have hpos : 0 < leaves.length := List.length_pos_iff.mpr hne
  have htake := take_foldLayers (N := N) hpos le_rfl (le_refl leaves.length)
  obtain ⟨tree', root, htree, hroot, hhex, -⟩ := Merkle.buildTree_eq N.toNode hne
  rw [htree] at h
  cases h
  rw [List.take_length, hroot] at htake
  have hfirst : (foldLayers N leaves.length leaves.length leaves).getD 0 [] = root := by
    rw [List.getD_eq_getElem?_getD, ← List.getElem?_take_of_lt Nat.zero_lt_one, htake]
    rfl
  rw [hfirst, hhex]

/-! ## The identifiers -/

/-- What the loop over sorted identifiers keeps: each of them once, in order, all of them plain. -/
theorem dedupe_ok {ids : List Bytes} : ∀ {kept out : List Bytes}, dedupe kept ids = .ok out →
    kept.Pairwise (· < ·) → ids.Pairwise (· ≤ ·) → (∀ a ∈ kept, ∀ b ∈ ids, a ≤ b) →
      out.Pairwise (· < ·) ∧ (∀ id, id ∈ out ↔ id ∈ kept ∨ id ∈ ids) ∧
        ∀ id ∈ ids, safe id = true := by
  induction ids with
  | nil =>
      intro kept out h hkept _ _
      cases h
      exact ⟨hkept, fun id => (or_iff_left List.not_mem_nil).symm,
        fun id hid => absurd hid List.not_mem_nil⟩
  | cons id rest ih =>
      intro kept out h hkept hids hbelow
      obtain ⟨hfirst, hrest⟩ := List.pairwise_cons.mp hids
      unfold dedupe at h
      split at h
      · cases h
      · next hsafe =>
        rw [Bool.not_eq_false] at hsafe
        split at h
        · next hlast =>
          -- a repeat: it is the last one kept
          have hmem : id ∈ kept := List.mem_of_getLast? hlast
          obtain ⟨hout, hsame, hall⟩ :=
            ih h hkept hrest fun a ha b hb => hbelow a ha b (List.mem_cons_of_mem id hb)
          refine ⟨hout, ?_, List.forall_mem_cons.mpr ⟨hsafe, hall⟩⟩
          intro other
          rw [hsame, List.mem_cons]
          constructor
          · rintro (hother | hother)
            · exact .inl hother
            · exact .inr (.inr hother)
          · rintro (hother | rfl | hother)
            · exact .inl hother
            · exact .inl hmem
            · exact .inr hother
        · next hlast =>
          -- a new one is above all that are kept, since it is not the last of them
          have habove : ∀ a ∈ kept, a < id := by
            intro a ha
            apply Std.lt_of_le_of_ne (hbelow a ha id List.mem_cons_self)
            rintro rfl
            have hne : kept ≠ [] := List.ne_nil_of_mem ha
            have hsplit := List.dropLast_append_getLast hne
            rw [← hsplit] at ha hkept
            rcases List.mem_append.mp ha with hinit | hend
            · have hlt := (List.pairwise_append.mp hkept).2.2 a hinit _ (List.mem_singleton_self _)
              exact hbelow _ (List.getLast_mem hne) a List.mem_cons_self hlt
            · rw [List.getLast?_eq_some_getLast hne, List.mem_singleton.mp hend] at hlast
              exact hlast rfl
          have hkept' : (kept ++ [id]).Pairwise (· < ·) := by
            apply List.pairwise_append.mpr
            refine ⟨hkept, List.pairwise_singleton _ _, fun a ha b hb => ?_⟩
            rw [List.mem_singleton.mp hb]
            exact habove a ha
          have hbelow' : ∀ a ∈ kept ++ [id], ∀ b ∈ rest, a ≤ b := by
            intro a ha b hb
            rcases List.mem_append.mp ha with ha | ha
            · exact hbelow a ha b (List.mem_cons_of_mem id hb)
            · rw [List.mem_singleton.mp ha]
              exact hfirst b hb
          obtain ⟨hout, hsame, hall⟩ := ih h hkept' hrest hbelow'
          refine ⟨hout, fun other => ?_, List.forall_mem_cons.mpr ⟨hsafe, hall⟩⟩
          rw [hsame, List.mem_append, List.mem_singleton, List.mem_cons, or_assoc]

theorem unitsOf_lt {a b : Bytes} (h : a < b) : unitsOf a < unitsOf b := by
  induction a generalizing b with
  | nil =>
      cases b with
      | nil => exact absurd h (List.lt_irrefl _)
      | cons y ys => exact List.nil_lt_cons _ _
  | cons x xs ih =>
      cases b with
      | nil => exact absurd h (List.not_lt_nil _)
      | cons y ys =>
          apply List.cons_lt_cons_iff.mpr
          rcases List.cons_lt_cons_iff.mp h with hlt | ⟨rfl, hlt⟩
          · exact .inl (UInt8.toUInt16_lt.mpr hlt)
          · exact .inr ⟨rfl, ih hlt⟩

/-- **The identifiers on board are the sorted set of the reference**, however they came. -/
theorem dedupe_sortIds {ids kept : List Bytes} (h : dedupe [] (ids.insertionSort (· ≤ ·)) = .ok kept)
    {bundleIds : List JsString} (hsame : ∀ id, id ∈ bundleIds ↔ id ∈ ids.map unitsOf) :
    Batch.sortIds (Batch.distinctIds bundleIds) = kept.map unitsOf := by
  obtain ⟨hkept, hmem, -⟩ := dedupe_ok h List.Pairwise.nil (List.pairwise_insertionSort _ _)
    fun a ha => absurd ha List.not_mem_nil
  have hstrict : (kept.map unitsOf).Pairwise (· < ·) :=
    List.pairwise_map.mpr (hkept.imp unitsOf_lt)
  have hnodup : (kept.map unitsOf).Nodup := hstrict.imp fun hlt heq => by
    rw [heq] at hlt
    exact List.lt_irrefl _ hlt
  have hset : (Batch.distinctIds bundleIds).Perm (kept.map unitsOf) := by
    apply (List.perm_ext_iff_of_nodup (eraseDups_nodup _) hnodup).mpr
    intro id
    rw [List.mem_eraseDups, hsame, List.mem_map, List.mem_map]
    simp only [hmem, List.not_mem_nil, false_or, List.mem_insertionSort]
  have hsorted : (Batch.sortIds (Batch.distinctIds bundleIds)).Pairwise (· ≤ ·) :=
    List.pairwise_insertionSort _ _
  have hperm := (List.perm_insertionSort (· ≤ ·) _).trans hset
  apply hperm.eq_of_pairwise _ hsorted (hstrict.imp fun hlt => List.le_of_lt hlt)
  intro a b _ _ hab hba
  exact List.le_antisymm hab hba

end Flight

end DtnCustody
