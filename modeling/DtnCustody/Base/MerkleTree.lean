/-
# DtnCustody.Base.MerkleTree — hash trees over byte strings, and what an accepted branch proves.

A digest is a byte string. Leaves are hashed behind a zero byte and nodes behind a one byte, and an
odd layer pairs its last digest with itself. `climb` folds a branch of arbitrary byte strings, with
the side of each read off an index.

`climb_binds` is the result: if climbing from a leaf's digest reaches the root, at an index within
the tree, then the leaf at that index has that digest. The branch may have any length and its
entries any length; that the hash tells leaves from nodes fixes the first (`length_of_climb`), that
no output is the front or the back of another fixes the second.

Nothing here names what the leaves are.
-/
import DtnCustody.Base.Text
import Mathlib.Data.List.Induction
import Mathlib.Logic.Function.Iterate

namespace DtnCustody.Base.MerkleTree

/-- No two inputs collide, and no output starts or ends another. The second is what outputs of one
length give; it is asked for in this form because outputs of one length cannot be injective. -/
structure CollisionFree (H : Bytes → Bytes) : Prop where
  front : ∀ {a b r s : Bytes}, H a ++ r = H b ++ s → a = b ∧ r = s
  back : ∀ {a b r s : Bytes}, r ++ H a = s ++ H b → a = b ∧ r = s

variable {H : Bytes → Bytes}

theorem CollisionFree.injective (hH : CollisionFree H) : Function.Injective H := fun _ _ h =>
  (hH.front (congrArg (· ++ []) h)).1

variable (H)

def leaf (b : Bytes) : Bytes := H (0x00 :: b)

def node (l r : Bytes) : Bytes := H (0x01 :: (l ++ r))

def nextLayer : List Bytes → List Bytes
  | [] => []
  | [x] => [node H x x]
  | x :: y :: rest => node H x y :: nextLayer rest

/-- One level of a branch: bit `0` of the index says on which side the running digest stands. -/
def climbStep (k : Nat) (acc s : Bytes) : Bytes := if k % 2 = 1 then node H s acc else node H acc s

def climb : (k : Nat) → (acc : Bytes) → List Bytes → Bytes
  | _, acc, [] => acc
  | k, acc, s :: rest => climb (k / 2) (climbStep H k acc s) rest

/-- The siblings of position `k` in the layers below the root. -/
def branch : (k levels : Nat) → List Bytes → List Bytes
  | _, 0, _ => []
  | k, levels + 1, L =>
      L.getD (if k % 2 = 1 then k - 1 else k + 1) (L.getD k []) :: branch (k / 2) levels (nextLayer H L)

variable {H}

/-! ## Layers -/

theorem length_nextLayer (L : List Bytes) : (nextLayer H L).length = (L.length + 1) / 2 := by
  induction L using nextLayer.induct with
  | case1 => rfl
  | case2 x => simp [nextLayer]
  | case3 x y rest ih =>
      rw [nextLayer, List.length_cons, ih, List.length_cons, List.length_cons]
      omega

/-- Position `j` of a layer is the node over positions `2j` and `2j + 1` of the one below, or over
`2j` twice where that is the last. -/
theorem getElem?_nextLayer (L : List Bytes) (j : Nat) {l : Bytes} (hl : L[2 * j]? = some l) :
    (nextLayer H L)[j]? = some (node H l (L.getD (2 * j + 1) l)) := by
  induction L using nextLayer.induct generalizing j with
  | case1 => cases hl
  | case2 x =>
      cases j with
      | zero => cases hl; rfl
      | succ j => exact absurd hl (by simp)
  | case3 x y rest ih =>
      cases j with
      | zero => cases hl; rfl
      | succ j =>
          rw [nextLayer, List.getElem?_cons_succ]
          have h2 : 2 * (j + 1) = 2 * j + 1 + 1 := by ring
          rw [h2, List.getElem?_cons_succ, List.getElem?_cons_succ] at hl
          rw [ih j hl, h2]
          rfl

/-- Layer `l` has an element for each block of `2 ^ l` leaves, the last one perhaps not full. -/
theorem length_iterate_le (L : List Bytes) (l : Nat) :
    ∀ {m : Nat}, L.length ≤ m * 2 ^ l → ((nextLayer H)^[l] L).length ≤ m := by
  induction l with
  | zero => intro m h; rw [pow_zero, mul_one] at h; exact h
  | succ l ih =>
      intro m h
      rw [Function.iterate_succ_apply', length_nextLayer]
      have hl : ((nextLayer H)^[l] L).length ≤ 2 * m := by
        apply ih
        calc L.length ≤ m * 2 ^ (l + 1) := h
          _ = 2 * m * 2 ^ l := by ring
      omega

/-- The sibling a branch has at a level, in the layer of that level. -/
def sibling (k : Nat) (layer : List Bytes) : Bytes :=
  layer.getD (if k % 2 = 1 then k - 1 else k + 1) (layer.getD k [])

/-- A branch one level longer has the sibling in the layer it reaches. -/
theorem branch_succ (levels : Nat) : ∀ (k : Nat) (L : List Bytes),
    branch H k (levels + 1) L =
      branch H k levels L ++ [sibling (k / 2 ^ levels) ((nextLayer H)^[levels] L)] := by
  induction levels with
  | zero =>
      intro k L
      rw [pow_zero, Nat.div_one]
      rfl
  | succ levels ih =>
      intro k L
      rw [branch, ih, branch, List.cons_append, Nat.div_div_eq_div_mul, ← pow_succ']
      rfl

/-- Every element of a layer is a node over two elements of the one below. -/
theorem mem_nextLayer {L : List Bytes} {d : Bytes} (h : d ∈ nextLayer H L) :
    ∃ l ∈ L, ∃ r ∈ L, d = node H l r := by
  induction L using nextLayer.induct with
  | case1 => cases h
  | case2 x =>
      rw [nextLayer, List.mem_singleton] at h
      exact ⟨x, by simp, x, by simp, h⟩
  | case3 x y rest ih =>
      rw [nextLayer, List.mem_cons] at h
      rcases h with h | h
      · exact ⟨x, by simp, y, by simp, h⟩
      · obtain ⟨l, hl, r, hr, hd⟩ := ih h
        exact ⟨l, by simp [hl], r, by simp [hr], hd⟩

/-- All elements are outputs of the hash. -/
def Digests (H : Bytes → Bytes) (L : List Bytes) : Prop := ∀ d ∈ L, ∃ x, d = H x

theorem digests_nextLayer (L : List Bytes) : Digests H (nextLayer H L) := by
  intro d hd
  obtain ⟨l, _, r, _, h⟩ := mem_nextLayer hd
  exact ⟨_, h⟩

theorem digests_iterate {L : List Bytes} (h : Digests H L) (n : Nat) :
    Digests H ((nextLayer H)^[n] L) := by
  cases n with
  | zero => exact h
  | succ n =>
      rw [Function.iterate_succ_apply']
      exact digests_nextLayer _

/-! ## What an accepted branch proves -/

/-- Climbing an extended branch is one step after climbing the branch. -/
theorem climb_append (t : List Bytes) (s : Bytes) :
    ∀ (k : Nat) (acc : Bytes), ∃ j, climb H k acc (t ++ [s]) = climbStep H j (climb H k acc t) s := by
  induction t with
  | nil => intro k acc; exact ⟨k, rfl⟩
  | cons x t ih => intro k acc; exact ih (k / 2) (climbStep H k acc x)

theorem climbStep_node (k : Nat) (acc s : Bytes) : ∃ x, climbStep H k acc s = H (0x01 :: x) := by
  unfold climbStep
  split
  · exact ⟨_, rfl⟩
  · exact ⟨_, rfl⟩

theorem climb_digest {acc : Bytes} (hacc : ∃ x, acc = H x) (t : List Bytes) (k : Nat) :
    ∃ x, climb H k acc t = H x := by
  induction t generalizing k acc with
  | nil => exact hacc
  | cons s t ih =>
      obtain ⟨x, hx⟩ := climbStep_node (H := H) k acc s
      exact ih ⟨_, hx⟩ (k / 2)

/-- A node over two digests is over the running one, on the side it stands. -/
theorem climbStep_eq_node (hH : CollisionFree H) {k : Nat} {a l r s : Bytes} {x y z : Bytes}
    (ha : a = H x) (hl : l = H y) (hr : r = H z) (h : climbStep H k a s = node H l r) :
    a = if k % 2 = 1 then r else l := by
  unfold climbStep at h
  split at h
  · rename_i hk
    have hcat := hH.injective h
    simp only [List.cons.injEq, true_and] at hcat
    rw [ha, hr] at hcat
    rw [if_pos hk, ha, hr, (hH.back hcat).1]
  · rename_i hk
    have hcat := hH.injective h
    simp only [List.cons.injEq, true_and] at hcat
    rw [ha, hl] at hcat
    rw [if_neg hk, ha, hl, (hH.front hcat).1]

/-- **The length of an accepted branch is the height climbed**, unless a leaf is a node. -/
theorem length_of_climb (hH : CollisionFree H) {L : List Bytes} (hL : Digests H L) {acc : Bytes}
    (hacc : ∃ x, acc = H x) (sibs : List Bytes) :
    ∀ {levels k : Nat}, climb H k acc sibs ∈ (nextLayer H)^[levels] L →
      sibs.length = levels ∨ (∃ x, acc = H (0x01 :: x)) ∨ ∃ d ∈ L, ∃ x, d = H (0x01 :: x) := by
  induction sibs using List.reverseRecOn with
  | nil =>
      intro levels k h
      cases levels with
      | zero => exact Or.inl rfl
      | succ levels =>
          rw [Function.iterate_succ_apply'] at h
          obtain ⟨l, _, r, _, hd⟩ := mem_nextLayer h
          exact Or.inr (Or.inl ⟨_, hd⟩)
  | append_singleton t s ih =>
      intro levels k h
      obtain ⟨j, hj⟩ := climb_append (H := H) t s k acc
      rw [hj] at h
      cases levels with
      | zero => exact Or.inr (Or.inr ⟨_, h, climbStep_node j _ s⟩)
      | succ levels =>
          rw [Function.iterate_succ_apply'] at h
          obtain ⟨l, hl, r, hr, hd⟩ := mem_nextLayer h
          obtain ⟨x, hx⟩ := climb_digest hacc t k
          obtain ⟨y, hy⟩ := digests_iterate hL levels l hl
          obtain ⟨z, hz⟩ := digests_iterate hL levels r hr
          have hpeel := climbStep_eq_node hH hx hy hz hd
          have hmem : climb H k acc t ∈ (nextLayer H)^[levels] L := by
            rw [hpeel]
            split
            · exact hr
            · exact hl
          rcases ih hmem with hlen | hrest
          · exact Or.inl (by rw [List.length_append, hlen]; rfl)
          · exact Or.inr hrest

theorem exists_left {L : List Bytes} {k : Nat} (hk : k < L.length) :
    ∃ l, L[2 * (k / 2)]? = some l := ⟨_, List.getElem?_eq_getElem (by omega)⟩

/-- Climbing as many levels as there are reaches the root only from the digest at the index. -/
theorem climb_position (hH : CollisionFree H) (sibs : List Bytes) :
    ∀ {L : List Bytes} {acc root : Bytes} {k : Nat}, Digests H L → (∃ x, acc = H x) → k < L.length →
      (nextLayer H)^[sibs.length] L = [root] → climb H k acc sibs = root → L[k]? = some acc := by
  induction sibs with
  | nil =>
      intro L acc root k _ _ hk hroot hclimb
      have hL : L = [root] := hroot
      have hacc : acc = root := hclimb
      rw [hL, List.length_singleton] at hk
      rw [hL, hacc, show k = 0 by omega]
      rfl
  | cons s rest ih =>
      intro L acc root k hL hacc hk hroot hclimb
      obtain ⟨x, hx⟩ := climbStep_node (H := H) k acc s
      have hnext : (nextLayer H L)[k / 2]? = some (climbStep H k acc s) := by
        refine ih (digests_nextLayer L) ⟨_, hx⟩ ?_ hroot hclimb
        rw [length_nextLayer]
        omega
      obtain ⟨l, hl⟩ : ∃ l, L[2 * (k / 2)]? = some l := exists_left hk
      rw [getElem?_nextLayer L (k / 2) hl, Option.some.injEq] at hnext
      have hmem : L.getD (2 * (k / 2) + 1) l ∈ L := by
        rw [List.getD_eq_getElem?_getD]
        cases hr : L[2 * (k / 2) + 1]? with
        | none => exact List.mem_of_getElem? hl
        | some r => exact List.mem_of_getElem? hr
      obtain ⟨a, ha⟩ := hacc
      obtain ⟨y, hy⟩ := hL _ (List.mem_of_getElem? hl)
      obtain ⟨z, hz⟩ := hL _ hmem
      have hside := climbStep_eq_node hH ha hy hz hnext.symm
      split at hside
      · rename_i hodd
        have hk' : k = 2 * (k / 2) + 1 := by omega
        rw [hside, ← hk', List.getD_eq_getElem?_getD, List.getElem?_eq_getElem hk]
        rfl
      · rename_i heven
        have hk' : k = 2 * (k / 2) := by omega
        rw [hside, ← hl, ← hk']

/-- **An accepted branch binds a leaf to its place**: whatever climbs from the digest of `b` to the
root of a tree over leaves, at an index within it, the leaf at that index has the digest of `b`. -/
theorem climb_binds (hH : CollisionFree H) {chunks : List Bytes} {root b : Bytes}
    {sibs : List Bytes} {levels k : Nat} (hroot : (nextLayer H)^[levels] (chunks.map (leaf H)) = [root])
    (hclimb : climb H k (leaf H b) sibs = root) (hk : k < chunks.length) : chunks[k]? = some b := by
  have hL : Digests H (chunks.map (leaf H)) := by
    intro d hd
    obtain ⟨c, _, rfl⟩ := List.mem_map.mp hd
    exact ⟨_, rfl⟩
  have tag : ∀ {c x : Bytes}, leaf H c ≠ H (0x01 :: x) := by
    intro c x h
    have := hH.injective h
    simp at this
  have hmem : climb H k (leaf H b) sibs ∈ (nextLayer H)^[levels] (chunks.map (leaf H)) := by
    rw [hroot, hclimb]
    exact List.mem_singleton.mpr rfl
  rcases length_of_climb hH hL ⟨_, rfl⟩ sibs hmem with hlen | ⟨x, hx⟩ | ⟨d, hd, x, hx⟩
  · have hpos := climb_position hH sibs hL ⟨_, rfl⟩ (by rw [List.length_map]; exact hk)
      (hlen ▸ hroot) hclimb
    rw [List.getElem?_map, Option.map_eq_some_iff] at hpos
    obtain ⟨c, hc, heq⟩ := hpos
    have hcb := hH.injective heq
    rw [List.cons.injEq] at hcb
    rw [hc, hcb.2]
  · exact absurd hx tag
  · obtain ⟨c, _, rfl⟩ := List.mem_map.mp hd
    exact absurd hx tag

/-- The branch of a position climbs to the root. -/
theorem climb_branch {levels : Nat} :
    ∀ {L : List Bytes} {root d : Bytes} {k : Nat}, (nextLayer H)^[levels] L = [root] →
      L[k]? = some d → climb H k d (branch H k levels L) = root := by
  induction levels with
  | zero =>
      intro L root d k hroot hd
      have hL : L = [root] := hroot
      rw [hL] at hd
      cases k with
      | zero => cases hd; rfl
      | succ k => exact absurd hd (by simp)
  | succ levels ih =>
      intro L root d k hroot hd
      rw [branch, climb]
      refine ih hroot ?_
      have hk : k < L.length := (List.getElem?_eq_some_iff.mp hd).1
      obtain ⟨l, hl⟩ : ∃ l, L[2 * (k / 2)]? = some l := exists_left hk
      rw [getElem?_nextLayer L (k / 2) hl, climbStep, Option.some.injEq]
      by_cases hodd : k % 2 = 1
      · have hk' : 2 * (k / 2) + 1 = k := by omega
        have hsib : k - 1 = 2 * (k / 2) := by omega
        simp only [if_pos hodd, hk', hsib, List.getD_eq_getElem?_getD, hd, hl, Option.getD_some]
      · have hk' : 2 * (k / 2) = k := by omega
        rw [hk', hd, Option.some.injEq] at hl
        simp only [if_neg hodd, hk', hl, List.getD_eq_getElem?_getD, hd, Option.getD_some]

/-! ## Equal roots -/

/-- No output is empty. -/
theorem CollisionFree.ne_nil (hH : CollisionFree H) (a : Bytes) : H a ≠ [] := by
  intro h
  have hall : ∀ b, a = b := fun b =>
    (hH.front (show H a ++ H b = H b ++ [] by rw [h, List.append_nil, List.nil_append])).1
  have hnil := hall []
  have hone := hall [0]
  rw [hnil] at hone
  cases hone

/-- A digest, or nothing at all. -/
def Blank (H : Bytes → Bytes) (d : Bytes) : Prop := d = [] ∨ ∃ x, d = H x

/-- Two digests are not one, and not none. -/
theorem pair_eq (hH : CollisionFree H) {a b : Bytes} {c d : Bytes} (hc : Blank H c) (hd : Blank H d)
    (h : H a ++ H b = c ++ d) : H a = c ∧ H b = d := by
  rcases hc with rfl | ⟨c, rfl⟩
  · rw [List.nil_append] at h
    rcases hd with rfl | ⟨d, rfl⟩
    · exact absurd (List.append_eq_nil_iff.mp h).1 (hH.ne_nil a)
    · rw [← List.append_nil (H d)] at h
      exact absurd (hH.front h).2 (hH.ne_nil b)
  · obtain ⟨rfl, hrest⟩ := hH.front h
    exact ⟨rfl, hrest⟩

/-- A layer over digests is the layer over no other list of the same length. -/
theorem nextLayer_inj (hH : CollisionFree H) {L : List Bytes} :
    ∀ {M : List Bytes}, Digests H L → (∀ d ∈ M, Blank H d) → L.length = M.length →
      nextLayer H L = nextLayer H M → L = M := by
  have hnode : ∀ {l r l' r' : Bytes}, (∃ x, l = H x) → (∃ x, r = H x) → Blank H l' → Blank H r' →
      node H l r = node H l' r' → l = l' ∧ r = r' := by
    rintro _ _ l' r' ⟨a, rfl⟩ ⟨b, rfl⟩ hl hr h
    have hpair := hH.injective h
    rw [List.cons.injEq] at hpair
    exact pair_eq hH hl hr hpair.2
  induction L using nextLayer.induct with
  | case1 =>
      intro M _ _ hlen _
      exact (List.length_eq_zero_iff.mp hlen.symm).symm
  | case2 x =>
      intro M hL hM hlen h
      obtain ⟨y, rfl⟩ := List.length_eq_one_iff.mp hlen.symm
      have hx := hL x List.mem_cons_self
      have hy := hM y List.mem_cons_self
      rw [nextLayer, nextLayer, List.cons.injEq] at h
      rw [(hnode hx hx hy hy h.1).1]
  | case3 x y rest ih =>
      intro M hL hM hlen h
      match M, hlen with
      | x' :: y' :: rest', hlen =>
          rw [nextLayer, nextLayer, List.cons.injEq] at h
          simp only [Digests, List.forall_mem_cons] at hL hM
          have hrest := ih hL.2.2 hM.2.2 (by simpa using hlen) h.2
          obtain ⟨hx, hy⟩ := hnode hL.1 hL.2.1 hM.1 hM.2.1 h.1
          rw [hx, hy, hrest]

/-- **Over as many leaves, another root**: two lists of one length with one root are one list. -/
theorem root_inj (hH : CollisionFree H) (levels : Nat) :
    ∀ {L M : List Bytes}, Digests H L → (∀ d ∈ M, Blank H d) → L.length = M.length →
      (nextLayer H)^[levels] L = (nextLayer H)^[levels] M → L = M := by
  induction levels with
  | zero =>
      intro L M _ _ _ h
      exact h
  | succ n ih =>
      intro L M hL hM hlen h
      refine nextLayer_inj hH hL hM hlen (ih (digests_nextLayer L) ?_ ?_ h)
      · exact fun d hd => .inr (digests_nextLayer M d hd)
      · rw [length_nextLayer, length_nextLayer, hlen]

end DtnCustody.Base.MerkleTree
