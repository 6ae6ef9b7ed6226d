/-
# DtnCustody.Agent.Merkle — `agent/lib/merkle.mjs`: the hash tree over hexadecimal strings.

Leaves are hashed behind a zero byte, inner nodes behind a one byte, and an odd layer pairs its last
node with itself. A proof is the list of siblings alone: which side each stands on is read off the
index the prover claims, one bit a level, so `verifyProof` looks at no more bits than the branch is
long.

The strings of the source stand for byte strings: its layers are the layers of `MerkleTree` written
in hexadecimal (`nextLayer_encode`), the root of `buildTree` is reached after some number of layers
(`buildTree_root`), and whatever `verifyProof` accepts is a climb (`verifyProof_climbs`). A sibling
of any type is some bytes, or an exception. So a proof is bound to the place it is checked at
(`proof_binds_place`).
-/
import DtnCustody.Base.Armor
import DtnCustody.Base.MerkleTree
import DtnCustody.Js.Sample
import DtnCustody.Json.Value
import Mathlib.Data.List.GetD
import Mathlib.Data.Nat.Log

namespace DtnCustody

open Base Js

/-- `x % 2 === 1`. -/
def Js.JsNum.isOdd : JsNum → Bool
  | .fin q => decide (q.den = 1 ∧ 0 < q.num ∧ q.num % 2 = 1)
  | _ => false

/-- `Math.floor(x / 2)`. -/
def Js.JsNum.half : JsNum → JsNum
  | .fin q => .fin ⌊q / 2⌋
  | x => x

namespace Merkle

section Tree

variable (N : Node)

def leafHash (bytes : Bytes) : JsString := Hex.encode (N.sha256 (0x00 :: bytes))

/-- `nodeHash` on two hexadecimal strings. -/
def nodeHash (left right : JsString) : JsString :=
  Hex.encode (N.sha256 (0x01 :: Hex.decode left ++ Hex.decode right))

/-- One layer from the one below. -/
def nextLayer : List JsString → List JsString
  | [] => []
  | [x] => [nodeHash N x x]
  | x :: y :: rest => nodeHash N x y :: nextLayer rest

/-- The layers from the leaves up. Every layer above the first is shorter, so `fuel` of the number
of leaves is never used up. -/
def layersFrom : (fuel : Nat) → List JsString → List (List JsString)
  | 0, layer => [layer]
  | fuel + 1, layer =>
      if layer.length ≤ 1 then [layer] else layer :: layersFrom fuel (nextLayer N layer)

structure Tree where
  root : JsString
  layers : List (List JsString)
  deriving DecidableEq, Repr

def buildTree (leafHexes : List JsString) : Outcome Tree :=
  if leafHexes = [] then .error (.error "buildTree: need at least one leaf")
  else
    let layers := layersFrom N leafHexes.length leafHexes
    .ok { root := ((layers.getLastD []).headD []), layers }

/-- The siblings of position `index` in the layers below the root. -/
def proofIn : (index : Nat) → List (List JsString) → List JsString
  | _, [] => []
  | _, [_] => []
  | index, layer :: next :: rest =>
      let sibling := if index % 2 = 1 then index - 1 else index + 1
      layer.getD sibling (layer.getD index []) :: proofIn (index / 2) (next :: rest)

def proof (tree : Tree) (index : Nat) : List JsString := proofIn index tree.layers

end Tree

section Verify

variable (H : Host)

/-- `Buffer.from(v, "hex")`. -/
def un (v : Json) : Outcome Bytes := JsonVal.toBuffer H Hex.decode (some v)

/-- One level of `verifyProof`: the running hash with a sibling. -/
def climbStep (idx : JsNum) (acc : JsString) (sibling : Json) : Outcome JsString := do
  if idx.isOdd then
    let left ← un H sibling
    return Hex.encode (H.sha256 (0x01 :: left ++ Hex.decode acc))
  else
    let right ← un H sibling
    return Hex.encode (H.sha256 (0x01 :: Hex.decode acc ++ right))

def climb (idx : JsNum) (acc : JsString) : List Json → Outcome JsString
  | [] => .ok acc
  | sibling :: rest => do
      let acc ← climbStep H idx acc sibling
      climb idx.half acc rest

/-- The strings that iterating over a string gives: one for each code point. -/
def codePoints : JsString → List JsString
  | [] => []
  | [u] => [[u]]
  | u :: v :: rest =>
      if isHighSurrogate u && isLowSurrogate v then [u, v] :: codePoints rest
      else [u] :: codePoints (v :: rest)

/-- `for (… of v)`. -/
def iterate : JsonVal → Outcome (List Json)
  | some (.arr xs) => .ok xs
  | some (.str s) => .ok ((codePoints s).map .str)
  | _ => .error .typeError

/-- The index is first looked at when there is a sibling. -/
def fold (leafHex : JsString) (branch : List Json) (index : JsonVal) : Outcome JsString :=
  match branch with
  | [] => .ok leafHex
  | _ => do
      let idx ← (← JsonVal.toPrim H.toNode index).toNumber H.toNode
      climb H idx leafHex branch

def verifyProof (leafHex : JsString) (branch index root : JsonVal) : Outcome Bool := do
  let siblings ← iterate branch
  let acc ← fold H leafHex siblings index
  return JsonVal.strictEq (some (.str acc)) root

end Verify

/-! ## Building -/

section Tree

variable (N : Node)

theorem leafHash_eq (b : Bytes) : leafHash N b = Hex.encode (MerkleTree.leaf N.sha256 b) := rfl

theorem nodeHash_encode (l r : Bytes) :
    nodeHash N (Hex.encode l) (Hex.encode r) = Hex.encode (MerkleTree.node N.sha256 l r) := by
  rw [nodeHash, Hex.decode_encode, Hex.decode_encode]
  rfl

theorem nextLayer_encode (L : List Bytes) :
    nextLayer N (L.map Hex.encode) = (MerkleTree.nextLayer N.sha256 L).map Hex.encode := by
  induction L using MerkleTree.nextLayer.induct with
  | case1 => rfl
  | case2 x => exact congrArg (fun h => [h]) (nodeHash_encode N x x)
  | case3 x y rest ih =>
      show nodeHash N _ _ :: nextLayer N (rest.map Hex.encode) = _
      rw [ih, nodeHash_encode]
      rfl

theorem layersFrom_ne_nil (fuel : Nat) (layer : List JsString) : layersFrom N fuel layer ≠ [] := by
  cases fuel with
  | zero => exact List.cons_ne_nil _ _
  | succ fuel =>
      rw [layersFrom]
      split
      · exact List.cons_ne_nil _ _
      · exact List.cons_ne_nil _ _

/-- With fuel for as many layers as there are elements, the last layer is reached, and the siblings
on the way are those of the tree over bytes. -/
theorem layersFrom_spec (fuel : Nat) :
    ∀ {L : List Bytes}, L ≠ [] → L.length ≤ fuel → ∃ root,
      (MerkleTree.nextLayer N.sha256)^[Nat.clog 2 L.length] L = [root] ∧
        (layersFrom N fuel (L.map Hex.encode)).getLastD [] = [Hex.encode root] ∧
        ∀ k, proofIn k (layersFrom N fuel (L.map Hex.encode)) =
          (MerkleTree.branch N.sha256 k (Nat.clog 2 L.length) L).map Hex.encode := by
  induction fuel with
  | zero => intro L hL hlen; exact absurd (List.length_eq_zero_iff.mp (by omega)) hL
  | succ fuel ih =>
      intro L hL hlen
      rw [layersFrom, List.length_map]
      split
      · rename_i hone
        obtain ⟨root, rfl⟩ : ∃ root, L = [root] := by
          have hpos := List.length_pos_iff.mpr hL
          exact List.length_eq_one_iff.mp (by omega)
        exact ⟨root, rfl, rfl, fun _ => rfl⟩
      · rename_i hmany
        have hnext := MerkleTree.length_nextLayer (H := N.sha256) L
        have hlevels : Nat.clog 2 L.length =
            Nat.clog 2 (MerkleTree.nextLayer N.sha256 L).length + 1 := by
          rw [hnext, Nat.clog_of_two_le (by omega) (by omega)]
          rfl
        obtain ⟨root, hroot, hlast, hproof⟩ := @ih (MerkleTree.nextLayer N.sha256 L)
          (List.length_pos_iff.mp (by omega)) (by omega)
        rw [nextLayer_encode, hlevels]
        cases hl : layersFrom N fuel ((MerkleTree.nextLayer N.sha256 L).map Hex.encode) with
        | nil => exact absurd hl (layersFrom_ne_nil N _ _)
        | cons a rest =>
            refine ⟨root, hroot, ?_, ?_⟩
            · rw [hl, List.getLastD_cons] at hlast
              rw [List.getLastD_cons, List.getLastD_cons, hlast]
            · intro k
              have hown : (L.map Hex.encode).getD k [] = Hex.encode (L.getD k []) :=
                List.getD_map L [] Hex.encode
              rw [proofIn, ← hl, hproof, hown, List.getD_map]
              rfl

/-- **The tree over leaves**: `buildTree` returns, its root is what as many layers as the leaves need
come down to, and its proofs are the branches of as many levels. -/
theorem buildTree_eq {L : List Bytes} (hL : L ≠ []) : ∃ tree root,
    buildTree N (L.map Hex.encode) = .ok tree ∧
      (MerkleTree.nextLayer N.sha256)^[Nat.clog 2 L.length] L = [root] ∧ tree.root = Hex.encode root ∧
        ∀ k, proof tree k =
          (MerkleTree.branch N.sha256 k (Nat.clog 2 L.length) L).map Hex.encode := by
  obtain ⟨root, hroot, hlast, hproof⟩ := layersFrom_spec N L.length hL le_rfl
  refine ⟨_, root, if_neg (mt List.map_eq_nil_iff.mp hL), hroot, ?_, ?_⟩
  · show ((layersFrom N (L.map Hex.encode).length (L.map Hex.encode)).getLastD []).headD [] = _
    rw [List.length_map, hlast]
    rfl
  · intro k
    show proofIn k (layersFrom N (L.map Hex.encode).length (L.map Hex.encode)) = _
    rw [List.length_map, hproof]

/-- The root of a tree over leaves is what some number of layers comes down to, and its proofs are
the branches of as many levels. -/
theorem buildTree_root {L : List Bytes} {tree : Tree}
    (h : buildTree N (L.map Hex.encode) = .ok tree) : ∃ levels root,
      (MerkleTree.nextLayer N.sha256)^[levels] L = [root] ∧ tree.root = Hex.encode root ∧
        ∀ k, proof tree k = (MerkleTree.branch N.sha256 k levels L).map Hex.encode := by
  have hL : L ≠ [] := by
    rintro rfl
    cases h
  obtain ⟨tree', root, htree, hroot⟩ := buildTree_eq N hL
  rw [htree] at h
  cases h
  exact ⟨_, root, hroot⟩

end Tree

/-! ## Verifying -/

theorem isOdd_natCast (k : Nat) : JsNum.isOdd (.fin ((k : Int) : ℚ)) = decide (k % 2 = 1) := by
  have hden : ((k : Int) : ℚ).den = 1 := Rat.den_intCast _
  have hnum : ((k : Int) : ℚ).num = k := Rat.num_intCast _
  show decide (_ ∧ _ ∧ _) = _
  rw [hden, hnum]
  apply decide_eq_decide.mpr
  omega

theorem half_natCast (k : Nat) :
    JsNum.half (.fin ((k : Int) : ℚ)) = .fin (((k / 2 : Nat) : Int) : ℚ) := by
  have hfloor : ⌊((k : Int) : ℚ) / 2⌋ = ((k / 2 : Nat) : Int) := by
    exact_mod_cast Rat.floor_intCast_div_natCast k 2
  rw [JsNum.half, hfloor]

variable (H : Host)

/-- One level, with a sibling that is some bytes. -/
theorem climbStep_ok {k : Nat} {a : Bytes} {sibling : Json} {r : JsString}
    (h : climbStep H (.fin ((k : Int) : ℚ)) (Hex.encode a) sibling = .ok r) :
    ∃ s, un H sibling = .ok s ∧ r = Hex.encode (MerkleTree.climbStep H.sha256 k a s) := by
  unfold climbStep at h
  rw [isOdd_natCast] at h
  by_cases hk : k % 2 = 1
  · simp only [hk, decide_true, if_true] at h
    obtain ⟨s, hs, h⟩ := Outcome.bind_eq_ok.mp h
    cases h
    refine ⟨s, hs, ?_⟩
    rw [MerkleTree.climbStep, if_pos hk, Hex.decode_encode]
    rfl
  · simp only [hk, decide_false] at h
    obtain ⟨s, hs, h⟩ := Outcome.bind_eq_ok.mp h
    cases h
    refine ⟨s, hs, ?_⟩
    rw [MerkleTree.climbStep, if_neg hk, Hex.decode_encode]
    rfl

theorem climb_ok {branch : List Json} :
    ∀ {k : Nat} {a : Bytes} {r : JsString},
      climb H (.fin ((k : Int) : ℚ)) (Hex.encode a) branch = .ok r →
        ∃ sibs, r = Hex.encode (MerkleTree.climb H.sha256 k a sibs) := by
  induction branch with
  | nil => intro k a r h; cases h; exact ⟨[], rfl⟩
  | cons sibling rest ih =>
      intro k a r h
      obtain ⟨acc, hacc, h⟩ := Outcome.bind_eq_ok.mp h
      obtain ⟨s, _, rfl⟩ := climbStep_ok H hacc
      rw [half_natCast] at h
      obtain ⟨sibs, hsibs⟩ := ih h
      exact ⟨s :: sibs, hsibs⟩

/-- **What `verifyProof` accepts at a natural index is a climb to the root.** -/
theorem verifyProof_climbs {a : Bytes} {branch root : JsonVal} {k : Nat}
    (h : verifyProof H (Hex.encode a) branch (some (.int k)) root = .ok true) :
    ∃ sibs, root = some (.str (Hex.encode (MerkleTree.climb H.sha256 k a sibs))) := by
  obtain ⟨siblings, _, h⟩ := Outcome.bind_eq_ok.mp h
  obtain ⟨acc, hacc, h⟩ := Outcome.bind_eq_ok.mp h
  have hroot : root = some (.str acc) := by
    simp only [Outcome.pure_eq_ok, Except.ok.injEq] at h
    unfold JsonVal.strictEq at h
    split at h <;> simp_all
  have hclimb : ∃ sibs, acc = Hex.encode (MerkleTree.climb H.sha256 k a sibs) := by
    unfold fold at hacc
    split at hacc
    · cases hacc
      exact ⟨[], rfl⟩
    · exact climb_ok H hacc
  obtain ⟨sibs, rfl⟩ := hclimb
  exact ⟨sibs, hroot⟩

theorem un_encode (s : Bytes) : un H (.str (Hex.encode s)) = .ok s := by
  show Except.ok (Hex.decode (Hex.encode s)) = _
  rw [Hex.decode_encode]

theorem climb_encode (sibs : List Bytes) :
    ∀ (k : Nat) (a : Bytes),
      climb H (.fin ((k : Int) : ℚ)) (Hex.encode a) (sibs.map fun s => .str (Hex.encode s)) =
        .ok (Hex.encode (MerkleTree.climb H.sha256 k a sibs)) := by
  induction sibs with
  | nil => intro k a; rfl
  | cons s rest ih =>
      intro k a
      have hstep : climbStep H (.fin ((k : Int) : ℚ)) (Hex.encode a) (.str (Hex.encode s)) =
          .ok (Hex.encode (MerkleTree.climbStep H.sha256 k a s)) := by
        rw [climbStep, isOdd_natCast, un_encode, MerkleTree.climbStep, Hex.decode_encode]
        by_cases hk : k % 2 = 1
        · simp only [hk, decide_true, if_true]
          rfl
        · simp only [hk, decide_false, if_false]
          rfl
      rw [List.map_cons, climb, hstep, half_natCast]
      exact ih (k / 2) _

/-- **The branch of a position is accepted there.** -/
theorem verifyProof_branch {levels k : Nat} {L : List Bytes} {a root : Bytes}
    (hroot : (MerkleTree.nextLayer H.sha256)^[levels] L = [root]) (ha : L[k]? = some a) :
    verifyProof H (Hex.encode a)
      (some (.arr ((MerkleTree.branch H.sha256 k levels L).map fun s => .str (Hex.encode s))))
      (some (.int k)) (some (.str (Hex.encode root))) = .ok true := by
  have hfold : fold H (Hex.encode a)
      ((MerkleTree.branch H.sha256 k levels L).map fun s => .str (Hex.encode s)) (some (.int k)) =
        .ok (Hex.encode root) := by
    have hclimb := MerkleTree.climb_branch hroot ha
    cases hsibs : MerkleTree.branch H.sha256 k levels L with
    | nil =>
        rw [hsibs] at hclimb
        rw [← hclimb]
        rfl
    | cons s rest =>
        rw [← hclimb, hsibs]
        exact climb_encode H (s :: rest) k a
  rw [verifyProof]
  show (fold H _ _ _ >>= fun acc => _) = _
  rw [hfold]
  show Except.ok (JsonVal.strictEq (some (.str (Hex.encode root))) (some (.str (Hex.encode root)))) = _
  rw [JsonVal.strictEq, beq_self_eq_true]

/-! ## Place -/

variable {H}

/-- **A proof binds a leaf to its place**: at an index of the tree no branch, of whatever length and
entries, verifies but for the leaf there, and the branch of the tree verifies for it. -/
theorem proof_binds_place (hH : MerkleTree.CollisionFree H.sha256) {ds : List Bytes} (hds : ds ≠ []) :
    ∃ tree, buildTree H.toNode (ds.map (leafHash H.toNode)) = .ok tree ∧ ∀ i < ds.length,
      (∀ d branch, verifyProof H (leafHash H.toNode d) branch (some (.int i)) (some (.str tree.root)) =
        .ok true → (ds.map (leafHash H.toNode))[i]? = some (leafHash H.toNode d)) ∧
      ∀ leaf, (ds.map (leafHash H.toNode))[i]? = some leaf →
        verifyProof H leaf (some (.arr ((proof tree i).map .str))) (some (.int i))
          (some (.str tree.root)) = .ok true := by
  have hbytes : ds.map (leafHash H.toNode) = (ds.map (MerkleTree.leaf H.sha256)).map Hex.encode := by
    rw [List.map_map]
    exact List.map_congr_left fun d _ => leafHash_eq H.toNode d
  have hne : ds.map (MerkleTree.leaf H.sha256) ≠ [] := mt List.map_eq_nil_iff.mp hds
  obtain ⟨tree, root, htree, hlevels, htop, hproof⟩ := buildTree_eq H.toNode hne
  rw [← hbytes] at htree
  refine ⟨tree, htree, fun i hi => ⟨?_, ?_⟩⟩
  · intro d branch hverify
    obtain ⟨sibs, hroot⟩ := verifyProof_climbs H hverify
    rw [htop, Option.some.injEq, Json.str.injEq] at hroot
    have hclimb := Hex.encode_injective hroot
    have hplace := MerkleTree.climb_binds hH hlevels hclimb.symm hi
    rw [List.getElem?_map, hplace]
    rfl
  · intro leaf hleaf
    rw [hbytes, List.getElem?_map, Option.map_eq_some_iff] at hleaf
    obtain ⟨a, ha, rfl⟩ := hleaf
    rw [htop, hproof, List.map_map]
    exact verifyProof_branch H hlevels ha

/-- Three leaves, so that the last is paired with itself: what that says of the last place. -/
theorem proof_binds_last : ∃ tree,
    buildTree sampleNode ([[1], [2], [3]].map (leafHash sampleNode)) = .ok tree ∧
      (∀ d branch, verifyProof { sampleNode with bufferOf := fun _ => none } (leafHash sampleNode d)
        branch (some (.int 2)) (some (.str tree.root)) = .ok true →
          leafHash sampleNode d = leafHash sampleNode [3]) ∧
      verifyProof { sampleNode with bufferOf := fun _ => none } (leafHash sampleNode [3])
        (some (.arr ((proof tree 2).map .str))) (some (.int 2)) (some (.str tree.root)) = .ok true := by
  obtain ⟨tree, htree, hplaces⟩ := @proof_binds_place { sampleNode with bufferOf := fun _ => none }
    sampleHash_collisionFree [[1], [2], [3]] (by decide)
  obtain ⟨honly, hown⟩ := hplaces 2 (by decide)
  exact ⟨tree, htree, fun d branch h => (Option.some.inj (honly d branch h)).symm, hown _ rfl⟩

end Merkle

end DtnCustody
