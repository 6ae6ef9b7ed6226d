/-
# DtnCustody.Agent.Source — `agent/source.mjs`: a payload as a signed manifest and its bundles.

`prepare` cuts the payload into chunks of one size, the last one shorter, and an empty payload into
one empty chunk. The manifest carries the number of chunks and the root of the tree over them; each
bundle carries the bytes of a chunk, its leaf and its branch.
-/
import DtnCustody.Agent.Merkle
import DtnCustody.Agent.Receipt

namespace DtnCustody

open Base Js

namespace Source

/-! ## Chunks -/

/-- The loop of `chunk`, on the bytes not cut yet. -/
def cut (size : Nat) : (fuel : Nat) → Bytes → List Bytes
  | 0, _ => []
  | fuel + 1, bytes =>
      if bytes = [] then [] else bytes.take size :: cut size fuel (bytes.drop size)

/-- `chunk(bytes, size)`: every step cuts at least one byte. -/
def chunk (bytes : Bytes) (size : Nat) : List Bytes :=
  match cut size bytes.length bytes with
  | [] => [[]]
  | out => out

theorem cut_flatten {size : Nat} (hsize : 0 < size) (fuel : Nat) :
    ∀ {bytes : Bytes}, bytes.length ≤ fuel → (cut size fuel bytes).flatten = bytes := by
  induction fuel with
  | zero =>
      intro bytes hlen
      have hnil : bytes = [] := List.length_eq_zero_iff.mp (by omega)
      rw [hnil]
      rfl
  | succ fuel ih =>
      intro bytes hlen
      unfold cut
      split
      · rename_i hnil
        rw [hnil]
        rfl
      · rename_i hne
        have hpos : 0 < bytes.length := List.length_pos_iff.mpr hne
        rw [List.flatten_cons, ih (by rw [List.length_drop]; omega), List.take_append_drop]

/-- **The chunks are the payload.** -/
theorem chunk_flatten {size : Nat} (hsize : 0 < size) (bytes : Bytes) :
    (chunk bytes size).flatten = bytes := by
  have hcut := @cut_flatten size hsize bytes.length bytes le_rfl
  unfold chunk
  split
  · rename_i hnil
    rw [hnil] at hcut
    exact hcut
  · exact hcut

theorem chunk_ne_nil (bytes : Bytes) (size : Nat) : chunk bytes size ≠ [] := by
  unfold chunk
  split
  · exact List.cons_ne_nil _ _
  · assumption

/-! ## Preparing -/

/-- The third argument of `prepare`. With a size that is not a positive number of bytes the loop of
`chunk` does not end. -/
structure PrepareOptions where
  payloadId : JsonVal := none
  /-- The properties of `meta`. -/
  metaFields : List (JsString × Json) := []
  chunkSize : Nat := 1024
  chunkSize_pos : 0 < chunkSize

/-- `{ chunkSize, ...meta }`. -/
def PrepareOptions.manifestMeta (o : PrepareOptions) : List (JsString × Json) :=
  Json.ownOrder (o.metaFields.foldl (fun fields p => Receipt.setProp fields p.1 p.2)
    [(js "chunkSize", .int o.chunkSize)])

variable (H : Host)

/-- `payloadId || "0x" + contentId({ p: base64 }).slice(2, 18)`. -/
def idOf (payload : Bytes) (payloadId : JsonVal) : Outcome Json :=
  let named := payloadId.getD .null
  if named.truthy then .ok named
  else do
    let id ← Json.contentId H.toNode (.obj [(js "p", .str (utf16 (Base64.encode payload)))])
    return .str (js "0x" ++ (id.drop 2).take 16)

def buildManifest (payloadId : Json) (chunkCount : Nat) (root : JsString)
    (metaFields : List (JsString × Json)) : List (JsString × Json) :=
  [(js "kind", .text "manifest/1"), (js "payloadId", payloadId), (js "chunkCount", .int chunkCount),
    (js "root", .str root), (js "meta", .obj metaFields)]

/-- The bundle of the chunk at `index`. -/
def bundleOf (id : Json) (tree : Merkle.Tree) (c : Bytes) (index : Nat) : Outcome Json := do
  let body := [(js "payloadId", id), (js "index", .int index),
    (js "leafHex", .str (Merkle.leafHash H.toNode c))]
  let bundleId ← (Json.obj body).contentId H.toNode
  return .obj (body ++ [(js "bytesB64", .str (utf16 (Base64.encode c))),
    (js "branch", .arr ((Merkle.proof tree index).map .str)), (js "bundleId", .str bundleId)])

structure Prepared where
  manifest : Json
  bundles : List Json

def prepare (kp : AgentKey) (payload : Bytes) (o : PrepareOptions) : Outcome Prepared := do
  let id ← idOf H payload o.payloadId
  let chunks := chunk payload o.chunkSize
  let tree ← Merkle.buildTree H.toNode (chunks.map (Merkle.leafHash H.toNode))
  let manifest ← Receipt.signRecord H kp (buildManifest id chunks.length tree.root o.manifestMeta)
  let bundles ← chunks.zipIdx.mapM fun p => bundleOf H id tree p.1 p.2
  return { manifest, bundles }

/-! ## What was prepared -/

/-- The tree over the leaves of some chunks. -/
structure IsTree (chunks : List Bytes) (tree : Merkle.Tree) (levels : Nat) (root : Bytes) : Prop where
  layers : (MerkleTree.nextLayer H.sha256)^[levels] (chunks.map (MerkleTree.leaf H.sha256)) = [root]
  root_eq : tree.root = Hex.encode root
  proof_eq : ∀ k, Merkle.proof tree k =
    (MerkleTree.branch H.sha256 k levels (chunks.map (MerkleTree.leaf H.sha256))).map Hex.encode

variable {H}

theorem isTree_buildTree {chunks : List Bytes} {tree : Merkle.Tree}
    (h : Merkle.buildTree H.toNode (chunks.map (Merkle.leafHash H.toNode)) = .ok tree) :
    ∃ levels root, IsTree H chunks tree levels root := by
  have hleaves : chunks.map (Merkle.leafHash H.toNode) =
      (chunks.map (MerkleTree.leaf H.sha256)).map Hex.encode := by
    rw [List.map_map]
    rfl
  rw [hleaves] at h
  obtain ⟨levels, root, hroot, hhex, hproof⟩ := Merkle.buildTree_root H.toNode h
  exact ⟨levels, root, hroot, hhex, hproof⟩

/-- The parts a payload was prepared from. -/
structure IsPrepared (kp : AgentKey) (payload : Bytes) (o : PrepareOptions) (out : Prepared)
    (id : Json) (tree : Merkle.Tree) : Prop where
  named : idOf H payload o.payloadId = .ok id
  built : Merkle.buildTree H.toNode
    ((chunk payload o.chunkSize).map (Merkle.leafHash H.toNode)) = .ok tree
  signed : Receipt.signRecord H kp
    (buildManifest id (chunk payload o.chunkSize).length tree.root o.manifestMeta) = .ok out.manifest
  bundled : (chunk payload o.chunkSize).zipIdx.mapM (fun p => bundleOf H id tree p.1 p.2)
    = .ok out.bundles

theorem prepare_parts {kp : AgentKey} {payload : Bytes} {o : PrepareOptions} {out : Prepared}
    (h : prepare H kp payload o = .ok out) :
    ∃ id tree, IsPrepared (H := H) kp payload o out id tree := by
  obtain ⟨id, hid, h⟩ := Outcome.bind_eq_ok.mp h
  obtain ⟨tree, htree, h⟩ := Outcome.bind_eq_ok.mp h
  obtain ⟨manifest, hman, h⟩ := Outcome.bind_eq_ok.mp h
  obtain ⟨bundles, hbundles, h⟩ := Outcome.bind_eq_ok.mp h
  cases h
  exact ⟨id, tree, hid, htree, hman, hbundles⟩

variable {kp : AgentKey} {payload : Bytes} {o : PrepareOptions} {out : Prepared} {id : Json}
  {tree : Merkle.Tree}

/-- The properties of a manifest are those it was built with. -/
theorem IsPrepared.manifest_get (h : IsPrepared (H := H) kp payload o out id tree) :
    out.manifest.get "payloadId" = some id ∧
      out.manifest.get "chunkCount" = some (.int (chunk payload o.chunkSize).length) ∧
      out.manifest.get "root" = some (.str tree.root) ∧
      out.manifest.get "meta" = some (.obj o.manifestMeta) := by
  have hget := fun name => @Receipt.get_signRecord H kp _ _ h.signed name
  refine ⟨?_, ?_, ?_, ?_⟩
  · rw [hget _ (by simp [js_inj]) (by simp [js_inj]) (by simp [js_inj])]
    simp [buildManifest, Json.get, js_inj]
  · rw [hget _ (by simp [js_inj]) (by simp [js_inj]) (by simp [js_inj])]
    simp [buildManifest, Json.get, js_inj]
  · rw [hget _ (by simp [js_inj]) (by simp [js_inj]) (by simp [js_inj])]
    simp [buildManifest, Json.get, js_inj]
  · rw [hget _ (by simp [js_inj]) (by simp [js_inj]) (by simp [js_inj])]
    simp [buildManifest, Json.get, js_inj]

end Source

end DtnCustody
