/-
# DtnCustody.Agent.Delivery — when a complete destination holds the payload.

A destination takes nothing but chunks of the payload: whatever passes its checks at an index of the
tree is the chunk at that index (`checkChunk_binds`). But `verifyProof` reads only as many bits of
the index as the branch is long, so the same chunk also passes at indices past the end, and each
counts towards `chunkCount`. `completed_is_payload` is about runs in which no bundle that passes
claims such an index; `indexPastEnd_completes` is the run in which one does.
-/
import DtnCustody.Agent.Dest
import DtnCustody.Agent.Path
import DtnCustody.Agent.Source

namespace DtnCustody

open Base Js

namespace Dest

variable (H : Host)

/-- **The condition on a bundle**: if it passes the checks against `root`, its index is the number
of one of `n` chunks. -/
def InPlace (root : JsonVal) (n : Nat) (bundle : JsonVal) : Prop :=
  ∀ bytes, checkChunk H root bundle = .ok (.inr bytes) →
    ∃ i < n, JsonVal.get? bundle "index" = some (.int i)

/-- The manifest names the number of the chunks and a root over their leaves. -/
structure Commits (m : Json) (chunks : List Bytes) : Prop where
  count : m.get "chunkCount" = some (.int chunks.length)
  root : ∃ levels root,
    (MerkleTree.nextLayer H.sha256)^[levels] (chunks.map (MerkleTree.leaf H.sha256)) = [root] ∧
      m.get "root" = some (.str (Hex.encode root))

/-- Every entry is a chunk, under its number. -/
def Sound (chunks : List Bytes) (d : Dest) : Prop :=
  ∀ k v, d.chunks.get? k = some v → ∃ i : Nat, k = .prim (.int i) ∧ chunks[i]? = some v

variable {H} {chunks : List Bytes}

/-- **What passes at the number of a chunk is that chunk.** -/
theorem checkChunk_binds (hH : MerkleTree.CollisionFree H.sha256) {m : Json}
    (hm : Commits H m chunks) {bundle : JsonVal} {bytes : Bytes} {i : Nat}
    (h : checkChunk H (m.get "root") bundle = .ok (.inr bytes)) (hi : i < chunks.length)
    (hindex : JsonVal.get? bundle "index" = some (.int i)) : chunks[i]? = some bytes := by
  obtain ⟨branch, _, hproof⟩ := checkChunk_ok H h
  obtain ⟨levels, root, hlayers, hroot⟩ := hm.root
  rw [hindex, Merkle.leafHash_eq] at hproof
  obtain ⟨sibs, hclimb⟩ := Merkle.verifyProof_climbs H hproof
  rw [hroot, Option.some.injEq, Json.str.injEq] at hclimb
  exact MerkleTree.climb_binds hH hlayers (Hex.encode_injective hclimb).symm hi

/-! ## What was prepared passes -/

theorem commits_prepare {kp : AgentKey} {payload : Bytes} {o : Source.PrepareOptions}
    {out : Source.Prepared} (h : Source.prepare H kp payload o = .ok out) :
    Commits H out.manifest (Source.chunk payload o.chunkSize) := by
  obtain ⟨id, tree, hparts⟩ := Source.prepare_parts h
  obtain ⟨levels, root, htree⟩ := Source.isTree_buildTree hparts.built
  obtain ⟨_, hcount, hroot, _⟩ := hparts.manifest_get
  rw [htree.root_eq] at hroot
  exact ⟨hcount, levels, root, htree.layers, hroot⟩

/-! ## Runs -/

/-- One bundle in its place leaves every entry a chunk. -/
theorem sound_receiveBundle (hH : MerkleTree.CollisionFree H.sha256) {d : Dest}
    (hm : Commits H d.manifest chunks) {bundle : JsonVal}
    (hplace : InPlace H (d.manifest.get "root") chunks.length bundle) (hd : Sound chunks d) :
    Sound chunks (d.receiveBundle H bundle).2 := by
  rcases receiveBundle_cases H d bundle with ⟨bytes, hcheck, h⟩ | h
  · rw [h]
    obtain ⟨i, hi, hindex⟩ := hplace bytes hcheck
    have hchunk := checkChunk_binds hH hm hcheck hi hindex
    intro k v hk
    rw [store, hindex] at hk
    by_cases hkey : k = .prim (.int i)
    · rw [hkey] at hk
      have hv : some bytes = some v := (JsMap.get?_set_self _ _ _).symm.trans hk
      exact ⟨i, hkey, by rw [hchunk, hv]⟩
    · exact hd k v ((JsMap.get?_set_ne _ hkey _).symm.trans hk)
  · rw [h]
    exact hd

theorem sound_receiveAll (hH : MerkleTree.CollisionFree H.sha256) {bundles : List JsonVal} :
    ∀ {d : Dest}, Commits H d.manifest chunks →
      (∀ b ∈ bundles, InPlace H (d.manifest.get "root") chunks.length b) → Sound chunks d →
        Sound chunks (d.receiveAll H bundles) ∧
          (d.receiveAll H bundles).manifest = d.manifest := by
  induction bundles with
  | nil => intro d _ _ hd; exact ⟨hd, rfl⟩
  | cons b rest ih =>
      intro d hm hplace hd
      rw [List.forall_mem_cons] at hplace
      have hman := manifest_receiveBundle H d b
      have hnext := sound_receiveBundle hH hm hplace.1 hd
      obtain ⟨hsound, hmanifest⟩ := @ih (d.receiveBundle H b).2 (by rw [hman]; exact hm)
        (by rw [hman]; exact hplace.2) hnext
      exact ⟨hsound, by rw [← hman]; exact hmanifest⟩

/-! ## Completeness -/

/-- The key of chunk `i`. -/
abbrev place (i : Nat) : Key := .prim (.int i)

theorem place_injective : Function.Injective place := by
  intro i j h
  simpa only [Key.prim.injEq, Prim.num.injEq, JsNum.fin.injEq, Int.cast_inj, Nat.cast_inj] using h

/-- As many keys as there are places, all of them places: every place is a key. -/
theorem mem_keys_of_size {ν : Type} {m : JsMap Key ν} {n : Nat}
    (hkeys : ∀ k ∈ m.keys, ∃ i < n, k = place i) (hsize : n ≤ m.size) {i : Nat} (hi : i < n) :
    place i ∈ m.keys := by
  have hsub : m.keys ⊆ (List.range n).map place := by
    intro k hk
    obtain ⟨j, hj, rfl⟩ := hkeys k hk
    exact List.mem_map.mpr ⟨j, List.mem_range.mpr hj, rfl⟩
  have hperm := (List.subperm_of_subset m.nodup hsub).perm_of_length_le (by
    rw [List.length_map, List.length_range, List.length_map]
    exact hsize)
  exact hperm.mem_iff.mpr (List.mem_map.mpr ⟨i, List.mem_range.mpr hi, rfl⟩)

theorem Sound.keys {d : Dest} (hd : Sound chunks d) :
    ∀ k ∈ d.chunks.keys, ∃ i < chunks.length, k = place i := by
  intro k hk
  obtain ⟨v, hv⟩ := JsMap.mem_keys_iff.mp hk
  obtain ⟨j, rfl, hj⟩ := hd k v hv
  exact ⟨j, (List.getElem?_eq_some_iff.mp hj).1, rfl⟩

/-- As many different chunks as there are numbers: every number has its chunk. -/
theorem Sound.get? {d : Dest} (hd : Sound chunks d) (hsize : d.chunks.size = chunks.length)
    {i : Nat} (hi : i < chunks.length) : d.chunks.get? (place i) = chunks[i]? := by
  obtain ⟨v, hv⟩ := JsMap.mem_keys_iff.mp (mem_keys_of_size hd.keys hsize.ge hi)
  obtain ⟨j, hkey, hj⟩ := hd _ v hv
  rw [hv, place_injective hkey, hj]

theorem mapM_part {d : Dest} (hall : ∀ i < chunks.length, d.chunks.get? (place i) = chunks[i]?) :
    (List.range chunks.length).mapM d.part = .ok chunks := by
  have hparts : ∀ n ≤ chunks.length, (List.range n).mapM d.part = .ok (chunks.take n) := by
    intro n
    induction n with
    | zero => intro _; rfl
    | succ n ih =>
        intro hn
        have hpart : d.part n = .ok chunks[n] := by
          rw [part, hall n hn, List.getElem?_eq_getElem hn]
        rw [List.range_succ, List.mapM_append, ih (by omega), List.mapM_cons, List.mapM_nil, hpart,
          List.take_succ_eq_append_getElem hn]
        rfl
  rw [hparts _ le_rfl, List.take_length]

theorem size_of_isComplete {d : Dest} (hm : Commits H d.manifest chunks)
    (h : d.isComplete = true) : d.chunks.size = chunks.length := by
  rw [isComplete, hm.count] at h
  simp only [JsonVal.strictEq, Json.int, Bool.and_eq_true, beq_iff_eq, JsNum.fin.injEq,
    Int.cast_inj, Nat.cast_inj] at h
  exact h.1

/-- **A full destination reassembles the chunks.** -/
theorem Sound.reassemble {d : Dest} (hd : Sound chunks d) (hm : Commits H d.manifest chunks)
    (hsize : d.chunks.size = chunks.length) : d.reassemble = .ok chunks.flatten := by
  have hcomplete : d.isComplete = true := by
    rw [isComplete, hm.count, hsize]
    simp [JsonVal.strictEq, Json.int]
  have hparts := mapM_part fun i hi => hd.get? hsize hi
  rw [Dest.reassemble, if_pos hcomplete, hsize, hparts]
  rfl

/-- **A completed report is the payload**: after any sequence of bundles of any shape, if none of
those that pass the checks claims an index past the end, a complete destination reassembles the
payload. -/
theorem completed_is_payload (hH : MerkleTree.CollisionFree H.sha256) {kp : AgentKey}
    {payload : Bytes} {o : Source.PrepareOptions} {out : Source.Prepared} {sourcePub : Pin}
    {d : Dest} {bundles : List JsonVal} (hprep : Source.prepare H kp payload o = .ok out)
    (hdest : makeDest H (some out.manifest) sourcePub = .ok (.inr d))
    (hplace : ∀ b ∈ bundles,
      InPlace H (out.manifest.get "root") (Source.chunk payload o.chunkSize).length b)
    (hcomplete : (d.receiveAll H bundles).isComplete = true) :
    (d.receiveAll H bundles).reassemble = .ok payload := by
  have hout := commits_prepare hprep
  obtain ⟨hman, hempty⟩ := makeDest_ok H hdest
  rw [Option.some.injEq] at hman
  have hcommits : Commits H d.manifest (Source.chunk payload o.chunkSize) := by
    rw [← hman]
    exact hout
  have hstart : Sound (Source.chunk payload o.chunkSize) d := by
    intro k v hk
    rw [hempty, JsMap.get?_empty] at hk
    cases hk
  rw [hman] at hplace
  obtain ⟨hsound, hmanifest⟩ := sound_receiveAll hH hcommits hplace hstart
  have hsize := size_of_isComplete (by rw [hmanifest]; exact hcommits) hcomplete
  rw [hsound.reassemble (by rw [hmanifest]; exact hcommits) hsize]
  exact congrArg Except.ok (Source.chunk_flatten o.chunkSize_pos payload)

/-! ## Two runs -/

/-- Three bytes in chunks of two. -/
def sampleOptions : Source.PrepareOptions where
  chunkSize := 2
  chunkSize_pos := by decide

def samplePrepared : Source.Prepared :=
  match Source.prepare Path.sampleHost Path.sampleKey [1, 2, 3] sampleOptions with
  | .ok out => out
  | .error _ => ⟨.null, []⟩

def sampleDest : Dest :=
  match makeDest Path.sampleHost (some samplePrepared.manifest) (.own (.str Path.sampleKey.pub)) with
  | .ok (.inr d) => d
  | _ => ⟨.null, JsMap.empty, 0⟩

/-- The bundle at `i`, claiming to stand at `index`. -/
def claiming (i : Nat) (index : Nat) : JsonVal :=
  match samplePrepared.bundles[i]? with
  | some (.obj fields) => some (.obj (Receipt.setField fields "index" (.int index)))
  | v => v

theorem samplePrepared_eq :
    Source.prepare Path.sampleHost Path.sampleKey [1, 2, 3] sampleOptions = .ok samplePrepared := by
  have h : (Source.prepare Path.sampleHost Path.sampleKey [1, 2, 3] sampleOptions).isOk = true := by
    decide +kernel
  unfold samplePrepared
  split
  · assumption
  · rename_i he
    rw [he] at h
    cases h

theorem sampleDest_eq :
    makeDest Path.sampleHost (some samplePrepared.manifest) (.own (.str Path.sampleKey.pub))
      = .ok (.inr sampleDest) := by
  have h : (match makeDest Path.sampleHost (some samplePrepared.manifest)
      (.own (.str Path.sampleKey.pub)) with
    | .ok (.inr _) => true
    | _ => false) = true := by decide +kernel
  unfold sampleDest
  split
  · assumption
  · split at h
    · rename_i hne _ _ he
      exact absurd he (hne _)
    · cases h

/-- The bundles last first, and the last once more. -/
theorem reversedRun_is_payload :
    (sampleDest.receiveAll Path.sampleHost [claiming 1 1, claiming 0 0, claiming 1 1]).reassemble
      = .ok [1, 2, 3] := by
  refine completed_is_payload sampleHash_collisionFree samplePrepared_eq sampleDest_eq ?_
    (by decide +kernel)
  have hindex : ∀ b ∈ [claiming 1 1, claiming 0 0, claiming 1 1], ∃ i < 2,
      JsonVal.strictEq (JsonVal.get? b "index") (some (.int (i : Nat))) = true := by
    decide +kernel
  intro b hb bytes _
  obtain ⟨i, hi, h⟩ := hindex b hb
  exact ⟨i, hi, JsonVal.eq_of_strictEq_int h⟩

/-- **An index past the end completes a report that has no payload**: the first chunk is taken at
index 0 and, with the branch of the same leaf, at index 2. -/
theorem indexPastEnd_completes :
    MerkleTree.CollisionFree Path.sampleHost.sha256 ∧
      Source.prepare Path.sampleHost Path.sampleKey [1, 2, 3] sampleOptions = .ok samplePrepared ∧
      makeDest Path.sampleHost (some samplePrepared.manifest) (.own (.str Path.sampleKey.pub))
        = .ok (.inr sampleDest) ∧
      (sampleDest.receiveAll Path.sampleHost [claiming 0 0, claiming 0 2]).isComplete = true ∧
      (sampleDest.receiveAll Path.sampleHost [claiming 0 0, claiming 0 2]).reassemble
        = .error .typeError := by
  refine ⟨sampleHash_collisionFree, samplePrepared_eq, sampleDest_eq, ?_, ?_⟩
  · decide +kernel
  · decide +kernel

end Dest

end DtnCustody
