/-
# DtnCustody.Agent.Dest — `agent/dest.mjs`: receiving the bundles of a payload.

The destination keeps the chunks that passed its checks in a map from the index the bundle claims,
counts the entries of the map against the manifest's `chunkCount`, and puts the chunks together by
number. A bundle is a value of any shape, so its index is too, and so are the keys of the map: an
index that is an object is a key of its own (`Key.ref`), found by nothing else.

The functions of `makeDest` that keep custody receipts and delivery receipts touch none of this.
-/
import DtnCustody.Agent.Custody
import DtnCustody.Agent.Merkle
import DtnCustody.Base.JsMap

namespace DtnCustody

open Base Js

namespace Dest

/-- A key of the chunk map. -/
inductive Key where
  | prim (p : Prim)
  | ref (n : Nat)
  deriving DecidableEq

end Dest

structure Dest where
  manifest : Json
  chunks : JsMap Dest.Key Bytes
  /-- The identity of the next object used as a key. -/
  fresh : Nat

namespace Dest

variable (H : Host)

/-- `makeDest(kp, manifest, pinnedHops, { sourcePub })`, or the reason it refuses for. -/
def makeDest (manifest : JsonVal) (sourcePub : Pin) : Outcome (String ⊕ Dest) := do
  if sourcePub.truthy = false then return .inl "unpinned"
  else match ← Receipt.verifyRecord H manifest, manifest with
    | .ok signer, some m =>
        if sourcePub.isKey signer then
          return .inr { manifest := m, chunks := JsMap.empty, fresh := 0 }
        else return .inl "signer_not_pinned_source_key"
    | .fail reason, _ => return .inl reason
    | .ok _, none => return .inl "not_an_object"

/-- What a bundle is refused for. -/
inductive Refusal where
  | leafHashMismatch
  | merkleBranchInvalid
  deriving DecidableEq, Repr

/-- `reason`. -/
def Refusal.text : Refusal → String
  | .leafHashMismatch => "leaf_hash_mismatch"
  | .merkleBranchInvalid => "merkle_branch_invalid"

/-- The bytes of a bundle that passes, checked against the `root` of a manifest. -/
def checkChunk (root bundle : JsonVal) : Outcome (Refusal ⊕ Bytes) := do
  let bytes ← Receipt.fromBase64 H (← JsonVal.get bundle "bytesB64")
  let leafHex ← JsonVal.get bundle "leafHex"
  let leaf := Merkle.leafHash H.toNode bytes
  if JsonVal.strictEq (some (.str leaf)) leafHex = false then return .inl .leafHashMismatch
  else
    let valid ← Merkle.verifyProof H leaf (← JsonVal.get bundle "branch")
      (← JsonVal.get bundle "index") root
    return if valid then .inr bytes else .inl .merkleBranchInvalid

/-- The key that an index is, when `n` objects have been used as keys before. -/
def keyOf (index : JsonVal) (n : Nat) : Key :=
  match JsonVal.key? index with
  | some p => .prim p
  | none => .ref n

/-- `chunks.set(bundle.index, bytes)`. -/
def store (d : Dest) (index : JsonVal) (bytes : Bytes) : Dest :=
  { d with chunks := d.chunks.set (keyOf index d.fresh) bytes, fresh := d.fresh + 1 }

/-- `receiveBundle(bundle)`, with the destination after it. A bundle that makes a check throw leaves
it as it was. -/
def receiveBundle (d : Dest) (bundle : JsonVal) : Outcome (Option Refusal) × Dest :=
  match checkChunk H (d.manifest.get "root") bundle with
  | .ok (.inr bytes) => (.ok none, d.store (JsonVal.get? bundle "index") bytes)
  | .ok (.inl reason) => (.ok (some reason), d)
  | .error e => (.error e, d)

/-- A run of `receiveBundle`, whatever each call answers. -/
def receiveAll (d : Dest) (bundles : List JsonVal) : Dest :=
  bundles.foldl (fun d b => (d.receiveBundle H b).2) d

def isComplete (d : Dest) : Bool :=
  JsonVal.strictEq (some (.int d.chunks.size)) (d.manifest.get "chunkCount")

/-- `parts.push(chunks.get(i))` and `Buffer.concat`, which takes no `undefined`. -/
def part (d : Dest) (i : Nat) : Outcome Bytes :=
  match d.chunks.get? (.prim (.int i)) with
  | some bytes => .ok bytes
  | none => .error .typeError

/-- `reassemble()`. Where the destination is complete, `chunkCount` is the number of its entries. -/
def reassemble (d : Dest) : Outcome Bytes :=
  if d.isComplete then do return (← (List.range d.chunks.size).mapM d.part).flatten
  else .error (.error "reassemble before complete")

/-! ## What a bundle can do -/

theorem receiveBundle_taken {d : Dest} {bundle : JsonVal} {bytes : Bytes}
    (h : checkChunk H (d.manifest.get "root") bundle = .ok (.inr bytes)) :
    d.receiveBundle H bundle = (.ok none, d.store (JsonVal.get? bundle "index") bytes) := by
  unfold receiveBundle
  rw [h]

theorem receiveBundle_refused {d : Dest} {bundle : JsonVal} {reason : Refusal}
    (h : checkChunk H (d.manifest.get "root") bundle = .ok (.inl reason)) :
    d.receiveBundle H bundle = (.ok (some reason), d) := by
  unfold receiveBundle
  rw [h]

/-- A destination takes a bundle or stays as it is. -/
theorem receiveBundle_cases (d : Dest) (bundle : JsonVal) :
    (∃ bytes, checkChunk H (d.manifest.get "root") bundle = .ok (.inr bytes) ∧
        (d.receiveBundle H bundle).2 = d.store (JsonVal.get? bundle "index") bytes) ∨
      (d.receiveBundle H bundle).2 = d := by
  unfold receiveBundle
  split
  · rename_i bytes hcheck
    exact Or.inl ⟨bytes, hcheck, rfl⟩
  · exact Or.inr rfl
  · exact Or.inr rfl

@[simp] theorem manifest_store (d : Dest) (index : JsonVal) (bytes : Bytes) :
    (d.store index bytes).manifest = d.manifest := rfl

theorem manifest_receiveBundle (d : Dest) (bundle : JsonVal) :
    (d.receiveBundle H bundle).2.manifest = d.manifest := by
  rcases receiveBundle_cases H d bundle with ⟨bytes, _, h⟩ | h
  · rw [h, manifest_store]
  · rw [h]

/-- A new destination has no chunks. -/
theorem makeDest_ok {manifest : JsonVal} {sourcePub : Pin} {d : Dest}
    (h : makeDest H manifest sourcePub = .ok (.inr d)) :
    manifest = some d.manifest ∧ d.chunks = JsMap.empty := by
  unfold makeDest at h
  split at h
  · cases h
  · obtain ⟨v, _, h⟩ := Outcome.bind_eq_ok.mp h
    split at h
    · split at h
      · cases h
        exact ⟨rfl, rfl⟩
      · cases h
    · cases h
    · cases h

/-- **What passes the checks is a climb to the root** from the leaf of its bytes, at the index it
claims. -/
theorem checkChunk_ok {root bundle : JsonVal} {bytes : Bytes}
    (h : checkChunk H root bundle = .ok (.inr bytes)) : ∃ branch,
      JsonVal.get bundle "branch" = .ok branch ∧
        Merkle.verifyProof H (Merkle.leafHash H.toNode bytes) branch (JsonVal.get? bundle "index") root
          = .ok true := by
  obtain ⟨b64, hb64, h⟩ := Outcome.bind_eq_ok.mp h
  obtain ⟨got, _, h⟩ := Outcome.bind_eq_ok.mp h
  obtain ⟨leafHex, _, h⟩ := Outcome.bind_eq_ok.mp h
  dsimp only at h
  split at h
  · cases h
  · obtain ⟨branch, hbranch, h⟩ := Outcome.bind_eq_ok.mp h
    obtain ⟨index, hindex, h⟩ := Outcome.bind_eq_ok.mp h
    obtain ⟨valid, hvalid, h⟩ := Outcome.bind_eq_ok.mp h
    have hsame : index = JsonVal.get? bundle "index" := by
      unfold JsonVal.get at hindex
      split at hindex
      · cases hindex
      · cases hindex
      · cases hindex
        rfl
    split at h
    · rename_i htrue
      cases h
      exact ⟨branch, hbranch, by rw [← hsame, hvalid, htrue]⟩
    · cases h

end Dest

end DtnCustody
