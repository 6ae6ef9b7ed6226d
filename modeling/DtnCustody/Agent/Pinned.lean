/-
# DtnCustody.Agent.Pinned — `agent/lib/path.mjs` (`pinnedDirectory`): paths under pinned keys.

An entry is the record of a hop with the proof that it covers the bundle. `verifyPath_accepted` is
what an accepted path of entries says under a pinned directory, whatever the cache held before: every
hop is a node the directory knows, its record covers the bundle, and the records follow one another
from the source to the destination.

What is missing there is that the records verify. A record that stands in the cache under the
`claimId` of another is judged by the verdict on the other.
-/
import DtnCustody.Agent.PathTimes

namespace DtnCustody

open Base Js

namespace Path

/-- `map.get(eid)`. -/
def pinnedKey (map : JsMap JsString JsString) : JsonVal → Option JsString
  | some (.str eid) => map.get? eid
  | _ => none

/-- The directory's answer: the key of the node, and no other. -/
def pinnedDirectory (map : JsMap JsString JsString) (pub : Json) (eid _t : JsonVal) :
    Outcome Authorization :=
  let k := pinnedKey map eid
  if JsonVal.strictEq (k.map .str) (some pub) then .ok .ok
  else .ok (.refused (some (if k = none then "unknown_node" else "signer_not_authorized")))

/-- `{ receipt, proof }`, an object of its own. -/
structure Entry where
  receipt : Json
  proof : Json
  /-- Which object it is. -/
  ref : Nat

namespace Entry

def link (e : Entry) : Json := .obj [(js "receipt", e.receipt), (js "proof", e.proof)]

def prevHop (e : Entry) : JsonVal := e.receipt.get "prevHop"

def thisHop (e : Entry) : JsonVal := e.receipt.get "thisHop"

theorem readLink_link (e : Entry) : readLink e.link = .ok (some e.receipt, some e.proof) := by
  have hne : js "receipt" ≠ js "proof" := by decide
  simp [readLink, JsonVal.get, link, Json.get, hne]

end Entry

/-- The directory accepts the key of a node it knows. -/
theorem pinnedDirectory_ok {map : JsMap JsString JsString} {pub : Json} {eid t : JsonVal}
    (h : pinnedDirectory map pub eid t = .ok .ok) :
    ∃ node key, eid = some (.str node) ∧ map.get? node = some key ∧ pub = .str key := by
  unfold pinnedDirectory at h
  dsimp only at h
  split at h
  · rename_i hkey
    cases hk : pinnedKey map eid with
    | none =>
        rw [hk, Option.map_none] at hkey
        cases hkey
    | some key =>
        rw [hk, Option.map_some] at hkey
        have hpub := (JsonVal.eq_of_strictEq hkey).symm
        cases hpub
        unfold pinnedKey at hk
        split at hk
        · rename_i node
          exact ⟨node, key, rfl, hk, rfl⟩
        · cases hk
  · cases h

variable (H : Host)

/-- The record covers the bundle: it is in the batch, or the receipt is for it. -/
def Covers (bundleId : JsonVal) (receipt : Json) (proof : JsonVal) : Prop :=
  ∃ times, linkTimes H { bundleId, source := none, destination := none, authorize := none } receipt
    proof = .ok (.inr times)

/-- The hop of an entry is a node of the directory and took the bundle over. -/
def Known (keys : JsMap JsString JsString) (bundleId : JsonVal) (e : Entry) : Prop :=
  ∃ node key, e.thisHop = some (.str node) ∧ keys.get? node = some key ∧
    Covers H bundleId e.receipt (some e.proof)

/-- One entry begins where the other ends. -/
def Follows (e e' : Entry) : Prop := e'.prevHop = e.thisHop

/-- **What an accepted path says**, its signatures apart. -/
structure Accepted (keys : JsMap JsString JsString) (o : Options) (es : List Entry) : Prop where
  known : ∀ e ∈ es, Known H keys o.bundleId e
  chain : es.IsChain Follows
  source : ∀ e ∈ es.head?, JsonVal.strictEq e.prevHop o.source = true
  destination : ∀ e ∈ es.getLast?, e.thisHop = o.destination

variable {H}

/-- A link that lets the walk go on: its record covers the bundle, its signer is the authorizer's,
and it is joined to what went before. -/
theorem judgeLink_joins {authorize : Json → JsonVal → JsonVal → Outcome Authorization}
    {o : Options} {st st' : PathState} {r proof : JsonVal} {v : RecordVerdict}
    (h : judgeLink H o authorize st r proof v = .ok (.next st')) :
    ∃ receipt signer t0, r = some receipt ∧ v = .ok signer ∧
      authorize signer (receipt.get "thisHop") t0 = .ok .ok ∧
      Covers H o.bundleId receipt proof ∧ st'.prev = some (receipt.get "thisHop", t0) ∧
      JsonVal.strictEq (receipt.get "prevHop")
        (match st.prev with | none => o.source | some p => p.1) = true := by
  obtain ⟨receipt, signer, t0, t1, hr, hv, hon⟩ := judgeLink_goesOn H h
  exact ⟨receipt, signer, t0, hr, hv, hon.authorized, ⟨_, hon.times⟩, hon.prev, hon.joined⟩

/-- The walk over entries: what is known of each, and how the first is joined to what went before. -/
theorem walk_accepted {keys : JsMap JsString JsString} {o : Options} {es : List Entry} :
    ∀ {i : Nat} {st : PathState} {cache : Cache} {n k : Nat},
      (walk H o (pinnedDirectory keys) i st cache (es.map Entry.link)).1 = .ok (.ok n k) →
        (∀ e ∈ es, Known H keys o.bundleId e) ∧ es.IsChain Follows ∧
        (∀ e ∈ es.head?, JsonVal.strictEq e.prevHop
          (match st.prev with | none => o.source | some p => p.1) = true) ∧
        ∀ e ∈ es.getLast?, e.thisHop = o.destination := by
  induction es with
  | nil =>
      intro i st cache n k _
      refine ⟨?_, List.IsChain.nil, ?_, ?_⟩ <;> intro e he <;> cases he
  | cons e rest ih =>
      intro i st cache n k h
      rw [List.map_cons, walk, Entry.readLink_link] at h
      dsimp only at h
      split at h
      · cases h
      · split at h
        · cases h
        · cases h
        · rename_i st' hjudge
          obtain ⟨receipt, signer, t0, hr, _, hauthorized, hcovers, hst', hjoin⟩ :=
            judgeLink_joins hjudge
          cases hr
          obtain ⟨node, key, hnode, hkey, _⟩ := pinnedDirectory_ok hauthorized
          rw [hnode] at hst'
          obtain ⟨hknown, hchain, hhead, hlast⟩ := ih h
          rw [hst'] at hhead
          refine ⟨?_, ?_, ?_, ?_⟩
          · rw [List.forall_mem_cons]
            exact ⟨⟨node, key, hnode, hkey, hcovers⟩, hknown⟩
          · cases rest with
            | nil => exact List.IsChain.singleton _
            | cons next rest =>
                refine List.isChain_cons_cons.mpr ⟨?_, hchain⟩
                have hnext : next.prevHop = some (.str node) := JsonVal.eq_of_strictEq (hhead next rfl)
                exact hnext.trans hnode.symm
          · intro e' he'
            cases he'
            exact hjoin
          · cases rest with
            | nil =>
                intro e' he'
                cases he'
                -- nothing is left: the walk arrives at the hop it remembers
                rw [List.map_nil, walk] at h
                dsimp only at h
                unfold arrive at h
                rw [hst'] at h
                dsimp only at h
                split at h
                · rename_i harrive
                  exact hnode.trans (JsonVal.eq_of_strictEq harrive)
                · cases h
            | cons next rest =>
                intro e' he'
                exact hlast e' (by rwa [List.getLast?_cons_cons] at he')

/-- **An accepted path of entries under a pinned directory.** -/
theorem verifyPath_accepted {keys : JsMap JsString JsString} {o : Options} {es : List Entry}
    {cache : Cache} {n k : Nat} (ho : o.authorize = some (pinnedDirectory keys))
    (h : (verifyPath H cache (some (.arr (es.map Entry.link))) o).1 = .ok (.ok n k)) :
    Accepted H keys o es ∧ es ≠ [] := by
  unfold verifyPath at h
  dsimp only at h
  split at h
  · cases h
  · rename_i hne
    split at h
    · cases h
    · split at h
      · cases h
      · rename_i authorize hauthorize
        cases ho.symm.trans hauthorize
        obtain ⟨hknown, hchain, hhead, hlast⟩ := walk_accepted h
        refine ⟨⟨hknown, hchain, hhead, hlast⟩, ?_⟩
        rintro rfl
        exact hne rfl

end Path

end DtnCustody
