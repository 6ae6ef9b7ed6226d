/-
# DtnCustody.Agent.Batch — `agent/lib/batch.mjs`: one signed record for the bundles of a contact.

`batchReceipt` signs the root of a hash tree over the bundle ids, sorted and each once; with times,
the leaf of a bundle is its id and its time. A batch covers a bundle when some branch climbs from its
leaf to the root at an index below the signed count. The index bound is what the tree needs: an odd
layer pairs its last node with itself, so the places behind the last leaf would climb as well.

`batch_covers_exactly` is the statement about every batch that was made. The two kinds of leaf never
meet, since the record says which kind it has.
-/
import DtnCustody.Agent.Merkle
import DtnCustody.Agent.Path
import DtnCustody.Base.Capped
import DtnCustody.Base.JsMap
import DtnCustody.Json.Parse

namespace DtnCustody

open Base Js

namespace Batch

/-! ## Making a batch -/

/-- `{ prevHop, thisHop, contactId, from, to, bundleIds, times }`, the ids being strings. An element
of `times` that is `undefined` is refused as `null` is. -/
structure Request where
  prevHop : JsonVal
  thisHop : JsonVal
  contactId : JsonVal
  fromTime : JsonVal
  toTime : JsonVal
  bundleIds : List JsString
  /-- The length of an array. -/
  fits : bundleIds.length < 4294967296
  times : JsonVal := none

/-- `{ receipt, leaves, leafTimes, tree }`. -/
structure Made where
  receipt : Json
  leaves : List JsString
  leafTimes : Option (List (Option Int))
  tree : Merkle.Tree

/-- `[...].sort()` of strings. -/
def sortIds (ids : List JsString) : List JsString := ids.insertionSort (· ≤ ·)

/-- `[...new Set(ids)]`. -/
def distinctIds (ids : List JsString) : List JsString := ids.eraseDups

/-- The properties of an object that are not `undefined`. -/
def present (fields : List (String × JsonVal)) : List (JsString × Json) :=
  fields.filterMap fun p => p.2.map fun v => (js p.1, v)

/-- The content of the record; `leafTimes` is there when the batch has times. -/
def content (r : Request) (count : Nat) (root : JsString) (timed : Bool) : List (JsString × Json) :=
  present ([("kind", some (.text kind)), ("prevHop", r.prevHop), ("thisHop", r.thisHop),
    ("contactId", r.contactId), ("from", r.fromTime), ("to", r.toTime),
    ("count", some (.int count)), ("root", some (.str root))] ++
      if timed then [("leafTimes", some (.bool true))] else [])

section Make

variable (H : Host)

/-- `t < from || t > to`. -/
def outside (fromTime toTime : JsonVal) (t : Int) : Outcome Bool := do
  if (← JsonVal.lt H.toNode (some (.int t)) fromTime) then return true
  else JsonVal.lt H.toNode toTime (some (.int t))

/-- The time of one bundle goes into the map `at`, if it is an integer inside the window and the
bundle has none yet. -/
def placeTime (r : Request) (times : JsMap JsString Int) (id : JsString) (t : Json) :
    Outcome (JsMap JsString Int) :=
  match safeInteger? (some t) with
  | none => .error (.error "batchReceipt: each time must be an integer inside the window")
  | some t => do
      if (← outside H r.fromTime r.toTime t) then
        .error (.error "batchReceipt: each time must be an integer inside the window")
      else if times.has id then
        .error (.error "batchReceipt: a bundle may appear once per batch; start a new batch for a second pass")
      else return times.set id t

/-- The loop over the ids and their times. -/
def placeTimes (r : Request) (times : JsMap JsString Int) :
    List (JsString × Json) → Outcome (JsMap JsString Int)
  | [] => .ok times
  | (id, t) :: rest => do placeTimes r (← placeTime H r times id t) rest

/-- The tree over the leaves of a batch. -/
def leafTree (leaves : List (JsString × Option Int)) : Outcome Merkle.Tree := do
  Merkle.buildTree H.toNode
    (← leaves.mapM fun p => return Merkle.leafHash H.toNode (← leafBytes H (some (.str p.1)) p.2))

/-- The record over the leaves, signed. -/
def signBatch (kp : AgentKey) (r : Request) (leaves : List (JsString × Option Int)) (timed : Bool) :
    Outcome Made :=
  if leaves = [] then .error (.error "batchReceipt: no bundles")
  else do
    let tree ← leafTree H leaves
    let receipt ← Receipt.signRecord H kp (content r leaves.length tree.root timed)
    return { receipt, leaves := leaves.map Prod.fst, tree,
             leafTimes := if timed then some (leaves.map Prod.snd) else none }

/-- The ids and times of a batch with times. -/
def timedLeaves (r : Request) (times : JsonVal) : Outcome (List (JsString × Option Int)) :=
  match times with
  | some (.arr ts) =>
      if ts.length ≠ r.bundleIds.length then
        .error (.error "batchReceipt: one time per bundle id")
      else do
        let at' ← placeTimes H r JsMap.empty (r.bundleIds.zip ts)
        return (sortIds at'.keys).map fun id => (id, at'.get? id)
  | _ => .error (.error "batchReceipt: one time per bundle id")

def batchReceipt (kp : AgentKey) (r : Request) : Outcome Made := do
  if (← JsonVal.ge H.toNode r.toTime r.fromTime) then
    match r.times with
    | none =>
        signBatch H kp r ((sortIds (distinctIds r.bundleIds)).map fun id => (id, none)) false
    | some times => do signBatch H kp r (← timedLeaves H r (some times)) true
  else .error (.error "batchReceipt: window must end at or after it starts")

end Make

/-- `batchProof(batch, id)`. -/
def batchProof (batch : Made) (id : JsString) : Json :=
  match batch.leaves.findIdx? (· = id) with
  | none => .null
  | some index =>
      .obj ([(js "index", .int index),
        (js "branch", .arr ((Merkle.proof batch.tree index).map .str))] ++
          match batch.leafTimes with
          | none => []
          | some ts => present [("t", (ts.getD index none).map .int)])

/-! ## Reading the record -/

theorem get_present_of_not_mem {fields : List (String × JsonVal)} {name : String}
    (h : name ∉ fields.map Prod.fst) : (Json.obj (present fields)).get name = none := by
  show Option.map Prod.snd (List.find? _ (present fields)) = none
  rw [List.find?_eq_none.mpr]
  · rfl
  · intro q hq hname
    obtain ⟨⟨a, b⟩, hmem, hab⟩ := List.mem_filterMap.mp hq
    obtain ⟨x, _, rfl⟩ := Option.map_eq_some_iff.mp hab
    have heq : a = name := js_inj.mp (of_decide_eq_true hname)
    subst heq
    exact h (List.mem_map.mpr ⟨_, hmem, rfl⟩)

/-- A property of `present` is the value it was given. -/
theorem get_present {fields : List (String × JsonVal)} (hnames : (fields.map Prod.fst).Nodup)
    {name : String} {v : JsonVal} (h : (name, v) ∈ fields) :
    (Json.obj (present fields)).get name = v := by
  induction fields with
  | nil => cases h
  | cons p rest ih =>
      rw [List.map_cons, List.nodup_cons] at hnames
      obtain ⟨other, w⟩ := p
      rcases List.mem_cons.mp h with heq | h
      · cases heq
        cases v with
        | none =>
            show (Json.obj (present rest)).get name = none
            exact get_present_of_not_mem hnames.1
        | some v =>
            show Option.map Prod.snd (List.find? _ ((js name, v) :: present rest)) = _
            rw [List.find?_cons_of_pos (by simp)]
            rfl
      · have hne : js other ≠ js name := by
          rw [ne_eq, js_inj]
          rintro rfl
          exact hnames.1 (List.mem_map.mpr ⟨_, h, rfl⟩)
        rw [← ih hnames.2 h]
        cases w with
        | none => rfl
        | some w =>
            show Option.map Prod.snd (List.find? _ ((js other, w) :: present rest)) =
              Option.map Prod.snd (List.find? _ (present rest))
            rw [List.find?_cons_of_neg (by simpa using hne)]

/-! ## Leaves -/

/-- The bytes of a leaf: the id, with its time behind an `@`. -/
def leafOf (p : JsString × Option Int) : Bytes :=
  match p.2 with
  | none => toUtf8 p.1
  | some t => toUtf8 (p.1 ++ js "@" ++ js (toString t))

variable {H : Host}

theorem leafBytes_eq (id : JsString) (t : Option Int) :
    leafBytes H (some (.str id)) t = .ok (leafOf (id, t)) := by
  cases t with
  | none => rfl
  | some t => rfl

/-- **A leaf names its bundle and its time**, if it is known to have one. -/
theorem leafOf_inj {p q : JsString × Option Int} (hp : WellFormed p.1) (hq : WellFormed q.1)
    (hkind : p.2.isSome = q.2.isSome) (h : leafOf p = leafOf q) : p = q := by
  obtain ⟨id, t⟩ := p
  obtain ⟨id', t'⟩ := q
  cases t with
  | none =>
      cases t' with
      | some t' => cases hkind
      | none =>
          have hid : id = id' := toUtf8_inj hp hq h
          rw [hid]
  | some t =>
      cases t' with
      | none => cases hkind
      | some t' =>
          have hwf : ∀ {s : JsString} {t : Int}, WellFormed s →
              WellFormed (s ++ js "@" ++ js (toString t)) := fun hs =>
            (hs.append (wellFormed_js _)).append (wellFormed_js _)
          have htext : id ++ js "@" ++ js (toString t) = id' ++ js "@" ++ js (toString t') :=
            toUtf8_inj (hwf hp) (hwf hq) h
          -- the text as characters: the id, an `@`, and the digits
          have hchars : ∀ {s : JsString} {t : Int}, WellFormed s →
              s ++ js "@" ++ js (toString t) =
                utf16 (scalars s ++ '@' :: (toString t).toList) := by
            intro s t hs
            rw [List.append_cons, utf16_append, utf16_append]
            exact congrArg (fun x => x ++ js "@" ++ js (toString t)) hs.symm
          rw [hchars hp, hchars hq] at htext
          have hscalars := congrArg scalars htext
          rw [scalars_utf16, scalars_utf16] at hscalars
          obtain ⟨hfront, hback⟩ := append_separator_inj hscalars
            (Json.not_mem_int rfl (by decide) t) (Json.not_mem_int rfl (by decide) t')
          have hid : id = id' := by
            rw [← show utf16 (scalars id) = id from hp, hfront]
            exact hq
          rw [hid, Json.toList_int_inj hback]

/-! ## What a record commits to -/

/-- The record commits to these leaves: its root is that of the tree over them, and its count is
their number. All of them have a time inside the record's window, or none has one. -/
structure Commits (H : Host) (receipt : Json) (tree : Merkle.Tree) (timed : Bool)
    (leaves : List (JsString × Option Int)) : Prop where
  count : receipt.get "count" = some (.int leaves.length)
  root : receipt.get "root" = some (.str tree.root)
  kind : JsonVal.truthy (receipt.get "leafTimes") = timed
  tree : Merkle.buildTree H.toNode
    (leaves.map fun p => Merkle.leafHash H.toNode (leafOf p)) = .ok tree
  times : ∀ p ∈ leaves, p.2.isSome = timed
  window : ∀ p ∈ leaves, ∀ t, p.2 = some t → t.natAbs ≤ 9007199254740991 ∧
    outsideWindow H receipt t = .ok false

theorem map_leafHash (leaves : List (JsString × Option Int)) :
    leaves.map (fun p => Merkle.leafHash H.toNode (leafOf p)) =
      ((leaves.map leafOf).map (MerkleTree.leaf H.sha256)).map Hex.encode := by
  rw [List.map_map, List.map_map]
  rfl

theorem safeInteger?_some {v : JsonVal} {z : Int} (h : safeInteger? v = some z) :
    v = some (.int z) ∧ z.natAbs ≤ 9007199254740991 := by
  unfold safeInteger? at h
  split at h
  · rename_i q
    split at h
    · rename_i hq
      cases h
      have hint : ((q.num : Int) : ℚ) = q := Rat.coe_int_num_of_den_eq_one hq.1
      exact ⟨by rw [Json.int, hint], hq.2⟩
    · cases h
  · cases h

theorem safeInteger?_int {z : Int} (h : z.natAbs ≤ 9007199254740991) :
    safeInteger? (some (.int z)) = some z := by
  have hden : ((z : Int) : ℚ).den = 1 := Rat.den_intCast z
  have hnum : ((z : Int) : ℚ).num = z := Rat.num_intCast z
  show (if ((z : Int) : ℚ).den = 1 ∧ ((z : Int) : ℚ).num.natAbs ≤ 9007199254740991 then
    some ((z : Int) : ℚ).num else none) = some z
  rw [hden, hnum, if_pos ⟨rfl, h⟩]

/-- The index, once it is known to be one of the batch. -/
theorem ge_count {receipt : Json} {k : Int} {n : Nat} (h : receipt.get "count" = some (.int n)) :
    JsonVal.ge H.toNode (some (.int k)) (receipt.get "count") = .ok (decide ((n : Int) ≤ k)) := by
  rw [h]
  show Except.ok (Prim.ge H.toNode (Prim.int k) (Prim.int n)) = _
  rw [Prim.ge_int]

/-- The leaf that a proof claims, with the time it carries where the batch has times. -/
def claimed (timed : Bool) (id : JsString) (p : JsonVal) : JsString × Option Int :=
  (id, if timed then safeInteger? (p.get? "t") else none)

/-- **What `inBatch` accepts** is a climb from the claimed leaf at an index below the count. -/
theorem inBatch_true {receipt : Json} {tree : Merkle.Tree} {timed : Bool}
    {leaves : List (JsString × Option Int)} (hc : Commits H receipt tree timed leaves)
    {id : JsString} {p : JsonVal} (h : inBatch H receipt (some (.str id)) p = .ok true) :
    ∃ k : Nat, k < leaves.length ∧ (claimed timed id p).2.isSome = timed ∧
      Merkle.verifyProof H (Merkle.leafHash H.toNode (leafOf (claimed timed id p)))
        (p.get? "branch") (some (.int k)) (receipt.get "root") = .ok true := by
  unfold inBatch at h
  split at h
  · cases h
  · rename_i index hindex
    split at h
    · cases h
    · rename_i hneg
      rw [ge_count hc.count, Outcome.ok_bind] at h
      split at h
      · cases h
      · rename_i hge
        rw [decide_eq_true_eq, not_le] at hge
        obtain ⟨k, rfl⟩ := Int.eq_ofNat_of_zero_le (not_lt.mp hneg)
        refine ⟨k, by omega, ?_⟩
        cases timed with
        | true =>
            rw [if_pos hc.kind] at h
            split at h
            · cases h
            · rename_i t ht
              obtain ⟨out, _, h⟩ := Outcome.bind_eq_ok.mp h
              split at h
              · cases h
              · rw [leafBytes_eq, Outcome.ok_bind] at h
                have hclaim : claimed true id p = (id, some t) := by
                  rw [claimed, if_pos rfl, ht]
                rw [hclaim]
                exact ⟨rfl, h⟩
        | false =>
            rw [if_neg (by rw [hc.kind]; exact Bool.false_ne_true)] at h
            rw [leafBytes_eq, Outcome.ok_bind] at h
            exact ⟨rfl, h⟩

/-- **A batch covers only its leaves**: whatever the branch and the index, an accepted proof is of a
leaf, with its time. -/
theorem mem_of_inBatch (hH : MerkleTree.CollisionFree H.sha256) {receipt : Json}
    {tree : Merkle.Tree} {timed : Bool} {leaves : List (JsString × Option Int)}
    (hc : Commits H receipt tree timed leaves) (hids : ∀ q ∈ leaves, WellFormed q.1)
    {id : JsString} (hid : WellFormed id) {p : JsonVal}
    (h : inBatch H receipt (some (.str id)) p = .ok true) : claimed timed id p ∈ leaves := by
  obtain ⟨k, hk, hkind, hproof⟩ := inBatch_true hc h
  obtain ⟨sibs, hroot⟩ := Merkle.verifyProof_climbs H hproof
  have htree := hc.tree
  rw [map_leafHash] at htree
  obtain ⟨levels, root, hlevels, htop, _⟩ := Merkle.buildTree_root H.toNode htree
  rw [hc.root, htop, Option.some.injEq, Json.str.injEq] at hroot
  have hclimb := Hex.encode_injective hroot
  have hplace := MerkleTree.climb_binds hH hlevels hclimb.symm (by rwa [List.length_map])
  rw [List.getElem?_map, Option.map_eq_some_iff] at hplace
  obtain ⟨q, hq, hleaf⟩ := hplace
  have hmem := List.mem_of_getElem? hq
  have hsame : q = claimed timed id p :=
    leafOf_inj (hids q hmem) hid ((hc.times q hmem).trans hkind.symm) hleaf
  rw [← hsame]
  exact hmem

/-- **A leaf is covered**, at any of its places, by the branch of that place. -/
theorem inBatch_of_mem {receipt : Json} {tree : Merkle.Tree} {timed : Bool}
    {leaves : List (JsString × Option Int)} (hc : Commits H receipt tree timed leaves) {k : Nat}
    {id : JsString} {t : Option Int} (hk : leaves[k]? = some (id, t))
    (hroom : leaves.length < 4294967296) {p : Json} (hindex : p.get "index" = some (.int k))
    (hbranch : p.get "branch" = some (.arr ((Merkle.proof tree k).map .str)))
    (htime : p.get "t" = t.map .int) (htruthy : p.truthy = true) :
    inBatch H receipt (some (.str id)) (some p) = .ok true := by
  have hlt : k < leaves.length := (List.getElem?_eq_some_iff.mp hk).1
  have hmem := List.mem_of_getElem? hk
  have hproof : Merkle.verifyProof H (Merkle.leafHash H.toNode (leafOf (id, t))) (p.get "branch")
      (some (.int k)) (receipt.get "root") = .ok true := by
    have htree := hc.tree
    rw [map_leafHash] at htree
    obtain ⟨levels, root, hlevels, htop, hbranches⟩ := Merkle.buildTree_root H.toNode htree
    rw [hc.root, htop, hbranch, hbranches, List.map_map]
    refine Merkle.verifyProof_branch H hlevels ?_
    rw [List.getElem?_map, List.getElem?_map, hk]
    rfl
  have hsafe : safeInteger? (JsonVal.get? (some p) "index") = some (k : Int) := by
    show safeInteger? (p.get "index") = _
    rw [hindex]
    exact safeInteger?_int (by omega)
  have hinside : ¬ (k : Int) < 0 := by omega
  have hbelow : ¬ decide ((leaves.length : Int) ≤ k) = true := by
    rw [decide_eq_true_eq]
    omega
  unfold inBatch
  rw [if_pos (show JsonVal.truthy (some p) = true from htruthy), hsafe]
  dsimp only
  rw [if_neg hinside, ge_count hc.count, Outcome.ok_bind, if_neg hbelow]
  cases t with
  | some t =>
      have htimed : timed = true := (hc.times _ hmem).symm
      obtain ⟨hsmall, hwindow⟩ := hc.window _ hmem t rfl
      have htsafe : safeInteger? (JsonVal.get? (some p) "t") = some t := by
        show safeInteger? (p.get "t") = _
        rw [htime]
        exact safeInteger?_int hsmall
      rw [if_pos (hc.kind.trans htimed), htsafe]
      dsimp only
      rw [hwindow, Outcome.ok_bind, if_neg Bool.false_ne_true, leafBytes_eq, Outcome.ok_bind]
      exact hproof
  | none =>
      have htimed : timed = false := (hc.times _ hmem).symm
      rw [if_neg (by rw [hc.kind, htimed]; exact Bool.false_ne_true), leafBytes_eq, Outcome.ok_bind]
      exact hproof

/-! ## What was made -/

theorem mapM_leafHash (leaves : List (JsString × Option Int)) :
    (leaves.mapM fun p => do
      return Merkle.leafHash H.toNode (← leafBytes H (some (.str p.1)) p.2) : Outcome _) =
        .ok (leaves.map fun p => Merkle.leafHash H.toNode (leafOf p)) := by
  induction leaves with
  | nil => rfl
  | cons p rest ih =>
      rw [List.mapM_cons, leafBytes_eq, Outcome.ok_bind, ih]
      rfl

theorem outsideWindow_eq (receipt : Json) (t : Int) :
    outsideWindow H receipt t = outside H (receipt.get "from") (receipt.get "to") t := rfl

theorem names_content (r : Request) (count : Nat) (root : JsString) (timed : Bool) :
    ([("kind", some (.text kind)), ("prevHop", r.prevHop), ("thisHop", r.thisHop),
      ("contactId", r.contactId), ("from", r.fromTime), ("to", r.toTime),
      ("count", some (.int count)), ("root", some (.str root))] ++
        if timed then [("leafTimes", some (.bool true))] else [] :
          List (String × JsonVal)).map Prod.fst =
      ["kind", "prevHop", "thisHop", "contactId", "from", "to", "count", "root"] ++
        if timed then ["leafTimes"] else [] := by
  cases timed <;> rfl

/-- The record reads as its content does. -/
theorem signBatch_get {kp : AgentKey} {r : Request} {leaves : List (JsString × Option Int)} {timed : Bool}
    {batch : Made} (h : signBatch H kp r leaves timed = .ok batch) {name : String} {v : JsonVal}
    (hname : name ∉ Json.credentialFields)
    (hv : (Json.obj (content r leaves.length batch.tree.root timed)).get name = v) :
    batch.receipt.get name = v := by
  unfold signBatch at h
  split at h
  · cases h
  · obtain ⟨tree, _, h⟩ := Outcome.bind_eq_ok.mp h
    obtain ⟨receipt, hreceipt, h⟩ := Outcome.bind_eq_ok.mp h
    cases h
    have hne : ∀ other ∈ Json.credentialFields, js name ≠ js other := by
      intro other hother heq
      rw [js_inj] at heq
      exact hname (heq ▸ hother)
    rw [← hv]
    exact Receipt.get_signRecord H hreceipt (hne _ (by decide)) (hne _ (by decide)) (hne _ (by decide))

/-- The values that the record was made with. -/
theorem signBatch_field {kp : AgentKey} {r : Request} {leaves : List (JsString × Option Int)} {timed : Bool}
    {batch : Made} (h : signBatch H kp r leaves timed = .ok batch) {name : String} {v : JsonVal}
    (hname : name ∉ Json.credentialFields)
    (hv : (name, v) ∈ [("kind", some (.text kind)), ("prevHop", r.prevHop), ("thisHop", r.thisHop),
      ("contactId", r.contactId), ("from", r.fromTime), ("to", r.toTime),
      ("count", some (.int leaves.length)), ("root", some (.str batch.tree.root))]) :
    batch.receipt.get name = v := by
  refine signBatch_get h hname (get_present ?_ (List.mem_append_left _ hv))
  rw [names_content]
  cases timed <;> decide

/-- **The signed record commits to its leaves.** -/
theorem signBatch_commits {kp : AgentKey} {r : Request} {leaves : List (JsString × Option Int)}
    {timed : Bool} {batch : Made} (htimes : ∀ p ∈ leaves, p.2.isSome = timed)
    (hwindow : ∀ p ∈ leaves, ∀ t, p.2 = some t → t.natAbs ≤ 9007199254740991 ∧
      outside H r.fromTime r.toTime t = .ok false)
    (h : signBatch H kp r leaves timed = .ok batch) :
    Commits H batch.receipt batch.tree timed leaves ∧ batch.leaves = leaves.map Prod.fst ∧
      batch.leafTimes = if timed then some (leaves.map Prod.snd) else none := by
  have hfield := @signBatch_field H kp r leaves timed batch h
  have hget := @signBatch_get H kp r leaves timed batch h
  have hfrom : batch.receipt.get "from" = r.fromTime := hfield (by decide) (by simp)
  have hto : batch.receipt.get "to" = r.toTime := hfield (by decide) (by simp)
  unfold signBatch at h
  split at h
  · cases h
  · obtain ⟨tree, htree, h⟩ := Outcome.bind_eq_ok.mp h
    obtain ⟨receipt, hreceipt, h⟩ := Outcome.bind_eq_ok.mp h
    cases h
    rw [leafTree, mapM_leafHash, Outcome.ok_bind] at htree
    refine ⟨⟨hfield (by decide) (by simp), hfield (by decide) (by simp), ?_, htree, htimes, ?_⟩, rfl,
      rfl⟩
    · cases timed with
      | true =>
          rw [hget (v := some (.bool true)) (by decide)]
          · rfl
          · refine get_present ?_ (List.mem_append_right _ (List.mem_singleton.mpr rfl))
            rw [names_content]
            decide
      | false =>
          rw [hget (v := none) (by decide)]
          · rfl
          · apply get_present_of_not_mem
            rw [names_content]
            decide
    · intro p hp t ht
      rw [outsideWindow_eq, hfrom, hto]
      exact hwindow p hp t ht

/-- What the loop over the times has put into the map. -/
structure Placed (H : Host) (r : Request) (pairs : List (JsString × Json))
    (before after : JsMap JsString Int) : Prop where
  once : (pairs.map Prod.fst).Nodup
  fresh : ∀ p ∈ pairs, p.1 ∉ before.keys
  entries : ∀ id t, after.get? id = some t ↔
    before.get? id = some t ∨ ∃ v, (id, v) ∈ pairs ∧ safeInteger? (some v) = some t
  inside : ∀ p ∈ pairs, ∃ t, safeInteger? (some p.2) = some t ∧
    outside H r.fromTime r.toTime t = .ok false
  length : after.keys.length = before.keys.length + pairs.length

theorem placeTime_ok {r : Request} {m m' : JsMap JsString Int} {id : JsString} {v : Json}
    (h : placeTime H r m id v = .ok m') : ∃ t, safeInteger? (some v) = some t ∧
      outside H r.fromTime r.toTime t = .ok false ∧ m.has id = false ∧ m' = m.set id t := by
  unfold placeTime at h
  split at h
  · cases h
  · rename_i t ht
    obtain ⟨out, hout, h⟩ := Outcome.bind_eq_ok.mp h
    split at h
    · cases h
    · rename_i hinside
      split at h
      · cases h
      · rename_i hnew
        cases h
        rw [Bool.not_eq_true] at hinside hnew
        exact ⟨t, ht, hinside ▸ hout, hnew, rfl⟩

theorem placeTimes_placed {r : Request} {pairs : List (JsString × Json)} :
    ∀ {m m' : JsMap JsString Int}, placeTimes H r m pairs = .ok m' → Placed H r pairs m m' := by
  induction pairs with
  | nil =>
      intro m m' h
      cases h
      exact ⟨List.nodup_nil, fun p hp => (by cases hp), fun id t => by simp, fun p hp => (by cases hp),
        rfl⟩
  | cons p rest ih =>
      intro m m' h
      obtain ⟨id, v⟩ := p
      rw [placeTimes] at h
      obtain ⟨m₁, hm₁, h⟩ := Outcome.bind_eq_ok.mp h
      obtain ⟨t, ht, hinside, hnew, rfl⟩ := placeTime_ok hm₁
      have hrest := ih h
      have hid : ∀ q ∈ rest, q.1 ≠ id := by
        rintro q hq rfl
        exact hrest.fresh q hq (JsMap.mem_keys_set.mpr (Or.inr rfl))
      have hnot : id ∉ m.keys := by
        rw [← JsMap.has_iff, hnew]
        exact Bool.false_ne_true
      refine ⟨?_, ?_, ?_, ?_, ?_⟩
      · rw [List.map_cons, List.nodup_cons]
        refine ⟨fun hmem => ?_, hrest.once⟩
        obtain ⟨q, hq, hqid⟩ := List.mem_map.mp hmem
        exact hid q hq hqid
      · intro q hq
        rcases List.mem_cons.mp hq with rfl | hq
        · exact hnot
        · intro hmem
          exact hrest.fresh q hq (JsMap.mem_keys_set.mpr (Or.inl hmem))
      · intro other s
        rw [hrest.entries]
        by_cases heq : other = id
        · subst heq
          have hnone : m.get? other = none := JsMap.get?_eq_none_iff.mpr hnot
          rw [JsMap.get?_set_self, hnone]
          constructor
          · rintro (hs | ⟨w, hw, _⟩)
            · exact Or.inr ⟨v, List.mem_cons_self, ht.trans hs⟩
            · exact absurd rfl (hid _ hw)
          · rintro (hs | ⟨w, hw, hs⟩)
            · cases hs
            · rcases List.mem_cons.mp hw with heq | hw
              · cases heq
                exact Or.inl (ht.symm.trans hs)
              · exact absurd rfl (hid _ hw)
        · rw [JsMap.get?_set_ne m heq]
          simp [heq]
      · intro q hq
        rcases List.mem_cons.mp hq with rfl | hq
        · exact ⟨t, ht, hinside⟩
        · exact hrest.inside q hq
      · rw [hrest.length, JsMap.keys_set_of_not_has hnew]
        simp only [List.length_append, List.length_cons, List.length_nil]
        omega

theorem mem_sortIds {ids : List JsString} {id : JsString} : id ∈ sortIds ids ↔ id ∈ ids :=
  List.mem_insertionSort _

/-- The leaves of a batch are its bundles, with the times given for them. -/
structure Covers (r : Request) (leaves : List (JsString × Option Int)) : Prop where
  ids : ∀ id, id ∈ leaves.map Prod.fst ↔ id ∈ r.bundleIds
  length : leaves.length ≤ r.bundleIds.length
  given : ∀ ts, r.times = some (.arr ts) → ∀ id t (i : Nat), (id, some t) ∈ leaves →
    r.bundleIds[i]? = some id → ts[i]? = some (Json.int t)

theorem map_fst_pair {α β : Type} (f : α → β) (xs : List α) :
    (xs.map fun x => (x, f x)).map Prod.fst = xs := by
  rw [List.map_map]
  exact List.map_id xs

/-- The ids and times of a batch with times: each id once, its time inside the window. -/
theorem timedLeaves_covers {r : Request} {times : Json}
    {leaves : List (JsString × Option Int)}
    (hr : r.times = some times) (h : timedLeaves H r (some times) = .ok leaves) :
    Covers r leaves ∧ (∀ p ∈ leaves, p.2.isSome = true) ∧ ∀ p ∈ leaves, ∀ t, p.2 = some t →
      t.natAbs ≤ 9007199254740991 ∧ outside H r.fromTime r.toTime t = .ok false := by
  unfold timedLeaves at h
  split at h
  · rename_i ts hts
    cases hts
    split at h
    · cases h
    · rename_i hlen
      rw [not_not] at hlen
      obtain ⟨times, htimes, h⟩ := Outcome.bind_eq_ok.mp h
      cases h
      have hplaced := placeTimes_placed htimes
      have hfst : (r.bundleIds.zip ts).map Prod.fst = r.bundleIds :=
        List.map_fst_zip (by omega)
      have hentries : ∀ id t, times.get? id = some t ↔
          ∃ v, (id, v) ∈ r.bundleIds.zip ts ∧ safeInteger? (some v) = some t := by
        intro id t
        rw [hplaced.entries, JsMap.get?_empty]
        simp
      have hkeys : ∀ id, id ∈ times.keys ↔ id ∈ r.bundleIds := by
        intro id
        rw [JsMap.mem_keys_iff, ← hfst, List.mem_map]
        constructor
        · rintro ⟨t, ht⟩
          obtain ⟨v, hv, _⟩ := (hentries id t).mp ht
          exact ⟨_, hv, rfl⟩
        · rintro ⟨⟨_, v⟩, hv, rfl⟩
          obtain ⟨t, ht, _⟩ := hplaced.inside _ hv
          exact ⟨t, (hentries _ t).mpr ⟨v, hv, ht⟩⟩
      have hmem : ∀ p ∈ (sortIds times.keys).map fun id => (id, times.get? id),
          p.1 ∈ times.keys ∧ p.2 = times.get? p.1 := by
        intro p hp
        obtain ⟨id, hid, rfl⟩ := List.mem_map.mp hp
        exact ⟨mem_sortIds.mp hid, rfl⟩
      refine ⟨⟨?_, ?_, ?_⟩, ?_, ?_⟩
      · intro id
        rw [map_fst_pair, mem_sortIds, hkeys]
      · rw [List.length_map, sortIds, List.length_insertionSort, hplaced.length,
          List.length_zip, hlen]
        simp [JsMap.keys, JsMap.empty]
      · intro ts' hts' id t i hleaf hi
        rw [hr, Option.some.injEq, Json.arr.injEq] at hts'
        subst hts'
        obtain ⟨v, hv, ht⟩ := (hentries id t).mp (hmem _ hleaf).2.symm
        obtain ⟨j, hj⟩ := List.mem_iff_getElem?.mp hv
        obtain ⟨hjid, hjv⟩ := List.getElem?_zip_eq_some.mp hj
        -- every id is there once, so the two positions are one
        have honce : r.bundleIds.Nodup := hfst ▸ hplaced.once
        have hij : i = j := by
          obtain ⟨hlt, _⟩ := List.getElem?_eq_some_iff.mp hi
          exact (List.getElem?_inj hlt honce).mp (hi.trans hjid.symm)
        rw [hij, hjv]
        exact (safeInteger?_some ht).1
      · intro p hp
        obtain ⟨hkey, hget⟩ := hmem p hp
        obtain ⟨t, ht⟩ := JsMap.mem_keys_iff.mp hkey
        rw [hget, ht]
        rfl
      · intro p hp t ht
        obtain ⟨v, hv, hsafe⟩ := (hentries p.1 t).mp ((hmem p hp).2.symm.trans ht)
        obtain ⟨s, hs, hinside⟩ := hplaced.inside _ hv
        rw [hsafe, Option.some.injEq] at hs
        subst hs
        exact ⟨(safeInteger?_some hsafe).2, hinside⟩
  · cases h

/-- **What `batchReceipt` makes**: a record that commits to leaves which are the bundles. -/
theorem batchReceipt_made {kp : AgentKey} {r : Request} {batch : Made}
    (h : batchReceipt H kp r = .ok batch) : ∃ leaves,
      Commits H batch.receipt batch.tree r.times.isSome leaves ∧ Covers r leaves ∧
        batch.leaves = leaves.map Prod.fst ∧
          batch.leafTimes = if r.times.isSome then some (leaves.map Prod.snd) else none := by
  unfold batchReceipt at h
  obtain ⟨open', _, h⟩ := Outcome.bind_eq_ok.mp h
  split at h
  · split at h
    · rename_i hr
      obtain ⟨hcommits, hleaves, htimes⟩ := signBatch_commits (by
          intro p hp
          obtain ⟨id, _, rfl⟩ := List.mem_map.mp hp
          rfl) (by
          intro p hp t ht
          obtain ⟨id, _, rfl⟩ := List.mem_map.mp hp
          cases ht) h
      refine ⟨_, by rw [hr]; exact hcommits, ⟨?_, ?_, ?_⟩, hleaves, by rw [hr]; exact htimes⟩
      · intro id
        rw [map_fst_pair, mem_sortIds, distinctIds, List.mem_eraseDups]
      · rw [List.length_map, sortIds, List.length_insertionSort]
        exact (eraseDups_sublist _).length_le
      · intro ts hts
        rw [hr] at hts
        cases hts
    · rename_i times hr
      obtain ⟨leaves, hleaves, h⟩ := Outcome.bind_eq_ok.mp h
      obtain ⟨hcovers, hsome, hwindow⟩ := timedLeaves_covers hr hleaves
      obtain ⟨hcommits, hids, htimes⟩ := signBatch_commits hsome hwindow h
      exact ⟨leaves, by rw [hr]; exact hcommits, hcovers, hids, by rw [hr]; exact htimes⟩
  · cases h

/-- The receipt names the window it was made with. -/
theorem batchReceipt_field {kp : AgentKey} {r : Request} {batch : Made} (h : batchReceipt H kp r = .ok batch)
    {name : String} {v : JsonVal} (hname : name ∉ Json.credentialFields)
    (hv : (name, v) ∈ [("prevHop", r.prevHop), ("thisHop", r.thisHop), ("contactId", r.contactId),
      ("from", r.fromTime), ("to", r.toTime)]) : batch.receipt.get name = v := by
  have hmade : ∀ {leaves : List (JsString × Option Int)} {timed : Bool},
      signBatch H kp r leaves timed = .ok batch → batch.receipt.get name = v := by
    intro leaves timed hsign
    refine signBatch_field hsign hname (List.mem_cons_of_mem _ ?_)
    exact List.mem_append_left [("count", some (.int leaves.length)), ("root", some (.str batch.tree.root))] hv
  unfold batchReceipt at h
  obtain ⟨opens, _, h⟩ := Outcome.bind_eq_ok.mp h
  split at h
  · split at h
    · exact hmade h
    · obtain ⟨leaves, _, h⟩ := Outcome.bind_eq_ok.mp h
      exact hmade h
  · cases h

/-- The proof of a covered bundle is the branch of its place. -/
theorem batchProof_get {batch : Made} {leaves : List (JsString × Option Int)} {timed : Bool}
    (hids : batch.leaves = leaves.map Prod.fst)
    (htimes : batch.leafTimes = if timed then some (leaves.map Prod.snd) else none)
    (hkind : ∀ p ∈ leaves, p.2.isSome = timed) {id : JsString} (hid : id ∈ leaves.map Prod.fst) :
    ∃ (k : Nat) (t : Option Int), leaves[k]? = some (id, t) ∧ (batchProof batch id).truthy = true ∧
      (batchProof batch id).get "index" = some (.int k) ∧
      (batchProof batch id).get "branch" = some (.arr ((Merkle.proof batch.tree k).map .str)) ∧
      (batchProof batch id).get "t" = t.map .int := by
  have hsome : (batch.leaves.findIdx? (· = id)).isSome = true := by
    rw [List.findIdx?_isSome, List.any_eq_true]
    exact ⟨id, hids ▸ hid, decide_eq_true rfl⟩
  obtain ⟨k, hk⟩ := Option.isSome_iff_exists.mp hsome
  obtain ⟨hlt, hplace, _⟩ := List.findIdx?_eq_some_iff_getElem.mp hk
  have hfst : (leaves.map Prod.fst)[k]? = some id := by
    rw [← hids, List.getElem?_eq_getElem hlt, of_decide_eq_true hplace]
  rw [List.getElem?_map, Option.map_eq_some_iff] at hfst
  obtain ⟨⟨_, t⟩, hleaf, rfl⟩ := hfst
  have hkindof := hkind _ (List.mem_of_getElem? hleaf)
  have hindex : js "index" ≠ js "branch" := by rw [ne_eq, js_inj]; decide
  have hbranch : js "index" ≠ js "t" := by rw [ne_eq, js_inj]; decide
  have htime : js "branch" ≠ js "t" := by rw [ne_eq, js_inj]; decide
  refine ⟨k, t, hleaf, ?_⟩
  unfold batchProof
  rw [hk]
  dsimp only
  refine ⟨rfl, by simp [Json.get], by simp [Json.get, hindex], ?_⟩
  rw [htimes]
  cases timed with
  | true =>
      obtain ⟨t, rfl⟩ := Option.isSome_iff_exists.mp hkindof
      have hget : (leaves.map Prod.snd).getD k none = some t := by
        rw [List.getD_eq_getElem?_getD, List.getElem?_map, hleaf]
        rfl
      rw [if_pos rfl]
      dsimp only
      rw [hget]
      simp [Json.get, present, hbranch, htime]
  | false =>
      cases t with
      | some t => cases hkindof
      | none => simp [Json.get, hbranch, htime]

/-! ## What a batch covers -/

/-- **A batch covers exactly its bundles**: some proof of an id is accepted if and only if the id is
one of the batch, the batch's own proof is one, and with times an accepted proof has the time that was
given for the id. -/
theorem batch_covers_exactly (hH : MerkleTree.CollisionFree H.sha256) {kp : AgentKey} {r : Request}
    {batch : Made} (h : batchReceipt H kp r = .ok batch) (hids : ∀ id ∈ r.bundleIds, WellFormed id)
    {id : JsString} (hid : WellFormed id) :
    ((∃ p, inBatch H batch.receipt (some (.str id)) p = .ok true) ↔ id ∈ r.bundleIds) ∧
      (id ∈ r.bundleIds →
        inBatch H batch.receipt (some (.str id)) (some (batchProof batch id)) = .ok true) ∧
      ∀ ts p, r.times = some (.arr ts) → inBatch H batch.receipt (some (.str id)) p = .ok true →
        ∀ i : Nat, r.bundleIds[i]? = some id → p.get? "t" = ts[i]? := by
  obtain ⟨leaves, hcommits, hcovers, hleaves, htimes⟩ := batchReceipt_made h
  have hwf : ∀ q ∈ leaves, WellFormed q.1 := fun q hq =>
    hids _ ((hcovers.ids _).mp (List.mem_map_of_mem hq))
  have hown : id ∈ r.bundleIds →
      inBatch H batch.receipt (some (.str id)) (some (batchProof batch id)) = .ok true := by
    intro hmem
    obtain ⟨k, t, hk, htruthy, hindex, hbranch, htime⟩ :=
      batchProof_get hleaves htimes hcommits.times ((hcovers.ids id).mpr hmem)
    have hroom := lt_of_le_of_lt hcovers.length r.fits
    exact inBatch_of_mem hcommits hk hroom hindex hbranch htime htruthy
  refine ⟨⟨?_, fun hmem => ⟨_, hown hmem⟩⟩, hown, ?_⟩
  · rintro ⟨p, hp⟩
    have hleaf := mem_of_inBatch hH hcommits hwf hid hp
    exact (hcovers.ids id).mp (List.mem_map_of_mem hleaf)
  · intro ts p hts hp i hi
    have hleaf := mem_of_inBatch hH hcommits hwf hid hp
    have htimed : r.times.isSome = true := by rw [hts]; rfl
    rw [claimed, if_pos htimed] at hleaf
    obtain ⟨t, ht⟩ := Option.isSome_iff_exists.mp ((hcommits.times _ hleaf).trans htimed)
    dsimp only at ht
    rw [ht] at hleaf
    rw [(safeInteger?_some ht).1, hcovers.given ts hts id t i hleaf hi]

/-- Three bundles with their times, so that the layer of the leaves is odd. -/
def sampleRequest : Request where
  prevHop := some (.text "s")
  thisHop := some (.text "m")
  contactId := some (.text "c")
  fromTime := some (.int 100)
  toTime := some (.int 900)
  bundleIds := [js "b2", js "b1", js "b3"]
  fits := by decide
  times := some (.arr [.int 700, .int 150, .int 300])

/-- What the sample batch covers, and at what time. -/
theorem sampleRequest_covers : ∃ batch,
    batchReceipt Path.sampleHost Path.sampleKey sampleRequest = .ok batch ∧
      ((∃ p, inBatch Path.sampleHost batch.receipt (some (.str (js "b1"))) p = .ok true) ↔
        js "b1" ∈ sampleRequest.bundleIds) ∧
      (js "b1" ∈ sampleRequest.bundleIds → inBatch Path.sampleHost batch.receipt
        (some (.str (js "b1"))) (some (batchProof batch (js "b1"))) = .ok true) ∧
      ∀ ts p, sampleRequest.times = some (.arr ts) →
        inBatch Path.sampleHost batch.receipt (some (.str (js "b1"))) p = .ok true →
          ∀ i : Nat, sampleRequest.bundleIds[i]? = some (js "b1") → p.get? "t" = ts[i]? := by
  have hok : (batchReceipt Path.sampleHost Path.sampleKey sampleRequest).isOk = true := by
    decide +kernel
  have hids : ∀ id ∈ sampleRequest.bundleIds, WellFormed id := by
    intro id hid
    simp only [sampleRequest, List.mem_cons, List.not_mem_nil, or_false] at hid
    rcases hid with rfl | rfl | rfl <;> exact wellFormed_js _
  cases h : batchReceipt Path.sampleHost Path.sampleKey sampleRequest with
  | error e =>
      rw [h] at hok
      cases hok
  | ok batch =>
      exact ⟨batch, rfl, batch_covers_exactly sampleHash_collisionFree h hids (wellFormed_js "b1")⟩

end Batch

end DtnCustody
