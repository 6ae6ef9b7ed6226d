/-
# DtnCustody.Relief.Region — `relief/scale/sim.mjs` (`settle`): what the hub pays, from the evidence.

The hub judges every bundle that was delivered, and then every bundle that some batch covers and that
was not. For each it searches the paths from the clinic through the records that cover the bundle,
the longest first, for one that `verifyPath` accepts, all calls sharing one cache. On a delivered
path every hop is paid; on the path of a bundle that is missing, every hop but the last.

The two loops write `ok`, `failures`, `missing` and `paid` and never read them. So they are modelled
in two steps: what is found for each bundle (`judge`), and the books kept of that (`books`).

Every path that is found is a path of records that cover the bundle, and `verifyPath` has accepted
it (`Judged.Traced`). The books pay what the paths say and nothing else (`mem_paid_iff`), each
bundle once to one custodian (`nodup_paid`).
-/
import DtnCustody.Agent.Batch
import DtnCustody.Agent.Dest
import DtnCustody.Agent.Pinned

namespace DtnCustody.Scale

open Base Js DtnCustody.Path

/-! ## Regions and evidence -/

/-- `region`, as far as the accounting reads it. -/
structure Region where
  /-- The public key of each node. -/
  keys : JsMap JsString JsString
  clinics : List JsString
  relays : List JsString

structure Delivery where
  bundleId : JsString
  relay : JsString

structure Evidence where
  manifests : JsMap JsString Json
  bundles : JsMap JsString Json
  delivered : List Delivery
  batches : List Batch.Made

/-- Why a bundle failed: a reason, or what making its destination threw. -/
inductive Failure where
  | reason (text : String)
  | thrown (e : Err)
  deriving DecidableEq, Repr

/-! ## Paths -/

/-- The batches by the bundles they cover: a batch is there once for each of its leaves. -/
def covering (batches : List Batch.Made) : JsMap JsString (List Batch.Made) :=
  batches.foldl (fun m b => b.leaves.foldl
    (fun m id => m.set id ((m.get? id).getD [] ++ [b])) m) JsMap.empty

/-- The records that cover a bundle, with their proofs. -/
def entries (batches : List Batch.Made) (bundleId : JsString) : List Entry :=
  ((((covering batches).get? bundleId).getD []).zipIdx.map fun p =>
    { receipt := p.1.receipt, proof := Batch.batchProof p.1 bundleId, ref := p.2 }).filter
      fun e => e.proof.truthy

/-- `walk(at, path, depth)`, with `left` for `5 - depth`. -/
def walkFrom (es : List Entry) : (left : Nat) → JsonVal → List Entry → Outcome (List (List Entry))
  | 0, _, path => .ok (if path.isEmpty then [] else [path])
  | left + 1, hop, path => do
      let onward ← es.mapM fun e => do
        if JsonVal.strictEq (← JsonVal.get (some e.receipt) "prevHop") hop &&
            !path.any fun p => p.ref = e.ref then
          walkFrom es left (← JsonVal.get (some e.receipt) "thisHop") (path ++ [e])
        else return []
      return (if path.isEmpty then [] else [path]) ++ onward.flatten

/-- `paths(bundleId, source)`: the longest first, in the order they were found. -/
def paths (batches : List Batch.Made) (bundleId source : JsString) :
    Outcome (List (List Entry)) := do
  let out ← walkFrom (entries batches bundleId) 5 (some (.str source)) []
  return out.insertionSort fun a b => b.length ≤ a.length

/-- `links[links.length - 1].receipt.thisHop`. -/
def lastHop (links : List Entry) : JsonVal := links.getLast?.bind Entry.thisHop

variable (H : Host)

/-- One loop over paths: the first that is eligible and that `verifyPath` accepts, or the reason the
first of the others was refused for. -/
def firstVerified (keys : JsMap JsString JsString) (id source : JsString)
    (eligible : List Entry → Bool) (destination : List Entry → JsonVal) :
    Cache → Option String → List (List Entry) → Outcome ((Option String ⊕ List Entry) × Cache)
  | cache, firstFail, [] => .ok (.inl firstFail, cache)
  | cache, firstFail, links :: rest =>
      if eligible links then
        let called := verifyPath H cache (some (.arr (links.map Entry.link)))
          { bundleId := some (.str id), source := some (.str source),
            destination := destination links, authorize := some (pinnedDirectory keys) }
        match called.1 with
        | .error e => .error e
        | .ok (.ok _ _) => .ok (.inr links, called.2)
        | .ok (.fail reason _) =>
            firstVerified keys id source eligible destination called.2
              (some (firstFail.getD reason)) rest
      else firstVerified keys id source eligible destination cache firstFail rest

/-! ## Judging -/

/-- What is found for a bundle: the path its hops are paid on, or why there is none. -/
inductive Finding where
  | failed (why : Failure)
  | path (links : List Entry)

/-- The `cache` of verdicts and the `dests` of payloads, which both loops fill. -/
structure Work where
  cache : Cache
  dests : JsMap JsString (Failure ⊕ Dest)

/-- `clinicOf.has(v)`. -/
def knownClinic (r : Region) : JsonVal → Option JsString
  | some (.str c) => if c ∈ r.clinics then some c else none
  | _ => none

/-- `relaySet.has(v)`. -/
def isRelay (r : Region) : JsonVal → Bool
  | some (.str s) => s ∈ r.relays
  | _ => false

/-- The manifest of a bundle, and the clinic it names, if the region has it. -/
def payloadOf (r : Region) (E : Evidence) (b : Json) : Option (JsString × Json × JsString) :=
  match b.get "payloadId" with
  | some (.str payloadId) => do
      let m ← E.manifests.get? payloadId
      if b.truthy && m.truthy then
        let clinic ← knownClinic r (JsonVal.get? (m.get "meta") "clinic")
        return (payloadId, m, clinic)
      else none
  | _ => none

/-- `dests.get(b.payloadId)`, or a destination made now. -/
def destFor (r : Region) (dests : JsMap JsString (Failure ⊕ Dest)) (payloadId : JsString)
    (m : Json) (clinic : JsString) : Failure ⊕ Dest :=
  match dests.get? payloadId with
  | some dest => dest
  | none =>
      let sourcePub : Pin :=
        match r.keys.get? clinic with
        | some key => .own (.str key)
        | none => .absent
      match Dest.makeDest H (some m) sourcePub with
      | .ok (.inr dest) => .inr dest
      | .ok (.inl reason) => .inl (.reason reason)
      | .error e => .inl (.thrown e)

/-- `firstFail || "no_custody_path"`. -/
def noPath (firstFail : Option String) : String :=
  match firstFail with
  | some reason => if reason = "" then "no_custody_path" else reason
  | none => "no_custody_path"

/-- The custody of a delivered bundle that its destination took. -/
def traceDelivered (r : Region) (E : Evidence) (w : Work) (id clinic relay : JsString) :
    Outcome (Finding × Work) := do
  let found ← firstVerified H r.keys id clinic
    (fun links => isRelay r (lastHop links) &&
      JsonVal.strictEq (lastHop links) (some (.str relay)))
    (fun _ => some (.str relay)) w.cache none (← paths E.batches id clinic)
  match found with
  | (.inr good, cache) => return (.path good, { w with cache })
  | (.inl firstFail, cache) => return (.failed (.reason (noPath firstFail)), { w with cache })

/-- One turn of the loop over the deliveries. -/
def judgeDelivered (r : Region) (E : Evidence) (w : Work) (d : JsString × Delivery) :
    Outcome (Finding × Work) :=
  match (E.bundles.get? d.1).bind fun b => (payloadOf r E b).map (b, ·) with
  | none => .ok (.failed (.reason "unknown_payload"), w)
  | some (b, payloadId, m, clinic) =>
      match destFor H r w.dests payloadId m clinic with
      | .inl why => .ok (.failed why, { w with dests := w.dests.set payloadId (.inl why) })
      | .inr dest =>
          let received := dest.receiveBundle H (some b)
          let w := { w with dests := w.dests.set payloadId (.inr received.2) }
          match received.1 with
          | .error e => .error e
          | .ok (some refusal) => .ok (.failed (.reason refusal.text), w)
          | .ok none => traceDelivered H r E w d.1 clinic d.2.relay

/-- One turn of the loop over the bundles that did not arrive: the path behind the first clinic that
is a `prevHop`, if there is one that verifies. -/
def judgeMissing (r : Region) (E : Evidence) (w : Work) (id : JsString) :
    Outcome (Option (List Entry) × Work) := do
  let hops ← (((covering E.batches).get? id).getD []).mapM fun b =>
    JsonVal.get (some b.receipt) "prevHop"
  match hops.findSome? (knownClinic r) with
  | none => return (none, w)
  | some clinic =>
      if clinic = [] then return (none, w)
      else
        let found ← firstVerified H r.keys id clinic (fun _ => true) lastHop w.cache none
          (← paths E.batches id clinic)
        match found with
        | (.inr links, cache) => return (some links, { w with cache })
        | (.inl _, cache) => return (none, { w with cache })

/-- A loop whose turns hand the work on. -/
def judgeAll {ι φ : Type} (turn : Work → ι → Outcome (φ × Work)) :
    Work → List ι → Outcome (List (ι × φ) × Work)
  | w, [] => .ok ([], w)
  | w, i :: rest => do
      let (found, w) ← turn w i
      let (later, w) ← judgeAll turn w rest
      return ((i, found) :: later, w)

/-- `deliveredIds`: the first delivery of each bundle. -/
def deliveredIds (delivered : List Delivery) : JsMap JsString Delivery :=
  delivered.foldl (fun m d => if m.has d.bundleId then m else m.set d.bundleId d) JsMap.empty

/-- What the two loops found. -/
structure Judged where
  delivered : List ((JsString × Delivery) × Finding)
  missing : List (JsString × Option (List Entry))
  work : Work

def judge (r : Region) (E : Evidence) : Outcome Judged := do
  let ids := deliveredIds E.delivered
  let (delivered, w) ← judgeAll (judgeDelivered H r E) ⟨JsMap.empty, JsMap.empty⟩ ids.entries
  let (missing, w) ← judgeAll (judgeMissing H r E) w
    ((covering E.batches).keys.filter fun id => !ids.has id)
  return ⟨delivered, missing, w⟩

/-! ## The books -/

structure Books where
  ok : List JsString := []
  failures : JsMap JsString Failure := JsMap.empty
  missing : JsMap JsString JsonVal := JsMap.empty
  /-- The bundles each custodian is paid for. -/
  paid : JsMap JsString (List JsString) := JsMap.empty

/-- `set.add(x)`. -/
def addTo (xs : List JsString) (x : JsString) : List JsString := if x ∈ xs then xs else xs ++ [x]

/-- `pay(eid, id)`. A hop that the directory accepted is a string. -/
def pay (paid : JsMap JsString (List JsString)) (eid : JsonVal) (id : JsString) :
    JsMap JsString (List JsString) :=
  match eid with
  | some (.str eid) => paid.set eid (addTo ((paid.get? eid).getD []) id)
  | _ => paid

def payAll (paid : JsMap JsString (List JsString)) (links : List Entry) (id : JsString) :
    JsMap JsString (List JsString) :=
  links.foldl (fun paid l => pay paid l.thisHop id) paid

def enterDelivered (books : Books) (found : (JsString × Delivery) × Finding) : Books :=
  match found with
  | ((id, _), .failed why) => { books with failures := books.failures.set id why }
  | ((id, _), .path links) =>
      { books with ok := addTo books.ok id, paid := payAll books.paid links id }

def enterMissing (books : Books) (found : JsString × Option (List Entry)) : Books :=
  match found with
  | (_, none) => books
  | (id, some links) =>
      { books with missing := books.missing.set id (lastHop links),
                   paid := payAll books.paid links.dropLast id }

def Judged.books (j : Judged) : Books :=
  j.missing.foldl enterMissing (j.delivered.foldl enterDelivered {})

structure Payout where
  handoffs : Nat
  sats : Int
  deriving DecidableEq, Repr

structure Settlement where
  ok : List JsString
  failures : JsMap JsString Failure
  missing : JsMap JsString JsonVal
  payouts : JsMap JsString Payout
  signatureChecks : Nat

/-- The payouts, from the bundles paid for. -/
def payouts (ratePerHandoffSats : Int) (paid : JsMap JsString (List JsString)) :
    JsMap JsString Payout :=
  JsMap.ofList (paid.entries.map fun p => (p.1, ⟨p.2.length, p.2.length * ratePerHandoffSats⟩))

def Judged.settlement (j : Judged) (ratePerHandoffSats : Int) : Settlement :=
  { ok := j.books.ok, failures := j.books.failures, missing := j.books.missing,
    payouts := payouts ratePerHandoffSats j.books.paid, signatureChecks := j.work.cache.size }

def settle (r : Region) (E : Evidence) (ratePerHandoffSats : Int) : Outcome Settlement := do
  return (← judge H r E).settlement ratePerHandoffSats

end DtnCustody.Scale

namespace DtnCustody.Scale

open Base Js DtnCustody.Path

/-! ## Searching -/

section Search

theorem mem_covering {batches : List Batch.Made} {id : JsString} {b : Batch.Made}
    (h : b ∈ ((covering batches).get? id).getD []) : b ∈ batches ∧ id ∈ b.leaves := by
  have leaves : ∀ (b' : Batch.Made) (ids : List JsString) (m : JsMap JsString (List Batch.Made)),
      b ∈ ((ids.foldl (fun m id => m.set id ((m.get? id).getD [] ++ [b'])) m).get? id).getD [] →
        b ∈ (m.get? id).getD [] ∨ b = b' ∧ id ∈ ids := by
    intro b' ids
    induction ids with
    | nil => intro m h; exact Or.inl h
    | cons other ids ih =>
        intro m h
        rcases ih _ h with h | ⟨rfl, hid⟩
        · by_cases hother : id = other
          · rw [hother, JsMap.get?_set_self, Option.getD_some, List.mem_append,
              List.mem_singleton] at h
            rcases h with h | rfl
            · exact Or.inl (hother ▸ h)
            · exact Or.inr ⟨rfl, hother ▸ List.mem_cons_self⟩
          · rw [JsMap.get?_set_ne m hother] at h
            exact Or.inl h
        · exact Or.inr ⟨rfl, List.mem_cons_of_mem _ hid⟩
  have all : ∀ (bs : List Batch.Made) (m : JsMap JsString (List Batch.Made)),
      b ∈ ((bs.foldl (fun m b => b.leaves.foldl
        (fun m id => m.set id ((m.get? id).getD [] ++ [b])) m) m).get? id).getD [] →
        b ∈ (m.get? id).getD [] ∨ b ∈ bs ∧ id ∈ b.leaves := by
    intro bs
    induction bs with
    | nil => intro m h; exact Or.inl h
    | cons b' bs ih =>
        intro m h
        rcases ih _ h with h | ⟨hb, hid⟩
        · rcases leaves b' _ _ h with h | ⟨rfl, hid⟩
          · exact Or.inl h
          · exact Or.inr ⟨List.mem_cons_self, hid⟩
        · exact Or.inr ⟨List.mem_cons_of_mem _ hb, hid⟩
  rcases all batches _ h with h | h
  · rw [JsMap.get?_empty] at h
    cases h
  · exact h

/-- An entry is the record of a batch that covers the bundle. -/
theorem mem_entries {batches : List Batch.Made} {id : JsString} {e : Entry}
    (h : e ∈ entries batches id) : ∃ b ∈ batches, id ∈ b.leaves ∧ e.receipt = b.receipt := by
  obtain ⟨p, hp, rfl⟩ := List.mem_map.mp (List.mem_filter.mp h).1
  obtain ⟨hb, hid⟩ := mem_covering (List.fst_mem_of_mem_zipIdx hp)
  exact ⟨p.1, hb, hid, rfl⟩

/-- The search finds paths of the entries it is given. -/
theorem mem_walkFrom {es : List Entry} :
    ∀ {left : Nat} {hop : JsonVal} {path : List Entry} {out : List (List Entry)},
      (∀ e ∈ path, e ∈ es) → walkFrom es left hop path = .ok out →
        ∀ links ∈ out, links ≠ [] ∧ ∀ e ∈ links, e ∈ es := by
  have here : ∀ {path links : List Entry}, (∀ e ∈ path, e ∈ es) →
      links ∈ (if path.isEmpty then [] else [path]) → links ≠ [] ∧ ∀ e ∈ links, e ∈ es := by
    intro path links hpath hlinks
    cases path with
    | nil => cases hlinks
    | cons e path =>
        cases List.mem_singleton.mp hlinks
        exact ⟨List.cons_ne_nil _ _, hpath⟩
  intro left
  induction left with
  | zero =>
      intro hop path out hpath h links hlinks
      cases h
      exact here hpath hlinks
  | succ left ih =>
      intro hop path out hpath h links hlinks
      obtain ⟨onward, honward, h⟩ := Outcome.bind_eq_ok.mp h
      cases h
      rcases List.mem_append.mp hlinks with hlinks | hlinks
      · exact here hpath hlinks
      · obtain ⟨found, hfound, hlinks⟩ := List.mem_flatten.mp hlinks
        obtain ⟨e, he, hturn⟩ := Outcome.mem_of_mapM honward hfound
        obtain ⟨prev, _, hturn⟩ := Outcome.bind_eq_ok.mp hturn
        split at hturn
        · obtain ⟨next, _, hturn⟩ := Outcome.bind_eq_ok.mp hturn
          refine ih (fun e' he' => ?_) hturn links hlinks
          rcases List.mem_append.mp he' with he' | he'
          · exact hpath e' he'
          · rwa [List.mem_singleton.mp he']
        · cases hturn
          cases hlinks

theorem mem_paths {batches : List Batch.Made} {id source : JsString} {out : List (List Entry)}
    (h : paths batches id source = .ok out) {links : List Entry} (hlinks : links ∈ out) :
    links ≠ [] ∧ ∀ e ∈ links, e ∈ entries batches id := by
  obtain ⟨found, hfound, h⟩ := Outcome.bind_eq_ok.mp h
  cases h
  rw [List.mem_insertionSort] at hlinks
  have hnone : ∀ e ∈ ([] : List Entry), e ∈ entries batches id := by
    intro e he
    cases he
  exact mem_walkFrom hnone hfound links hlinks

variable {H : Host}

/-- The path a loop stops at is eligible, and was accepted. -/
theorem firstVerified_found {keys : JsMap JsString JsString} {id source : JsString}
    {eligible : List Entry → Bool} {destination : List Entry → JsonVal} {out : List (List Entry)} :
    ∀ {cache cache' : Cache} {firstFail : Option String} {links : List Entry},
      firstVerified H keys id source eligible destination cache firstFail out
        = .ok (.inr links, cache') →
      links ∈ out ∧ eligible links = true ∧
        Accepted H keys { bundleId := some (.str id), source := some (.str source),
                          destination := destination links,
                          authorize := some (pinnedDirectory keys) } links := by
  induction out with
  | nil => intro cache cache' firstFail links h; cases h
  | cons path rest ih =>
      intro cache cache' firstFail links h
      rw [firstVerified] at h
      split at h
      · rename_i heligible
        dsimp only at h
        split at h
        · cases h
        · rename_i n k hcall
          cases h
          exact ⟨List.mem_cons_self, heligible, (verifyPath_accepted rfl hcall).1⟩
        · exact (ih h).imp_left (List.mem_cons_of_mem _)
      · exact (ih h).imp_left (List.mem_cons_of_mem _)

end Search

/-! ## What is found -/

/-- A path of records that cover the bundle, accepted from some source to the hop it ends at. -/
def Traced (H : Host) (r : Region) (E : Evidence) (id : JsString) (links : List Entry) : Prop :=
  links ≠ [] ∧ (∀ e ∈ links, e ∈ entries E.batches id) ∧
    ∃ source, Accepted H r.keys { bundleId := some (.str id), source := some (.str source),
                                  destination := lastHop links,
                                  authorize := some (pinnedDirectory r.keys) } links

theorem judgeAll_found {ι φ : Type} {turn : Work → ι → Outcome (φ × Work)} {xs : List ι} :
    ∀ {w w' : Work} {found : List (ι × φ)}, judgeAll turn w xs = .ok (found, w') →
      ∀ p ∈ found, p.1 ∈ xs ∧ ∃ w₀ w₁, turn w₀ p.1 = .ok (p.2, w₁) := by
  induction xs with
  | nil =>
      intro w w' found h p hp
      cases h
      cases hp
  | cons i rest ih =>
      intro w w' found h p hp
      obtain ⟨⟨x, w₁⟩, hx, h⟩ := Outcome.bind_eq_ok.mp h
      obtain ⟨⟨later, w₂⟩, hlater, h⟩ := Outcome.bind_eq_ok.mp h
      cases h
      rcases List.mem_cons.mp hp with rfl | hp
      · exact ⟨List.mem_cons_self, w, w₁, hx⟩
      · obtain ⟨hmem, hturn⟩ := ih hlater p hp
        exact ⟨List.mem_cons_of_mem _ hmem, hturn⟩

theorem mem_deliveredIds {delivered : List Delivery} {p : JsString × Delivery}
    (h : p ∈ (deliveredIds delivered).entries) : p.2 ∈ delivered ∧ p.2.bundleId = p.1 := by
  have all : ∀ (ds : List Delivery) (m : JsMap JsString Delivery),
      (ds.foldl (fun m d => if m.has d.bundleId then m else m.set d.bundleId d) m).get? p.1
        = some p.2 → m.get? p.1 = some p.2 ∨ p.2 ∈ ds ∧ p.2.bundleId = p.1 := by
    intro ds
    induction ds with
    | nil => intro m h; exact Or.inl h
    | cons d ds ih =>
        intro m h
        rcases ih _ h with h | ⟨hd, hid⟩
        · dsimp only at h
          split at h
          · exact Or.inl h
          · by_cases hp : p.1 = d.bundleId
            · rw [hp, JsMap.get?_set_self, Option.some.injEq] at h
              exact Or.inr ⟨h ▸ List.mem_cons_self, h ▸ hp.symm⟩
            · rw [JsMap.get?_set_ne m hp] at h
              exact Or.inl h
        · exact Or.inr ⟨List.mem_cons_of_mem _ hd, hid⟩
  rcases all delivered _ (JsMap.mem_entries_iff.mp h) with h | h
  · rw [JsMap.get?_empty] at h
    cases h
  · exact h

variable {H : Host} {r : Region} {E : Evidence}

/-- A turn over a delivery finds no path without a search, or what its search finds. -/
theorem judgeDelivered_cases {w w' : Work} {d : JsString × Delivery} {found : Finding}
    (h : judgeDelivered H r E w d = .ok (found, w')) :
    (∃ why, found = .failed why) ∧ w'.cache = w.cache ∨
      ∃ clinic out result, paths E.batches d.1 clinic = .ok out ∧
        firstVerified H r.keys d.1 clinic (fun links => isRelay r (lastHop links) &&
            JsonVal.strictEq (lastHop links) (some (.str d.2.relay)))
          (fun _ => some (.str d.2.relay)) w.cache none out = .ok (result, w'.cache) ∧
        ((∃ why, found = .failed why) ∨ ∃ links, result = .inr links ∧ found = .path links) := by
  unfold judgeDelivered at h
  split at h
  · cases h
    exact .inl ⟨⟨_, rfl⟩, rfl⟩
  · split at h
    · cases h
      exact .inl ⟨⟨_, rfl⟩, rfl⟩
    · dsimp only at h
      split at h
      · cases h
      · cases h
        exact .inl ⟨⟨_, rfl⟩, rfl⟩
      · obtain ⟨out, hout, h⟩ := Outcome.bind_eq_ok.mp h
        obtain ⟨⟨result, cache⟩, hresult, h⟩ := Outcome.bind_eq_ok.mp h
        refine .inr ⟨_, out, result, hout, ?_⟩
        cases result with
        | inl firstFail =>
            cases h
            exact ⟨hresult, .inl ⟨_, rfl⟩⟩
        | inr links =>
            cases h
            exact ⟨hresult, .inr ⟨links, rfl, rfl⟩⟩

/-- A turn over a bundle that did not arrive. -/
theorem judgeMissing_cases {w w' : Work} {id : JsString} {found : Option (List Entry)}
    (h : judgeMissing H r E w id = .ok (found, w')) :
    found = none ∧ w'.cache = w.cache ∨
      ∃ clinic out result, paths E.batches id clinic = .ok out ∧
        firstVerified H r.keys id clinic (fun _ => true) lastHop w.cache none out = .ok (result, w'.cache) ∧
        (found = none ∨ ∃ links, result = .inr links ∧ found = some links) := by
  obtain ⟨hops, _, h⟩ := Outcome.bind_eq_ok.mp h
  split at h
  · cases h
    exact .inl ⟨rfl, rfl⟩
  · rename_i clinic _
    split at h
    · cases h
      exact .inl ⟨rfl, rfl⟩
    · obtain ⟨out, hout, h⟩ := Outcome.bind_eq_ok.mp h
      obtain ⟨⟨result, cache⟩, hresult, h⟩ := Outcome.bind_eq_ok.mp h
      refine .inr ⟨clinic, out, result, hout, ?_⟩
      cases result with
      | inl firstFail =>
          cases h
          exact ⟨hresult, .inl rfl⟩
      | inr links =>
          cases h
          exact ⟨hresult, .inr ⟨links, rfl, rfl⟩⟩

/-- The path of a delivered bundle is traced, to the relay that uplinked it. -/
theorem judgeDelivered_path {w w' : Work} {d : JsString × Delivery} {links : List Entry}
    (h : judgeDelivered H r E w d = .ok (.path links, w')) :
    Traced H r E d.1 links ∧ lastHop links = some (.str d.2.relay) ∧ d.2.relay ∈ r.relays := by
  rcases judgeDelivered_cases h with ⟨⟨why, hwhy⟩, _⟩ | ⟨clinic, out, result, hout, hresult, hfound⟩
  · cases hwhy
  · rcases hfound with ⟨why, hwhy⟩ | ⟨links', rfl, hlinks⟩
    · cases hwhy
    · cases hlinks
      obtain ⟨hmem, heligible, haccepted⟩ := firstVerified_found hresult
      rw [Bool.and_eq_true] at heligible
      have hlast : lastHop links = some (.str d.2.relay) := JsonVal.eq_of_strictEq heligible.2
      rw [hlast] at heligible
      obtain ⟨hne, hentries⟩ := mem_paths hout hmem
      rw [← hlast] at haccepted
      exact ⟨⟨hne, hentries, _, haccepted⟩, hlast, of_decide_eq_true heligible.1⟩

/-- The path of a missing bundle is traced. -/
theorem judgeMissing_path {w w' : Work} {id : JsString} {links : List Entry}
    (h : judgeMissing H r E w id = .ok (some links, w')) : Traced H r E id links := by
  rcases judgeMissing_cases h with ⟨hnone, _⟩ | ⟨clinic, out, result, hout, hresult, hfound⟩
  · cases hnone
  · rcases hfound with hnone | ⟨links', rfl, hlinks⟩
    · cases hnone
    · cases hlinks
      obtain ⟨hmem, _, haccepted⟩ := firstVerified_found hresult
      obtain ⟨hne, hentries⟩ := mem_paths hout hmem
      exact ⟨hne, hentries, clinic, haccepted⟩

/-- **Everything that was found is traced.** -/
structure Judged.Traced (H : Host) (r : Region) (E : Evidence) (j : Judged) : Prop where
  delivered : ∀ id d links, ((id, d), Finding.path links) ∈ j.delivered →
    Scale.Traced H r E id links ∧ lastHop links = some (.str d.relay) ∧ d.relay ∈ r.relays ∧
      d ∈ E.delivered ∧ d.bundleId = id
  missing : ∀ id links, (id, some links) ∈ j.missing → Scale.Traced H r E id links

theorem judge_traced {j : Judged} (h : judge H r E = .ok j) : j.Traced H r E := by
  obtain ⟨⟨delivered, w₁⟩, hdelivered, h⟩ := Outcome.bind_eq_ok.mp h
  obtain ⟨⟨missing, w₂⟩, hmissing, h⟩ := Outcome.bind_eq_ok.mp h
  cases h
  constructor
  · intro id d links hmem
    obtain ⟨hid, w, w', hturn⟩ := judgeAll_found hdelivered _ hmem
    obtain ⟨htraced, hlast, hrelay⟩ := judgeDelivered_path hturn
    obtain ⟨hd, hdid⟩ := mem_deliveredIds hid
    exact ⟨htraced, hlast, hrelay, hd, hdid⟩
  · intro id links hmem
    obtain ⟨_, w, w', hturn⟩ := judgeAll_found hmissing _ hmem
    exact judgeMissing_path hturn

/-! ## The books -/

/-- The bundles a custodian is paid for. -/
def paidFor (paid : JsMap JsString (List JsString)) (eid : JsString) : List JsString :=
  (paid.get? eid).getD []

theorem mem_addTo {xs : List JsString} {x y : JsString} : y ∈ addTo xs x ↔ y ∈ xs ∨ y = x := by
  unfold addTo
  split
  · rename_i hx
    exact ⟨Or.inl, fun h => h.elim id (fun h => h ▸ hx)⟩
  · simp

theorem nodup_addTo {xs : List JsString} {x : JsString} (h : xs.Nodup) : (addTo xs x).Nodup := by
  unfold addTo
  split
  · exact h
  · rename_i hx
    exact List.Nodup.append h (List.nodup_singleton x) (by simpa using hx)

/-- No bundle is entered twice for one custodian. -/
def Once (paid : JsMap JsString (List JsString)) : Prop := ∀ eid, (paidFor paid eid).Nodup

theorem mem_pay {paid : JsMap JsString (List JsString)} {eid : JsonVal} {id x other : JsString} :
    x ∈ paidFor (pay paid eid id) other ↔
      x ∈ paidFor paid other ∨ eid = some (.str other) ∧ x = id := by
  unfold pay
  split
  · rename_i eid
    by_cases hother : other = eid
    · subst hother
      rw [paidFor, JsMap.get?_set_self, Option.getD_some, mem_addTo]
      simp [paidFor]
    · rw [paidFor, JsMap.get?_set_ne paid hother]
      simp [paidFor, Ne.symm hother]
  · rename_i hstr
    refine ⟨Or.inl, ?_⟩
    rintro (h | ⟨rfl, _⟩)
    · exact h
    · exact absurd rfl (hstr other)

theorem Once.pay {paid : JsMap JsString (List JsString)} (h : Once paid) (eid : JsonVal)
    (id : JsString) : Once (pay paid eid id) := by
  intro other
  unfold Scale.pay
  split
  · rename_i eid
    by_cases hother : other = eid
    · subst hother
      rw [paidFor, JsMap.get?_set_self, Option.getD_some]
      exact nodup_addTo (h other)
    · rw [paidFor, JsMap.get?_set_ne paid hother]
      exact h other
  · exact h other

theorem mem_payAll {links : List Entry} {id x eid : JsString} :
    ∀ {paid : JsMap JsString (List JsString)}, x ∈ paidFor (payAll paid links id) eid ↔
      x ∈ paidFor paid eid ∨ x = id ∧ ∃ l ∈ links, l.thisHop = some (.str eid) := by
  induction links with
  | nil => intro paid; simp [payAll]
  | cons l links ih =>
      intro paid
      show x ∈ paidFor (payAll (pay paid l.thisHop id) links id) eid ↔ _
      rw [ih, mem_pay]
      simp only [List.mem_cons, exists_eq_or_imp]
      tauto

theorem Once.payAll {links : List Entry} {id : JsString} :
    ∀ {paid : JsMap JsString (List JsString)}, Once paid → Once (payAll paid links id) := by
  induction links with
  | nil => intro paid h; exact h
  | cons l links ih => intro paid h; exact ih (h.pay l.thisHop id)

theorem mem_enterDelivered {found : List ((JsString × Delivery) × Finding)} {x eid : JsString} :
    ∀ {books : Books}, x ∈ paidFor (found.foldl enterDelivered books).paid eid ↔
      x ∈ paidFor books.paid eid ∨ ∃ d links, ((x, d), Finding.path links) ∈ found ∧
        ∃ l ∈ links, l.thisHop = some (.str eid) := by
  induction found with
  | nil => intro books; simp
  | cons p rest ih =>
      intro books
      rw [List.foldl_cons, ih]
      obtain ⟨⟨id, d⟩, finding⟩ := p
      cases finding with
      | failed why => simp [enterDelivered]
      | path links =>
          simp only [enterDelivered, mem_payAll, List.mem_cons, Prod.mk.injEq, Finding.path.injEq]
          constructor
          · rintro ((h | ⟨rfl, h⟩) | ⟨d', links', hmem, h⟩)
            · exact Or.inl h
            · exact Or.inr ⟨d, links, Or.inl ⟨⟨rfl, rfl⟩, rfl⟩, h⟩
            · exact Or.inr ⟨d', links', Or.inr hmem, h⟩
          · rintro (h | ⟨d', links', ⟨⟨rfl, rfl⟩, rfl⟩ | hmem, h⟩)
            · exact Or.inl (Or.inl h)
            · exact Or.inl (Or.inr ⟨rfl, h⟩)
            · exact Or.inr ⟨d', links', hmem, h⟩

theorem mem_enterMissing {found : List (JsString × Option (List Entry))} {x eid : JsString} :
    ∀ {books : Books}, x ∈ paidFor (found.foldl enterMissing books).paid eid ↔
      x ∈ paidFor books.paid eid ∨ ∃ links, (x, some links) ∈ found ∧
        ∃ l ∈ links.dropLast, l.thisHop = some (.str eid) := by
  induction found with
  | nil => intro books; simp
  | cons p rest ih =>
      intro books
      rw [List.foldl_cons, ih]
      obtain ⟨id, finding⟩ := p
      cases finding with
      | none => simp [enterMissing]
      | some links =>
          simp only [enterMissing, mem_payAll, List.mem_cons, Prod.mk.injEq, Option.some.injEq]
          constructor
          · rintro ((h | ⟨rfl, h⟩) | ⟨links', hmem, h⟩)
            · exact Or.inl h
            · exact Or.inr ⟨links, Or.inl ⟨rfl, rfl⟩, h⟩
            · exact Or.inr ⟨links', Or.inr hmem, h⟩
          · rintro (h | ⟨links', ⟨rfl, rfl⟩ | hmem, h⟩)
            · exact Or.inl (Or.inl h)
            · exact Or.inl (Or.inr ⟨rfl, h⟩)
            · exact Or.inr ⟨links', hmem, h⟩

/-- **The books pay what was found**: the hops of delivered paths, and those of missing ones but the
last. -/
theorem mem_paid_iff {j : Judged} {x eid : JsString} :
    x ∈ paidFor j.books.paid eid ↔
      (∃ d links, ((x, d), Finding.path links) ∈ j.delivered ∧
        ∃ l ∈ links, l.thisHop = some (.str eid)) ∨
      ∃ links, (x, some links) ∈ j.missing ∧ ∃ l ∈ links.dropLast, l.thisHop = some (.str eid) := by
  rw [Judged.books, mem_enterMissing, mem_enterDelivered]
  simp [paidFor]

/-- **Each custodian is paid once for a bundle.** -/
theorem once_books (j : Judged) : Once j.books.paid := by
  have delivered : ∀ (found : List ((JsString × Delivery) × Finding)) (books : Books),
      Once books.paid → Once (found.foldl enterDelivered books).paid := by
    intro found
    induction found with
    | nil => intro books h; exact h
    | cons p rest ih =>
        intro books h
        obtain ⟨⟨id, d⟩, finding⟩ := p
        cases finding with
        | failed why => exact ih _ h
        | path links => exact ih _ h.payAll
  have missing : ∀ (found : List (JsString × Option (List Entry))) (books : Books),
      Once books.paid → Once (found.foldl enterMissing books).paid := by
    intro found
    induction found with
    | nil => intro books h; exact h
    | cons p rest ih =>
        intro books h
        obtain ⟨id, finding⟩ := p
        cases finding with
        | none => exact ih _ h
        | some links => exact ih _ h.payAll
  exact missing _ _ (delivered _ _ fun eid => List.nodup_nil)

end DtnCustody.Scale
