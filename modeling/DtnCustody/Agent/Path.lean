/-
# DtnCustody.Agent.Path — `agent/lib/batch.mjs` (`inBatch`) and `agent/lib/path.mjs` (`verifyPath`).

`verifyPath` walks the links of a route. For every link it first gets a verdict on the record, from
the cache when the record's `claimId` is a key there, and then judges what the record says:
whether it covers the bundle, who signed it, how it links to the one before, and when.

The cache is a `Map` the caller may pass to many calls, a memo table for `verifyRecord` keyed by the `claimId`
a record claims. It keeps what was stored before a call threw, so a call returns its outcome and the cache
together. `walkPlain` is the loop with no cache at all. Over records that agree (one `claimId`, one verdict)
every walk is the plain walk (`walk_eq`), whatever calls came before, and so is every call of a run
(`verifyPath_transparent`). Nothing makes untrusted records agree: a forged record needs only to copy the
`claimId` of one that was accepted (`copiedClaimId_accepted`).
-/
import DtnCustody.Agent.Merkle
import DtnCustody.Agent.Receipt
import DtnCustody.Base.Memo
import DtnCustody.Transport.Cose

namespace DtnCustody

open Base Js

namespace Batch

def kind : String := "custody-batch/1"

/-- `Number.isSafeInteger(v)`. -/
def safeInteger? (v : JsonVal) : Option Int :=
  match v with
  | some (.num (.fin q)) =>
      if q.den = 1 ∧ q.num.natAbs ≤ 9007199254740991 then some q.num else none
  | _ => none

variable (H : Host)

/-- `Buffer.from(t === undefined ? id : `${id}@${t}`, "utf8")`. -/
def leafBytes (id : JsonVal) (t : Option Int) : Outcome Bytes :=
  match t with
  | none => JsonVal.toBuffer H toUtf8 id
  | some t => do return toUtf8 ((← JsonVal.toStr H.toNode id) ++ js "@" ++ js (toString t))

/-- Whether the window of a batch with times leaves out the time of a proof. -/
def outsideWindow (receipt : Json) (t : Int) : Outcome Bool := do
  if (← JsonVal.lt H.toNode (some (.int t)) (receipt.get "from")) then return true
  else JsonVal.lt H.toNode (receipt.get "to") (some (.int t))

def inBatch (receipt : Json) (bundleId p : JsonVal) : Outcome Bool := do
  match (if p.truthy then safeInteger? (p.get? "index") else none) with
  | none => return false
  | some index =>
      if index < 0 then return false
      else if (← JsonVal.ge H.toNode (some (.int index)) (receipt.get "count")) then return false
      else if JsonVal.truthy (receipt.get "leafTimes") then
        match safeInteger? (p.get? "t") with
        | none => return false
        | some t =>
            if (← outsideWindow H receipt t) then return false
            else do
              let leaf ← leafBytes H bundleId (some t)
              Merkle.verifyProof H (Merkle.leafHash H.toNode leaf) (p.get? "branch")
                (some (.int index)) (receipt.get "root")
      else do
        let leaf ← leafBytes H bundleId none
        Merkle.verifyProof H (Merkle.leafHash H.toNode leaf) (p.get? "branch")
          (some (.int index)) (receipt.get "root")

end Batch

namespace Path

/-- What the verifier's authorizer says of a key at a node and time. -/
inductive Authorization where
  | ok
  | refused (reason : Option String)
  deriving DecidableEq, Repr

structure Options where
  bundleId : JsonVal
  source : JsonVal
  destination : JsonVal
  authorize : Option (Json → JsonVal → JsonVal → Outcome Authorization)
  maxHops : Nat := 64
  skewMs : Int := 0

inductive PathVerdict where
  | ok (hops revisits : Nat)
  | fail (reason : String) (hop : Option Nat)
  deriving DecidableEq, Repr

def PathVerdict.isOk : PathVerdict → Bool
  | .ok .. => true
  | .fail .. => false

/-- The verdicts remembered, by `claimId`. -/
abbrev Cache := JsMap Prim RecordVerdict

variable (H : Host)

/-- What a record is looked up and stored by: a `claimId` that counts as true. One that is an array
or object is stored under itself and never found again. -/
def cacheKey (r : JsonVal) : Option Prim :=
  if (r.get? "claimId").truthy then (r.get? "claimId").key? else none

/-- `cache.get(r?.claimId)`, or `verifyRecord(r)` remembered. -/
def consult (cache : Cache) (r : JsonVal) : Outcome RecordVerdict × Cache :=
  Memo.answer cacheKey (Receipt.verifyRecord H) cache r

/-- The record before, and the nodes seen. -/
structure PathState where
  prev : Option (JsonVal × JsonVal) := none
  seen : List JsonVal := []
  revisits : Nat := 0

/-- A link ends the walk with a reason to refuse it, or lets it go on. -/
inductive LinkResult where
  | stop (reason : String)
  | next (st : PathState)

/-- The times a record claims for the bundle, once it is known to cover it. -/
def linkTimes (o : Options) (r : Json) (proof : JsonVal) :
    Outcome (String ⊕ (JsonVal × JsonVal)) := do
  if JsonVal.isText (r.get "kind") Batch.kind then
    if (← Batch.inBatch H r o.bundleId proof) = false then return .inl "not_in_batch"
    else if JsonVal.truthy (r.get "leafTimes") then return .inr (proof.get? "t", proof.get? "t")
    else return .inr (r.get "from", r.get "to")
  else if JsonVal.isText (r.get "kind") "custody/1" then
    if JsonVal.strictEq (r.get "bundleId") o.bundleId = false then return .inl "wrong_bundle"
    else return .inr (r.get "receivedAt", r.get "forwardedAt")
  else return .inl "unknown_record_kind"

/-- `t1 + skewMs < t0`. -/
def regresses (skewMs : Int) (t1 t0 : JsonVal) : Outcome Bool := do
  let limit ← Prim.add H.toNode (← JsonVal.toPrim H.toNode t1) (Prim.int skewMs)
  return Prim.lt H.toNode limit (← JsonVal.toPrim H.toNode t0)

/-- `seen.has(v)`. -/
def seenBefore (seen : List JsonVal) (v : JsonVal) : Bool :=
  seen.any fun x => v.key?.isSome && x.key? == v.key?

/-- The checks after authorization: how the record links to the one before. -/
def linkOn (o : Options) (st : PathState) (r : Json) (t0 t1 : JsonVal) : Outcome LinkResult := do
  let thisHop := r.get "thisHop"
  let st' : PathState :=
    { prev := some (thisHop, t0), seen := thisHop :: st.seen,
      revisits := if seenBefore st.seen thisHop then st.revisits + 1 else st.revisits }
  match st.prev with
  | none =>
      if JsonVal.strictEq (r.get "prevHop") o.source = false then return .stop "wrong_source"
      else return .next st'
  | some (prevHop, prevT0) =>
      if JsonVal.strictEq (r.get "prevHop") prevHop = false then return .stop "chain_break"
      else if (← regresses H o.skewMs t1 prevT0) then return .stop "time_regression"
      else return .next st'

/-- `a.reason || "signer_not_authorized"`. -/
def refusal (reason : Option String) : String :=
  match reason with
  | some reason => if reason = "" then "signer_not_authorized" else reason
  | none => "signer_not_authorized"

/-- Everything that follows the verdict on a record. -/
def judgeLink (o : Options) (authorize : Json → JsonVal → JsonVal → Outcome Authorization)
    (st : PathState) (r proof : JsonVal) (v : RecordVerdict) : Outcome LinkResult :=
  match v, r with
  | .fail reason, _ => .ok (.stop reason)
  | .ok _, none => .error .typeError
  | .ok signer, some r => do
      match ← linkTimes H o r proof with
      | .inl reason => return .stop reason
      | .inr (t0, t1) =>
          match ← authorize signer (r.get "thisHop") t0 with
          | .refused reason => return .stop (refusal reason)
          | .ok => linkOn H o st r t0 t1

/-- `prev.thisHop !== destination`. -/
def arrive (o : Options) (n : Nat) (st : PathState) : PathVerdict :=
  match st.prev with
  | some (thisHop, _) =>
      if JsonVal.strictEq thisHop o.destination then .ok n st.revisits
      else .fail "wrong_destination" (some (n - 1))
  | none => .fail "empty_path" none

/-- `const { receipt, proof } = link`. -/
def readLink (link : Json) : Outcome (JsonVal × JsonVal) := do
  let r ← JsonVal.get (some link) "receipt"
  let proof ← JsonVal.get (some link) "proof"
  return (r, proof)

/-- The loop, from link number `i`. -/
def walk (o : Options) (authorize : Json → JsonVal → JsonVal → Outcome Authorization) :
    Nat → PathState → Cache → List Json → Outcome PathVerdict × Cache
  | i, st, cache, [] => (.ok (arrive o i st), cache)
  | i, st, cache, link :: rest =>
      match readLink link with
      | .error e => (.error e, cache)
      | .ok (r, proof) =>
          let recalled := consult H cache r
          match recalled.1 with
          | .error e => (.error e, recalled.2)
          | .ok v =>
              match judgeLink H o authorize st r proof v with
              | .error e => (.error e, recalled.2)
              | .ok (.stop reason) => (.ok (.fail reason (some i)), recalled.2)
              | .ok (.next st) => walk o authorize (i + 1) st recalled.2 rest

def verifyPath (cache : Cache) (links : JsonVal) (o : Options) : Outcome PathVerdict × Cache :=
  match links with
  | some (.arr xs) =>
      if xs.isEmpty then (.ok (.fail "empty_path" none), cache)
      else if o.maxHops < xs.length then (.ok (.fail "too_many_hops" none), cache)
      else match o.authorize with
        | none => (.ok (.fail "no_authorizer" none), cache)
        | some authorize => walk H o authorize 0 {} cache xs
  | _ => (.ok (.fail "empty_path" none), cache)

end Path

end DtnCustody

namespace DtnCustody

open Base Js

namespace Path

variable (H : Host)

/-! ## The loop without a cache -/

def walkPlain (o : Options) (authorize : Json → JsonVal → JsonVal → Outcome Authorization) :
    Nat → PathState → List Json → Outcome PathVerdict
  | i, st, [] => .ok (arrive o i st)
  | i, st, link :: rest => do
      let (r, proof) ← readLink link
      let v ← Receipt.verifyRecord H r
      match ← judgeLink H o authorize st r proof v with
      | .stop reason => return .fail reason (some i)
      | .next st => walkPlain o authorize (i + 1) st rest

/-- The records of a list of links. -/
def receiptsOf (links : JsonVal) : Set JsonVal :=
  { r | ∃ xs link proof, links = some (.arr xs) ∧ link ∈ xs ∧ readLink link = .ok (r, proof) }

/-- Records with one `claimId` have one verdict. -/
def Agreeing (seen : Set JsonVal) : Prop := Memo.Agreeing cacheKey (Receipt.verifyRecord H) seen

/-- Every verdict in the cache is the verdict on a record of `seen`. -/
def Faithful (seen : Set JsonVal) (cache : Cache) : Prop :=
  Memo.Faithful cacheKey (Receipt.verifyRecord H) seen cache

variable {H} {seen : Set JsonVal} {o : Options}
  {authorize : Json → JsonVal → JsonVal → Outcome Authorization}

/-- **With a faithful cache the walk is the plain walk**, and the cache stays faithful. -/
theorem walk_eq (hagree : Agreeing H seen) {xs : List Json} :
    ∀ {i : Nat} {st : PathState} {cache : Cache}, Faithful H seen cache →
      (∀ link ∈ xs, ∀ r proof, readLink link = .ok (r, proof) → r ∈ seen) →
      (walk H o authorize i st cache xs).1 = walkPlain H o authorize i st xs ∧
        Faithful H seen (walk H o authorize i st cache xs).2 := by
  induction xs with
  | nil => intro i st cache hf _; exact ⟨rfl, hf⟩
  | cons link rest ih =>
      intro i st cache hf hseen
      rw [List.forall_mem_cons] at hseen
      unfold walk walkPlain
      cases hlink : readLink link with
      | error e => exact ⟨rfl, hf⟩
      | ok p =>
          obtain ⟨r, proof⟩ := p
          obtain ⟨hv, hf'⟩ := Memo.answer_eq hagree hf (hseen.1 r proof hlink)
          have hconsult : (consult H cache r).1 = Receipt.verifyRecord H r := hv
          simp only [hconsult, Outcome.ok_bind]
          cases Receipt.verifyRecord H r with
          | error e => exact ⟨rfl, hf'⟩
          | ok v =>
              simp only [Outcome.ok_bind]
              cases judgeLink H o authorize st r proof v with
              | error e => exact ⟨rfl, hf'⟩
              | ok res =>
                  cases res with
                  | stop reason => exact ⟨rfl, hf'⟩
                  | next st' => exact ih hf' hseen.2

/-- A walk that ends well has passed over records that all verify. -/
theorem walkPlain_verified {xs : List Json} :
    ∀ {i : Nat} {st : PathState} {n k : Nat}, walkPlain H o authorize i st xs = .ok (.ok n k) →
      ∀ link ∈ xs, ∀ r proof, readLink link = .ok (r, proof) →
        ∃ signer, Receipt.verifyRecord H r = .ok (.ok signer) := by
  induction xs with
  | nil => intro i st n k _ link hlink; cases hlink
  | cons link rest ih =>
      intro i st n k h
      obtain ⟨⟨r, proof⟩, hlink, h⟩ := Outcome.bind_eq_ok.mp h
      obtain ⟨v, hv, h⟩ := Outcome.bind_eq_ok.mp h
      obtain ⟨res, hres, h⟩ := Outcome.bind_eq_ok.mp h
      rw [List.forall_mem_cons]
      cases v with
      | fail reason =>
          -- a refused record ends the walk with its own reason
          cases hres
          cases h
      | ok signer =>
          refine ⟨fun r' proof' hr' => ?_, ?_⟩
          · rw [hlink] at hr'
            cases hr'
            exact ⟨signer, hv⟩
          · cases res with
            | stop reason => cases h
            | next st' => exact ih h

/-! ## Runs of calls that share a cache -/

structure Call where
  links : JsonVal
  options : Options

variable (H)

def runCalls : Cache → List Call → List (Outcome PathVerdict) × Cache
  | cache, [] => ([], cache)
  | cache, c :: cs =>
      let called := verifyPath H cache c.links c.options
      let later := runCalls called.2 cs
      (called.1 :: later.1, later.2)

/-- What a call answers with a cache of its own. -/
def fresh (c : Call) : Outcome PathVerdict := (verifyPath H JsMap.empty c.links c.options).1

def recordsOf (calls : List Call) : Set JsonVal := { r | ∃ c ∈ calls, r ∈ receiptsOf c.links }

variable {H}

/-- One call: the cache does not show, and stays faithful. -/
theorem verifyPath_eq (hagree : Agreeing H seen) {c : Call} {cache : Cache}
    (hf : Faithful H seen cache) (hseen : receiptsOf c.links ⊆ seen) :
    (verifyPath H cache c.links c.options).1 = fresh H c ∧
      Faithful H seen (verifyPath H cache c.links c.options).2 := by
  have hempty : Faithful H seen JsMap.empty := Memo.faithful_empty _ _ _
  unfold fresh verifyPath
  split
  · rename_i xs hlinks
    have hlinked : ∀ link ∈ xs, ∀ r proof, readLink link = .ok (r, proof) → r ∈ seen :=
      fun link hl r proof hr => hseen ⟨xs, link, proof, hlinks, hl, hr⟩
    split
    · exact ⟨rfl, hf⟩
    · split
      · exact ⟨rfl, hf⟩
      · split
        · exact ⟨rfl, hf⟩
        · rename_i authorize _
          have h := @walk_eq H seen c.options authorize hagree xs 0 {} _ hf hlinked
          exact ⟨h.1.trans (walk_eq hagree hempty hlinked).1.symm, h.2⟩
  · exact ⟨rfl, hf⟩

theorem runCalls_eq (hagree : Agreeing H seen) {calls : List Call} :
    ∀ {cache : Cache}, Faithful H seen cache → recordsOf calls ⊆ seen →
      (runCalls H cache calls).1 = calls.map (fresh H) := by
  induction calls with
  | nil => intro cache _ _; rfl
  | cons c cs ih =>
      intro cache hf hseen
      have hc : receiptsOf c.links ⊆ seen := fun r hr => hseen ⟨c, List.mem_cons_self, hr⟩
      have hcs : recordsOf cs ⊆ seen := fun r ⟨d, hd, hr⟩ => hseen ⟨d, List.mem_cons_of_mem _ hd, hr⟩
      obtain ⟨hcall, hf'⟩ := verifyPath_eq hagree hf hc
      show _ :: _ = _ :: _
      rw [hcall, ih hf' hcs]

/-- An accepted path consists of records that verify. -/
theorem fresh_verified {c : Call} (hagree : Agreeing H (receiptsOf c.links)) {n k : Nat}
    (h : fresh H c = .ok (.ok n k)) :
    ∀ r ∈ receiptsOf c.links, ∃ signer, Receipt.verifyRecord H r = .ok (.ok signer) := by
  rintro r ⟨xs, link, proof, hlinks, hl, hr⟩
  unfold fresh verifyPath at h
  rw [hlinks] at h
  simp only at h
  split at h
  · cases h
  · split at h
    · cases h
    · split at h
      · cases h
      · rw [(walk_eq hagree (Memo.faithful_empty _ _ _) fun link hl r proof hr =>
          ⟨xs, link, proof, hlinks, hl, hr⟩).1] at h
        exact walkPlain_verified h link hl r proof hr

/-- **`verifyPath` is transparent to its cache** over records that agree: in any run of calls that
share one cache, each answers what it would answer alone, and no path is accepted with a record
that does not itself verify. -/
theorem verifyPath_transparent {calls : List Call} (hagree : Agreeing H (recordsOf calls)) :
    (runCalls H JsMap.empty calls).1 = calls.map (fresh H) ∧
      ∀ (i : Nat) (c : Call) (n k : Nat), calls[i]? = some c →
        (runCalls H JsMap.empty calls).1[i]? = some (.ok (.ok n k)) →
        ∀ r ∈ receiptsOf c.links, ∃ signer, Receipt.verifyRecord H r = .ok (.ok signer) := by
  have hrun := runCalls_eq hagree (Memo.faithful_empty _ _ _) (Set.Subset.refl _)
  refine ⟨hrun, ?_⟩
  intro i c n k hc hv
  rw [hrun, List.getElem?_map, hc, Option.map_some, Option.some.injEq] at hv
  have hmem : c ∈ calls := List.mem_of_getElem? hc
  exact fresh_verified (fun a ha b hb => hagree a ⟨c, hmem, ha⟩ b ⟨c, hmem, hb⟩) hv

/-! ## Records that agree, and one that does not -/

def sampleHost : Host := { sampleNode with bufferOf := fun _ => none }

/-- Private and public key are one byte. -/
def sampleKey : AgentKey := ⟨[7], utf16 (Base64.encode (List.replicate 12 0 ++ [7]))⟩

/-- The sample key signs, on a runtime with the signatures of `sampleNode`. -/
theorem sampleKey_signs {H : Host} (hsign : H.ed25519Sign = sampleNode.ed25519Sign)
    (hverify : H.ed25519Verify = sampleNode.ed25519Verify) : Receipt.Signs H sampleKey where
  pub_ne := by decide +kernel
  sign_ne := by
    intro m
    rw [hsign]
    exact List.cons_ne_nil _ _
  verify := by
    intro m
    have hpub : Base64.decode (scalars sampleKey.pub) = List.replicate 12 0 ++ [7] := by
      decide +kernel
    rw [hsign, hverify, hpub]
    exact beq_self_eq_true (7 :: sampleHash m)

/-- The content of a receipt for a bundle carried from `s` to `d`. -/
def carriage (bundleId : String) : List (JsString × Json) :=
  [(js "kind", .text "custody/1"), (js "bundleId", .text bundleId), (js "prevHop", .text "s"),
    (js "thisHop", .text "d")]

/-- A receipt signed by the sample key. -/
def genuine (bundleId : String) : Json :=
  match Receipt.signRecord sampleHost sampleKey (carriage bundleId) with
  | .ok v => v
  | .error _ => .null

/-- A receipt nobody signed, with the credentials of `v`. -/
def forged (bundleId : String) (v : Json) : Json :=
  .obj (carriage bundleId ++ ["claimId", "sig", "signerPub"].map fun name =>
    (js name, (v.get name).getD .null))

/-- One call on the one-hop path with this record. -/
def sampleCall (bundleId : String) (r : Json) : Call where
  links := some (.arr [.obj [(js "receipt", r)]])
  options := { bundleId := some (.text bundleId), source := some (.text "s"),
               destination := some (.text "d"), authorize := some fun _ _ _ => .ok .ok }

theorem receiptsOf_sampleCall (bundleId : String) (r : Json) :
    receiptsOf (sampleCall bundleId r).links = {some r} := by
  have hread : readLink (.obj [(js "receipt", r)]) = .ok (some r, none) := by
    have hr : (Json.obj [(js "receipt", r)]).get "receipt" = some r := by
      simp [Json.get]
    have hproof : (Json.obj [(js "receipt", r)]).get "proof" = none := by
      have hne : js "receipt" ≠ js "proof" := by decide
      simp [Json.get, hne]
    simp only [readLink, JsonVal.get, hr, hproof, Outcome.ok_bind, Outcome.pure_eq_ok]
  ext x
  constructor
  · rintro ⟨xs, link, proof, hlinks, hl, hx⟩
    cases hlinks
    rw [List.mem_singleton] at hl
    rw [hl, hread] at hx
    cases hx
    rfl
  · intro hx
    cases hx
    exact ⟨_, _, none, rfl, List.mem_singleton.mpr rfl, hread⟩

/-- Two records, the first of them twice. -/
def genuineCalls : List Call :=
  [sampleCall "b1" (genuine "b1"), sampleCall "b2" (genuine "b2"), sampleCall "b1" (genuine "b1")]

theorem genuineCalls_transparent :
    (runCalls sampleHost JsMap.empty genuineCalls).1 = genuineCalls.map (fresh sampleHost) ∧
      ∀ (i : Nat) (c : Call) (n k : Nat), genuineCalls[i]? = some c →
        (runCalls sampleHost JsMap.empty genuineCalls).1[i]? = some (.ok (.ok n k)) →
        ∀ r ∈ receiptsOf c.links, ∃ signer, Receipt.verifyRecord sampleHost r = .ok (.ok signer) := by
  refine verifyPath_transparent ?_
  have hkeys : cacheKey (some (genuine "b1")) ≠ cacheKey (some (genuine "b2")) := by decide +kernel
  have hmem : ∀ x ∈ recordsOf genuineCalls, x = some (genuine "b1") ∨ x = some (genuine "b2") := by
    rintro x ⟨c, hc, hx⟩
    simp only [genuineCalls, List.mem_cons, List.not_mem_nil, or_false] at hc
    rcases hc with rfl | rfl | rfl
    · exact Or.inl (by rwa [receiptsOf_sampleCall] at hx)
    · exact Or.inr (by rwa [receiptsOf_sampleCall] at hx)
    · exact Or.inl (by rwa [receiptsOf_sampleCall] at hx)
  intro x hx y hy k hkx hky
  rcases hmem x hx with rfl | rfl <;> rcases hmem y hy with rfl | rfl
  · rfl
  · exact absurd (hkx.trans hky.symm) hkeys
  · exact absurd (hky.trans hkx.symm) hkeys
  · rfl

/-- **A copied `claimId` carries the verdict over**: after a genuine record, a forged one with its
`claimId` is accepted; and after the forged one, the genuine record is refused. -/
theorem copiedClaimId_accepted :
    let good := sampleCall "b1" (genuine "b1")
    let bad := sampleCall "b2" (forged "b2" (genuine "b1"))
    (runCalls sampleHost JsMap.empty [good, bad]).1 = [.ok (.ok 1 0), .ok (.ok 1 0)] ∧
      (runCalls sampleHost JsMap.empty [bad, good]).1
        = [.ok (.fail "claimId_mismatch" (some 0)), .ok (.fail "claimId_mismatch" (some 0))] ∧
      fresh sampleHost good = .ok (.ok 1 0) ∧
      fresh sampleHost bad = .ok (.fail "claimId_mismatch" (some 0)) := by
  decide +kernel

end Path

end DtnCustody
