/-
# DtnCustody.ContactPlans.Sign — `contact-plans/sign.mjs`: signed contact plans.

A record fixes a plan and the text of each compiled file by their fingerprints. `contactAt` asks the plan
itself, by the ends of a link and not by its name.
-/
import DtnCustody.Agent.Receipt
import DtnCustody.ContactPlans.Compile

namespace DtnCustody.ContactPlans

open Base Js

/-! ## Fingerprints -/

/-- `fp(text)`. -/
def fp (N : Node) (text : JsString) : JsString := js "0x" ++ Json.sha256hex N text

variable (H : Host)

def planFingerprint (plan : Plan) : Outcome JsString := do
  return fp H.toNode (← plan.json.canonicalize H.toNode)

/-- The text of each compiled file, by its name; `null` is no file. -/
abbrev Exports := List (String × Option JsString)

/-! ## Signing -/

/-- `{ network, version, validFrom, validTo, prev }`. -/
structure Terms where
  network : Json
  version : Json
  validFrom : Json
  validTo : Json
  prev : Json := .null

/-- `Object.fromEntries(…)` of the fingerprints of the files that there are. -/
def exportPrints (exports : Exports) : List (JsString × Json) :=
  exports.filterMap fun e => e.2.map fun text => (js e.1, .str (fp H.toNode text))

def planFields (plan : Plan) (exports : Exports) (t : Terms) (print : JsString) : List (JsString × Json) :=
  [(js "kind", .text "dtn.contact-plan/1"), (js "network", t.network), (js "version", t.version),
    (js "validFrom", t.validFrom), (js "validTo", t.validTo), (js "prev", t.prev),
    (js "planFingerprint", .str print), (js "contacts", .int plan.contacts.length),
    (js "nodes", .int (plan.nodes.getD []).length), (js "exports", .obj (exportPrints H exports))]

def signPlan (kp : AgentKey) (plan : Plan) (exports : Exports) (t : Terms) : Outcome Json := do
  let print ← planFingerprint H plan
  Receipt.signRecord H kp (planFields H plan exports t print)

/-! ## Checking -/

/-- `{ ok, problems, files }`. -/
structure PlanVerdict where
  problems : List String
  files : List (String × String)

def PlanVerdict.ok (v : PlanVerdict) : Bool := v.problems.isEmpty

/-- `files[k]`, with `record.exports?.[k]` for the fingerprint that was signed. -/
def fileStatus (record : Json) (k : String) (text : JsString) : String :=
  match (record.get "exports").bind (·.get k) with
  | none => "not in the signed record"
  | some print =>
      if print.truthy = false then "not in the signed record"
      else if JsonVal.strictEq (some (.str (fp H.toNode text))) (some print) then "matches" else "DIFFERS"

def signerProblems (record : Json) (pub : Option JsString) : RecordVerdict → List String
  | .fail reason => [reason]
  | .ok _ =>
      match pub with
      | none => []
      | some pub =>
          if pub.isEmpty ∨ JsonVal.strictEq (record.get "signerPub") (some (.str pub)) then []
          else ["not_signed_by_this_operator"]

def planProblems (record : Json) : Option Plan → Outcome (List String)
  | none => .ok []
  | some plan => do
      let print ← planFingerprint H plan
      return if JsonVal.strictEq (some (.str print)) (record.get "planFingerprint") then []
        else ["plan_differs_from_signed_plan"]

def verifyPlan (record : Json) (pub : Option JsString) (plan : Option Plan) (exports : Exports) :
    Outcome PlanVerdict := do
  let v ← Receipt.verifyRecord H (some record)
  if record.isNull then .error .typeError
  else do
    let differs ← planProblems H record plan
    let files := exports.filterMap fun e => e.2.map fun text => (e.1, fileStatus H record e.1 text)
    let kind := if JsonVal.isText (record.get "kind") "dtn.contact-plan/1" then []
      else ["not_a_contact_plan_record"]
    return { problems := signerProblems record pub v ++ kind ++ differs ++
               (files.filter fun f => f.2 = "DIFFERS").map fun f => f.1 ++ "_file_differs"
             files }

/-! ## What was signed is accepted -/

variable {H} {kp : AgentKey} {plan : Plan} {exports : Exports} {t : Terms} {record : Json}

/-- Each file that there is has its fingerprint under its name. -/
theorem get_exportPrints (hnames : (exports.map Prod.fst).Nodup) {e : String × Option JsString}
    (he : e ∈ exports) {text : JsString} (htext : e.2 = some text) :
    (Json.obj (exportPrints H exports)).get e.1 = some (.str (fp H.toNode text)) := by
  show Option.map Prod.snd ((exportPrints H exports).find? fun p => p.1 = js e.1) = _
  induction exports with
  | nil => exact absurd he List.not_mem_nil
  | cons e' rest ih =>
      rw [List.map_cons, List.nodup_cons] at hnames
      rcases List.mem_cons.mp he with rfl | he
      · rw [exportPrints, List.filterMap_cons, htext]
        simp
      · have hne : e'.1 ≠ e.1 := fun heq => hnames.1 (heq ▸ List.mem_map_of_mem he)
        rw [exportPrints, List.filterMap_cons]
        cases e'.2 with
        | none => exact ih hnames.2 he
        | some text' =>
            rw [Option.map_some, List.find?_cons_of_neg (by simpa [js_inj] using hne)]
            exact ih hnames.2 he

theorem planFields_plain (plan : Plan) (exports : Exports) (t : Terms) (print : JsString) :
    Receipt.Plain (planFields H plan exports t print) := by
  intro p hp
  have hkeys : p.1 ∈ (planFields H plan exports t print).map Prod.fst := List.mem_map_of_mem hp
  exact (show ∀ k ∈ ["kind", "network", "version", "validFrom", "validTo", "prev", "planFingerprint",
    "contacts", "nodes", "exports"].map js, ∀ name ∈ Json.credentialFields, k ≠ js name by decide) p.1 hkeys

theorem fp_truthy (text : JsString) : (Json.str (fp H.toNode text)).truthy = true := rfl

/-- **A plan record is accepted** for the plan and the files that were signed, under the key that signed. -/
theorem verifyPlan_signPlan (hkey : Receipt.Signs H kp) (hnames : (exports.map Prod.fst).Nodup)
    (h : signPlan H kp plan exports t = .ok record) :
    ∃ v, verifyPlan H record (some kp.pub) (some plan) exports = .ok v ∧ v.ok = true := by
  unfold signPlan at h
  obtain ⟨print, hprint, h⟩ := Outcome.bind_eq_ok.mp h
  have hplain := planFields_plain (H := H) plan exports t print
  have hverify := Receipt.verifyRecord_signRecord hkey hplain h
  have hget : ∀ name, js name ≠ js "claimId" → js name ≠ js "sig" → js name ≠ js "signerPub" →
      record.get name = _ := fun name => Receipt.get_signRecord H h
  have hkind : record.get "kind" = some (.text "dtn.contact-plan/1") :=
    (hget _ (by decide) (by decide) (by decide)).trans rfl
  have hplan : record.get "planFingerprint" = some (.str print) :=
    (hget _ (by decide) (by decide) (by decide)).trans rfl
  have hexports : record.get "exports" = some (.obj (exportPrints H exports)) :=
    (hget _ (by decide) (by decide) (by decide)).trans rfl
  obtain ⟨claimId, -, hrecord⟩ := Receipt.signRecord_eq hplain h
  have hsigner : record.get "signerPub" = some (.str kp.pub) := by
    rw [hrecord]
    rfl
  have hobject : record.isNull = false := by
    rw [hrecord]
    rfl
  have hfiles : ∀ e ∈ exports, ∀ text, e.2 = some text → fileStatus H record e.1 text = "matches" := by
    intro e he text htext
    rw [fileStatus, hexports, Option.bind_some, get_exportPrints hnames he htext]
    simp [fp_truthy, JsonVal.strictEq]
  have hnone : ((exports.filterMap fun e => e.2.map fun text => (e.1, fileStatus H record e.1 text)).filter
      fun f => f.2 = "DIFFERS") = [] := by
    refine List.filter_eq_nil_iff.mpr fun f hf hdiffers => ?_
    obtain ⟨e, he, hmap⟩ := List.mem_filterMap.mp hf
    obtain ⟨text, htext, rfl⟩ := Option.map_eq_some_iff.mp hmap
    rw [hfiles e he text htext] at hdiffers
    exact absurd (of_decide_eq_true hdiffers) (by decide : "matches" ≠ "DIFFERS")
  unfold verifyPlan
  rw [hverify, Outcome.ok_bind, hobject]
  dsimp only
  rw [planProblems, hprint, Outcome.ok_bind, hplan, hkind, hnone, signerProblems, hsigner]
  refine ⟨_, rfl, ?_⟩
  simp [PlanVerdict.ok, JsonVal.strictEq, JsonVal.isText, Json.text]

/-! ## Asking the plan -/

/-- `new Map(plan.links.map((l) => [l.id, l]))`; a link that is a name has no `id`. -/
def Plan.linksById (plan : Plan) : JsMap JsString PlanLink :=
  JsMap.ofList (plan.links.filterMap fun
    | .name _ => none
    | .link l => some (l.id, l))

/-- The contact is between these nodes. -/
def Plan.joins (plan : Plan) (source dest : Nat) (c : Contact) : Bool :=
  match plan.linksById.get? c.link with
  | none => false
  | some l => l.source = source ∧ l.dest = dest

def contactAt (plan : Plan) (source dest : Nat) (tS : ℚ) : List Contact :=
  plan.contacts.filter fun c => plan.joins source dest c ∧ c.upS ≤ tS ∧ tS < c.downS

end DtnCustody.ContactPlans
