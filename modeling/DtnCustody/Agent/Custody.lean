/-
# DtnCustody.Agent.Custody — `auditCustodyChain` of `agent/lib/receipt.mjs`.

The audit walks the receipts a bundle collected. Each must verify, name the bundle and be signed by
the key pinned for its `thisHop`; where it does not follow on the one before, that is a gap. The
pinned keys are an object, so a name that every object inherits is found too, and stands for no key.
-/
import DtnCustody.Agent.Receipt
import Mathlib.Data.List.Induction

namespace DtnCustody

open Base Js

/-! ## A receipt -/

/-- `{ payloadId, bundleId, prevHop, thisHop, receivedAt, forwardedAt }`. -/
structure Handover where
  payloadId : Json
  bundleId : Json
  prevHop : Json
  thisHop : Json
  receivedAt : Json
  forwardedAt : Json

def Receipt.custodyReceipt (H : Host) (kp : AgentKey) (o : Handover) : Outcome Json :=
  Receipt.signRecord H kp [(js "kind", .text "custody/1"), (js "payloadId", o.payloadId),
    (js "bundleId", o.bundleId), (js "prevHop", o.prevHop), (js "thisHop", o.thisHop),
    (js "receivedAt", o.receivedAt), (js "forwardedAt", o.forwardedAt)]

/-- The fields of a receipt. -/
structure Receipt.Shows (r : Json) (o : Handover) : Prop where
  kind : r.get "kind" = some (.text "custody/1")
  bundleId : r.get "bundleId" = some o.bundleId
  prevHop : r.get "prevHop" = some o.prevHop
  thisHop : r.get "thisHop" = some o.thisHop
  receivedAt : r.get "receivedAt" = some o.receivedAt
  forwardedAt : r.get "forwardedAt" = some o.forwardedAt

theorem Receipt.shows_custodyReceipt {H : Host} {kp : AgentKey} {o : Handover} {r : Json}
    (h : Receipt.custodyReceipt H kp o = .ok r) : Receipt.Shows r o := by
  have hget : ∀ name, js name ≠ js "claimId" → js name ≠ js "sig" → js name ≠ js "signerPub" →
      r.get name = _ := fun name => Receipt.get_signRecord H h
  constructor
  all_goals exact (hget _ (by decide) (by decide) (by decide)).trans rfl

theorem Receipt.verifyRecord_custodyReceipt {H : Host} {kp : AgentKey} (hkey : Receipt.Signs H kp)
    {o : Handover} {r : Json} (h : Receipt.custodyReceipt H kp o = .ok r) :
    Receipt.verifyRecord H (some r) = .ok (.ok (.str kp.pub)) := by
  refine Receipt.verifyRecord_signRecord hkey (fun p hp => ?_) h
  have hkeys := List.mem_map_of_mem (f := Prod.fst) hp
  exact (show ∀ k ∈ ["kind", "payloadId", "bundleId", "prevHop", "thisHop", "receivedAt",
    "forwardedAt"].map js, ∀ name ∈ Json.credentialFields, k ≠ js name by decide) p.1 hkeys

/-! ## Pinned keys -/

/-- What `keys[name]` gives, and so what a destination may be handed as the key to pin. -/
inductive Pin where
  | absent
  | own (v : Json)
  /-- A property of `Object.prototype`. -/
  | inherited

namespace Pin

def inheritedNames : List String :=
  ["constructor", "__defineGetter__", "__defineSetter__", "hasOwnProperty", "__lookupGetter__",
    "__lookupSetter__", "isPrototypeOf", "propertyIsEnumerable", "toString", "valueOf", "__proto__",
    "toLocaleString"]

def find (fields : List (JsString × Json)) (name : JsString) : Pin :=
  match fields.find? fun p => p.1 = name with
  | some p => .own p.2
  | none => if inheritedNames.any fun s => name = js s then .inherited else .absent

def truthy : Pin → Bool
  | .absent => false
  | .own v => v.truthy
  | .inherited => true

/-- `signer === pinned`. -/
def isKey (signer : Json) : Pin → Bool
  | .own v => JsonVal.strictEq (some signer) (some v)
  | _ => false

theorem find_setProp_self (fields : List (JsString × Json)) (key : JsString) (v : Json) :
    find (Receipt.setProp fields key v) key = .own v := by
  have hfind : (Receipt.setProp fields key v).find? (fun p => p.1 = key) = some (key, v) := by
    unfold Receipt.setProp
    split
    · next hany =>
      induction fields with
      | nil => cases hany
      | cons p rest ih =>
          rw [List.map_cons, List.find?_cons]
          by_cases hp : p.1 = key
          · rw [if_pos hp, hp, decide_eq_true rfl]
          · rw [if_neg hp, decide_eq_false hp]
            rw [List.any_cons, decide_eq_false hp, Bool.false_or] at hany
            exact ih hany
    · next hnone =>
      have hfresh : fields.find? (fun p => p.1 = key) = none :=
        List.find?_eq_none.mpr fun p hp hkey => hnone (List.any_eq_true.mpr ⟨p, hp, hkey⟩)
      rw [List.find?_append, hfresh, Option.none_or, List.find?_cons, decide_eq_true rfl]
  rw [find, hfind]

theorem find_setProp_ne {fields : List (JsString × Json)} {key name : JsString} {v : Json}
    (h : name ≠ key) : find (Receipt.setProp fields key v) name = find fields name := by
  have hfind : (Receipt.setProp fields key v).find? (fun p => p.1 = name) =
      fields.find? (fun p => p.1 = name) := by
    unfold Receipt.setProp
    split
    · clear * - h
      induction fields with
      | nil => rfl
      | cons p rest ih =>
          rw [List.map_cons, List.find?_cons, List.find?_cons, ih]
          by_cases hp : p.1 = key
          · rw [if_pos hp]
            have hne : decide (p.1 = name) = false := by
              rw [decide_eq_false_iff_not, hp]
              exact Ne.symm h
            rw [hne]
          · rw [if_neg hp]
    · rw [List.find?_append, List.find?_cons_of_neg (by simpa using Ne.symm h), List.find?_nil,
        Option.or_none]
  rw [find, find, hfind]

/-- `Object.fromEntries(entries)`. -/
def fromEntries (entries : List (JsString × Json)) : List (JsString × Json) :=
  entries.foldl (fun fields p => Receipt.setProp fields p.1 p.2) []

/-- Where equal names come with equal values, every entry is found. -/
theorem find_fromEntries {entries : List (JsString × Json)}
    (h : ∀ p ∈ entries, ∀ q ∈ entries, p.1 = q.1 → p.2 = q.2) {p : JsString × Json}
    (hp : p ∈ entries) : find (fromEntries entries) p.1 = .own p.2 := by
  induction entries using List.reverseRecOn with
  | nil => exact absurd hp List.not_mem_nil
  | append_singleton entries q ih =>
      have hlast : fromEntries (entries ++ [q]) = Receipt.setProp (fromEntries entries) q.1 q.2 := by
        rw [fromEntries, List.foldl_append]
        rfl
      have hq : q ∈ entries ++ [q] := List.mem_append_right _ List.mem_cons_self
      rw [hlast]
      by_cases hname : p.1 = q.1
      · rw [hname, find_setProp_self, h p hp q hq hname]
      · rw [find_setProp_ne hname]
        refine ih (fun p hp q hq => h p (List.mem_append_left _ hp) q (List.mem_append_left _ hq)) ?_
        refine (List.mem_append.mp hp).resolve_right fun hlast => hname ?_
        rw [List.mem_singleton.mp hlast]

end Pin

/-! ## The audit -/

structure Gap where
  afterHop : JsonVal
  beforeHop : JsonVal
  lastUnsigned : JsonVal

inductive Audit where
  | fail (reason : String) (hop : Option Nat)
  | ok (custodied : Nat) (gaps : List Gap)

/-- `complete`. -/
def Audit.isComplete : Audit → Bool
  | .fail .. => false
  | .ok _ gaps => gaps.isEmpty

namespace Receipt

structure AuditOptions where
  bundleId : JsonVal
  /-- `keys[name]`, for a property name. -/
  keys : JsString → Pin
  origin : Json := .null
  lastNode : Json := .null

/-- `x !== null`. -/
def isNotNull : JsonVal → Bool
  | some .null => false
  | _ => true

variable (H : Host)

/-- What the audit stops at, for one receipt. -/
def checkReceipt (o : AuditOptions) (r : Json) : Outcome (Option String) := do
  match ← verifyRecord H (some r) with
  | .fail reason => return some reason
  | .ok signer =>
      if JsonVal.strictEq (r.get "bundleId") o.bundleId = false then return some "wrong_bundle"
      else
        let pinned := o.keys (← JsonVal.toStr H.toNode (r.get "thisHop"))
        if pinned.truthy = false then return some "custodian_not_pinned"
        else if pinned.isKey signer = false then return some "signer_not_pinned_hop_key"
        else return none

/-- The gap before a receipt, after custodian `prev`. -/
def gapBefore (prev : JsonVal) (r : Json) : List Gap :=
  if isNotNull prev && !JsonVal.strictEq (r.get "prevHop") prev then
    [{ afterHop := prev, beforeHop := r.get "thisHop", lastUnsigned := r.get "prevHop" }]
  else []

/-- The loop, from receipt `i` on, with the custodian before it and the gaps so far. -/
def auditFrom (o : AuditOptions) (i : Nat) (prev : JsonVal) (gaps : List Gap) :
    List Json → Outcome Audit
  | [] =>
      .ok (.ok i (if isNotNull (some o.lastNode) && !JsonVal.strictEq (some o.lastNode) prev then
        gaps ++ [{ afterHop := prev, beforeHop := some .null, lastUnsigned := some o.lastNode }]
        else gaps))
  | r :: rest => do
      match ← checkReceipt H o r with
      | some reason => return .fail reason (some i)
      | none => auditFrom o (i + 1) (r.get "thisHop") (gaps ++ gapBefore prev r) rest

def auditCustodyChain (receipts : JsonVal) (o : AuditOptions) : Outcome Audit :=
  match receipts with
  | some (.arr []) => .ok (.fail "empty_chain" none)
  | some (.arr rs) => auditFrom H o 0 (some o.origin) [] rs
  | _ => .ok (.fail "empty_chain" none)

/-! ## The audit, receipt by receipt -/

/-- An audit that comes to its end has passed every receipt. -/
theorem auditFrom_ok {o : AuditOptions} {rs : List Json} :
    ∀ {i : Nat} {prev : JsonVal} {gaps : List Gap} {n : Nat} {found : List Gap},
      auditFrom H o i prev gaps rs = .ok (.ok n found) → ∀ r ∈ rs, checkReceipt H o r = .ok none := by
  induction rs with
  | nil => exact fun _ r hr => absurd hr List.not_mem_nil
  | cons r rest ih =>
      intro i prev gaps n found h
      obtain ⟨verdict, hverdict, h⟩ := Outcome.bind_eq_ok.mp h
      cases verdict with
      | some reason => cases h
      | none =>
          rw [List.forall_mem_cons]
          exact ⟨hverdict, ih h⟩

/-- A receipt that passes names the bundle and is signed by the key of its custodian. -/
theorem checkReceipt_ok {o : AuditOptions} {r : Json} (h : checkReceipt H o r = .ok none) :
    ∃ signer name, verifyRecord H (some r) = .ok (.ok signer) ∧
      JsonVal.strictEq (r.get "bundleId") o.bundleId = true ∧
        JsonVal.toStr H.toNode (r.get "thisHop") = .ok name ∧ (o.keys name).isKey signer = true := by
  obtain ⟨verdict, hverdict, h⟩ := Outcome.bind_eq_ok.mp h
  cases verdict with
  | fail reason => cases h
  | ok signer =>
      split at h
      · next hfail => cases hfail
      · next _ heq =>
        cases heq
        split at h
        · cases h
        · next hid =>
          obtain ⟨name, hname, h⟩ := Outcome.bind_eq_ok.mp h
          dsimp only at h
          split at h
          · cases h
          · split at h
            · cases h
            · next hkey =>
              rw [Bool.not_eq_false] at hid hkey
              exact ⟨signer, name, hverdict, hid, hname, hkey⟩

end Receipt

end DtnCustody
