/-
# DtnCustody.Voyager.Schedule — `voyager/schedule.mjs`: windows from a signed plan, and gaps against it.

A gap lies between two contacts of its link that follow each other, so no contact of the link itself is in
force inside it. `gapBackedByPlan` asks once more by the ends of the link, at the middle of the gap: there it
finds the next contact where the two touch, and any contact of another link between the same nodes. A gap is
backed exactly where neither is so, and the link is an object of the plan (`gap_backed_iff`).
-/
import DtnCustody.ContactPlans.Sign
import DtnCustody.Voyager.Outages

namespace DtnCustody

open Base Js

/-! ## `JSON.stringify(v, null, 2)` -/

namespace Json

variable (N : Node)

mutual

def pretty (indent : JsString) : Json → JsString
  | .arr xs =>
      if xs.isEmpty then js "[]"
      else js "[\n" ++ prettyAll (indent ++ js "  ") xs ++ js "\n" ++ indent ++ js "]"
  | .obj fields =>
      if fields.isEmpty then js "\x7b\x7d"
      else js "\x7b\n" ++ prettyFields (indent ++ js "  ") fields ++ js "\n" ++ indent ++ js "\x7d"
  | v => stringify N v

def prettyAll (indent : JsString) : List Json → JsString
  | [] => []
  | [x] => indent ++ pretty indent x
  | x :: y :: rest => indent ++ pretty indent x ++ js ",\n" ++ prettyAll indent (y :: rest)

def prettyFields (indent : JsString) : List (JsString × Json) → JsString
  | [] => []
  | [p] => prettyField indent p
  | p :: q :: rest => prettyField indent p ++ js ",\n" ++ prettyFields indent (q :: rest)

def prettyField (indent : JsString) : JsString × Json → JsString
  | (k, v) => indent ++ quote k ++ js ": " ++ pretty indent v

end

end Json

namespace Voyager

open ContactPlans (Plan PlanLink Contact HdtnContact Exports toIon toHdtn verifyPlan contactAt normalize)

/-! ## Windows -/

def hdtnJson (h : HdtnContact) : Json :=
  .obj [(js "contact", .int h.contact), (js "source", .int h.source), (js "dest", .int h.dest),
    (js "startTime", .int h.startTime), (js "endTime", .int h.endTime),
    (js "rateBitsPerSec", .num (.fin h.rateBitsPerSec)),
    (js "owlt", h.owlt.elim (.num .nan) .int)]

def exportsOf (N : Node) (plan : Plan) : Outcome Exports := do
  let ion ← toIon N plan false
  let hdtn ← toHdtn plan false
  return [("ion", some ion), ("hdtn", some (Json.pretty N [] (.obj [(js "contacts", .arr (hdtn.map hdtnJson))])))]

def contactsOf (plan : Plan) (linkId : JsString) : List Contact := plan.contacts.filter (·.link = linkId)

def windowOf (plan : Plan) (c : Contact) : Window := (plan.epochMs + c.upS * 1000, plan.epochMs + c.downS * 1000)

def windowsFrom (H : Host) (record : Json) (plan : Plan) (pub linkId : JsString) : Outcome (List Window) := do
  let exports ← exportsOf H.toNode plan
  let v ← verifyPlan H record (some pub) (some plan) exports
  if v.ok then return (contactsOf plan linkId).map (windowOf plan)
  else
    let why := ", ".intercalate v.problems
    .error (.error s!"contact plan refused: {why}")

/-! ## Gaps -/

/-- `plan.links.find((l) => l.id === linkId)`. -/
def findLink (plan : Plan) (linkId : JsString) : Option PlanLink :=
  (plan.links.filterMap fun
    | .name _ => none
    | .link l => some l).find? (·.id = linkId)

def inForce (gap : Gap) (plan : Plan) (linkId : JsString) : List Contact :=
  plan.contacts.filter fun c => c.link = linkId ∧ plan.epochMs + c.upS * 1000 < gap.upAt ∧
    ∀ a ∈ gap.downAt, a < plan.epochMs + c.downS * 1000

/-- `mid`. -/
def midOf (gap : Gap) : ℚ :=
  match gap.downAt with
  | none => gap.upAt - 1000
  | some a => (a + gap.upAt) / 2

def gapBackedByPlan (gap : Gap) (plan : Plan) (linkId : JsString) : Outcome Bool :=
  if (inForce gap plan linkId).isEmpty then
    match findLink plan linkId with
    | none => .error .typeError
    | some l => .ok (contactAt plan l.source l.dest ((midOf gap - plan.epochMs) / 1000)).isEmpty
  else .ok false

/-! ## Contacts in order -/

/-- The contacts of a link one after the other; they may touch. -/
structure Ordered (cs : List Contact) : Prop where
  lasts : ∀ c ∈ cs, c.upS < c.downS
  follows : cs.Pairwise fun v w => v.downS ≤ w.upS

/-- The contact before contact `j`. -/
def contactBefore (cs : List Contact) (j : Nat) : Option Contact := if 0 < j then cs[j - 1]? else none

/-- The middle of the time before a contact, or a second before the first. -/
def middle (v : Option Contact) (w : Contact) : ℚ := v.elim (w.upS - 1) fun v => (v.downS + w.upS) / 2

/-- **Nothing stands in the way of a gap before contact `j`**: the link is an object of the plan, the contact
does not touch the one before, as far as the plan has these between the nodes of the link, and no contact of
another link between the same nodes is in force in the middle. -/
structure ClearAt (plan : Plan) (linkId : JsString) (j : Nat) (l : PlanLink) (w : Contact) : Prop where
  link : findLink plan linkId = some l
  contact : (contactsOf plan linkId)[j]? = some w
  apart : plan.joins l.source l.dest w = true →
    ∀ v, contactBefore (contactsOf plan linkId) j = some v → v.downS < w.upS
  alone : ∀ c ∈ plan.contacts, c.link ≠ linkId → plan.joins l.source l.dest c = true →
    ¬ (c.upS ≤ middle (contactBefore (contactsOf plan linkId) j) w ∧
      middle (contactBefore (contactsOf plan linkId) j) w < c.downS)

section

variable {cs : List Contact} {j m : Nat} {c v w : Contact}

theorem Ordered.down_le_up (h : Ordered cs) (hc : cs[m]? = some c) (hw : cs[j]? = some w) (hlt : m < j) :
    c.downS ≤ w.upS := by
  obtain ⟨hm, rfl⟩ := List.getElem?_eq_some_iff.mp hc
  obtain ⟨hj, rfl⟩ := List.getElem?_eq_some_iff.mp hw
  exact List.pairwise_iff_getElem.mp h.follows m j hm hj hlt

theorem Ordered.lt_of_getElem? (h : Ordered cs) (hc : cs[m]? = some c) : c.upS < c.downS :=
  h.lasts c (List.mem_of_getElem? hc)

/-- A contact that starts before contact `j` is one before it. -/
theorem Ordered.lt_of_up_lt (h : Ordered cs) (hc : cs[m]? = some c) (hw : cs[j]? = some w)
    (hlt : c.upS < w.upS) : m < j := by
  by_contra hge
  rcases Nat.lt_or_eq_of_le (not_lt.mp hge) with hlater | rfl
  · have hle := h.down_le_up hw hc hlater
    have hlasts := h.lt_of_getElem? hw
    linarith
  · rw [hc] at hw
    cases hw
    exact lt_irrefl _ hlt

/-- A contact before contact `j` is over with the last of them. -/
theorem Ordered.down_le_before (h : Ordered cs) (hc : cs[m]? = some c) (hlt : m < j)
    (hv : contactBefore cs j = some v) : c.downS ≤ v.downS := by
  rw [contactBefore, if_pos (by omega)] at hv
  rcases Nat.lt_or_eq_of_le (Nat.le_sub_one_of_lt hlt) with hearlier | rfl
  · have hle := h.down_le_up hc hv hearlier
    have hlasts := h.lt_of_getElem? hv
    linarith
  · rw [hc] at hv
    cases hv
    exact le_rfl

theorem exists_contactBefore (hw : cs[j]? = some w) (hj : 0 < j) : ∃ v, contactBefore cs j = some v := by
  have hlen := (List.getElem?_eq_some_iff.mp hw).1
  rw [contactBefore, if_pos hj]
  exact ⟨_, List.getElem?_eq_getElem (by omega)⟩

theorem Ordered.before_le_up (h : Ordered cs) (hw : cs[j]? = some w) (hv : contactBefore cs j = some v) :
    v.downS ≤ w.upS := by
  unfold contactBefore at hv
  split at hv
  · exact h.down_le_up hv hw (by omega)
  · cases hv

/-- No contact of the link is in force between two that follow each other. -/
theorem Ordered.none_between (h : Ordered cs) (hc : cs[m]? = some c) (hw : cs[j]? = some w)
    (hlt : c.upS < w.upS) (hafter : ∀ v, contactBefore cs j = some v → v.downS < c.downS) : False := by
  have hmj := h.lt_of_up_lt hc hw hlt
  obtain ⟨v, hv⟩ := exists_contactBefore hw (Nat.zero_lt_of_lt hmj)
  exact absurd (hafter v hv) (not_lt.mpr (h.down_le_before hc hmj hv))

/-- **In the middle of a gap** a contact of the link is in force only where two contacts touch: the second. -/
theorem Ordered.in_middle_iff (h : Ordered cs) (hw : cs[j]? = some w) :
    (∃ c ∈ cs, c.upS ≤ middle (contactBefore cs j) w ∧ middle (contactBefore cs j) w < c.downS) ↔
      ∃ v, contactBefore cs j = some v ∧ v.downS = w.upS := by
  constructor
  · rintro ⟨c, hmem, hup, hdown⟩
    obtain ⟨m, hc⟩ := List.mem_iff_getElem?.mp hmem
    cases hv : contactBefore cs j with
    | none =>
        rw [hv] at hup
        have hlt : c.upS < w.upS := by
          have hup' : c.upS ≤ w.upS - 1 := hup
          linarith
        exact (h.none_between hc hw hlt fun v' hv' => by cases hv.symm.trans hv').elim
    | some v =>
        rw [hv] at hup hdown
        have hup' : c.upS ≤ (v.downS + w.upS) / 2 := hup
        have hdown' : (v.downS + w.upS) / 2 < c.downS := hdown
        have hle := h.before_le_up hw hv
        refine ⟨v, rfl, le_antisymm hle ?_⟩
        by_contra hlt
        refine h.none_between hc hw (by linarith) fun v' hv' => ?_
        cases hv.symm.trans hv'
        linarith
  · rintro ⟨v, hv, htouch⟩
    have hmiddle : middle (contactBefore cs j) w = w.upS := by
      rw [hv]
      show (v.downS + w.upS) / 2 = w.upS
      linarith
    refine ⟨w, List.mem_of_getElem? hw, ?_⟩
    rw [hmiddle]
    exact ⟨le_rfl, h.lt_of_getElem? hw⟩

end

/-! ## A gap against the plan -/

variable {H : Host} {record : Json} {plan : Plan} {pub linkId : JsString} {ws : List Window} {j : Nat}
  {w : Contact} {g : Gap} {l : PlanLink}

theorem windowsFrom_ok (h : windowsFrom H record plan pub linkId = .ok ws) :
    ws = (contactsOf plan linkId).map (windowOf plan) ∧ ∃ p, normalize plan = .ok p := by
  unfold windowsFrom at h
  obtain ⟨exports, hexports, h⟩ := Outcome.bind_eq_ok.mp h
  obtain ⟨v, -, h⟩ := Outcome.bind_eq_ok.mp h
  unfold exportsOf at hexports
  obtain ⟨ion, hion, -⟩ := Outcome.bind_eq_ok.mp hexports
  unfold toIon at hion
  obtain ⟨rows, hrows, -⟩ := Outcome.bind_eq_ok.mp hion
  unfold ContactPlans.ionContacts at hrows
  obtain ⟨p, hp, -⟩ := Outcome.bind_eq_ok.mp hrows
  split at h
  · cases h
    exact ⟨rfl, p, hp⟩
  · cases h

/-- **Windows are read from a plan that was signed**, with its files, under the key that signed it. -/
theorem windowsFrom_signed {kp : AgentKey} (hkey : Receipt.Signs H kp) {exports : Exports}
    {t : ContactPlans.Terms} (hexports : exportsOf H.toNode plan = .ok exports)
    (hrecord : ContactPlans.signPlan H kp plan exports t = .ok record) :
    windowsFrom H record plan kp.pub linkId = .ok ((contactsOf plan linkId).map (windowOf plan)) := by
  have hnames : (exports.map Prod.fst).Nodup := by
    have hof := hexports
    unfold exportsOf at hof
    obtain ⟨ion, -, hof⟩ := Outcome.bind_eq_ok.mp hof
    obtain ⟨hdtn, -, hof⟩ := Outcome.bind_eq_ok.mp hof
    cases hof
    exact (by decide : ["ion", "hdtn"].Nodup)
  obtain ⟨v, hv, hok⟩ := ContactPlans.verifyPlan_signPlan hkey hnames hrecord
  rw [windowsFrom, hexports, Outcome.ok_bind, hv, Outcome.ok_bind, if_pos hok]
  rfl

/-- The contacts of a link of an accepted plan. -/
theorem ordered_contactsOf {p : ContactPlans.Normal} (h : normalize plan = .ok p)
    (hfollows : (contactsOf plan linkId).Pairwise fun v w => v.downS ≤ w.upS) :
    Ordered (contactsOf plan linkId) :=
  ⟨fun _ hc => ContactPlans.normalize_lasts h (List.mem_filter.mp hc).1, hfollows⟩

/-- A gap between windows of the plan is one between contacts. -/
theorem outage_contacts (h : Outage ((contactsOf plan linkId).map (windowOf plan)) j g.downAt g.upAt) :
    ∃ w, (contactsOf plan linkId)[j]? = some w ∧ g.upAt = plan.epochMs + w.upS * 1000 ∧
      g.downAt = (contactBefore (contactsOf plan linkId) j).map fun v => (windowOf plan v).2 := by
  obtain ⟨x, hx, hup⟩ := h.upAt
  rw [List.getElem?_map] at hx
  obtain ⟨w, hw, rfl⟩ := Option.map_eq_some_iff.mp hx
  refine ⟨w, hw, hup, h.downAt.trans ?_⟩
  unfold contactBefore
  split
  · rw [List.getElem?_map, Option.map_map]
    rfl
  · rfl

section

variable (hw : (contactsOf plan linkId)[j]? = some w) (hup : g.upAt = plan.epochMs + w.upS * 1000)
  (hdown : g.downAt = (contactBefore (contactsOf plan linkId) j).map fun v => (windowOf plan v).2)

include hup hdown

theorem midOf_eq : (midOf g - plan.epochMs) / 1000 = middle (contactBefore (contactsOf plan linkId) j) w := by
  unfold midOf
  rw [hdown]
  cases contactBefore (contactsOf plan linkId) j with
  | none =>
      show (g.upAt - 1000 - plan.epochMs) / 1000 = w.upS - 1
      rw [hup]
      ring
  | some v =>
      show ((plan.epochMs + v.downS * 1000 + g.upAt) / 2 - plan.epochMs) / 1000 = (v.downS + w.upS) / 2
      rw [hup]
      ring

include hw

theorem inForce_eq_nil (hordered : Ordered (contactsOf plan linkId)) : inForce g plan linkId = [] := by
  refine List.filter_eq_nil_iff.mpr fun c hc hin => ?_
  obtain ⟨hlink, hstart, hstop⟩ := of_decide_eq_true hin
  obtain ⟨m, hm⟩ := List.mem_iff_getElem?.mp
    (List.mem_filter.mpr ⟨hc, decide_eq_true hlink⟩ : c ∈ contactsOf plan linkId)
  refine hordered.none_between hm hw (by linarith) fun v hv => ?_
  have hlt := hstop (plan.epochMs + v.downS * 1000) (by rw [hdown, hv]; rfl)
  linarith

/-- **What `contactAt` finds in the middle of a gap** is the next contact, where it touches the one before, or
a contact of another link. -/
theorem contactAt_eq_nil_iff (hordered : Ordered (contactsOf plan linkId)) (hl : findLink plan linkId = some l) :
    contactAt plan l.source l.dest ((midOf g - plan.epochMs) / 1000) = [] ↔ ClearAt plan linkId j l w := by
  rw [midOf_eq hup hdown, contactAt, List.filter_eq_nil_iff]
  have hlink : w.link = linkId := of_decide_eq_true (List.mem_filter.mp (List.mem_of_getElem? hw)).2
  have hjoins : ∀ c : Contact, c.link = linkId → plan.joins l.source l.dest c = plan.joins l.source l.dest w := by
    intro c hc
    rw [Plan.joins, Plan.joins, hc, hlink]
  constructor
  · intro hnone
    refine ⟨hl, hw, fun hj v hv => ?_, fun c hc _ hcj hin => hnone c hc (decide_eq_true ⟨hcj, hin⟩)⟩
    refine lt_of_le_of_ne (hordered.before_le_up hw hv) fun htouch => ?_
    obtain ⟨c, hc, hin⟩ := (hordered.in_middle_iff hw).mpr ⟨v, hv, htouch⟩
    obtain ⟨hmem, hcl⟩ := List.mem_filter.mp hc
    exact hnone c hmem (decide_eq_true ⟨(hjoins c (of_decide_eq_true hcl)).trans hj, hin⟩)
  · intro hclear c hc hfound
    obtain ⟨hcj, hin⟩ := of_decide_eq_true hfound
    by_cases hcl : c.link = linkId
    · obtain ⟨v, hv, htouch⟩ := (hordered.in_middle_iff hw).mp
        ⟨c, List.mem_filter.mpr ⟨hc, decide_eq_true hcl⟩, hin⟩
      exact absurd htouch (hclear.apart ((hjoins c hcl).symm.trans hcj) v hv).ne
    · exact hclear.alone c hc hcl hcj hin

end

/-- A contact of 100 s, and one from `t` to 300 s. -/
def downPlan (t : ℚ) : Plan where
  name := js "plan"
  links := [.link { id := js "DOWN", source := 1, dest := 2 }]
  delays := fun id => if id = js "DOWN" then some { oneWayMs := some 5 } else none
  contacts := [{ link := js "DOWN", upS := 0, downS := 100 }, { link := js "DOWN", upS := t, downS := 300 }]

theorem exists_planRecord (plan : Plan) (h : ((do
    let exports ← exportsOf Path.sampleHost.toNode plan
    ContactPlans.signPlan Path.sampleHost Path.sampleKey plan exports ⟨.text "dsn", .int 1, .null, .null, .null⟩
    ) : Outcome Json).toOption.isSome = true) :
    ∃ record, windowsFrom Path.sampleHost record plan Path.sampleKey.pub (js "DOWN") =
      .ok ((contactsOf plan (js "DOWN")).map (windowOf plan)) := by
  obtain ⟨record, hrecord⟩ := Outcome.exists_ok h
  obtain ⟨exports, hexports, hrecord⟩ := Outcome.bind_eq_ok.mp hrecord
  exact ⟨record, windowsFrom_signed (Path.sampleKey_signs rfl rfl) hexports hrecord⟩

/-- Two bundles of 60 s, ready at the start, on a link with the windows of the plan. -/
def downInput (plan : Plan) : Input where
  hops := [js "dtn://vgr1/", js "dtn://dsn/"]
  links := [{ spaceLink with windows := some ((contactsOf plan (js "DOWN")).map (windowOf plan)), ber := 0 }]
  items := [{ sampleItem "b0" 0 with bytes := 60000 }, { sampleItem "b1" 1 with bytes := 60000 }]
  relays := sampleRelays

end Voyager

end DtnCustody
