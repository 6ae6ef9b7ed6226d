/-
# DtnCustody.ContactPlans.Compile — `contact-plans/compile.mjs`: one plan, three contact-plan formats.

`toHdtn`, `toIon` and `toHardy` each go over the contacts of a plan that `normalize` accepted. What a format
has of a contact is a record here (`HdtnContact`, `IonContact`, `HardyLine`), and the text is written from
the records.
-/
import DtnCustody.Base.JsMap
import DtnCustody.ContactPlans.Passes
import DtnCustody.Json.Canonical

namespace DtnCustody.ContactPlans

open Base Js

/-! ## A plan -/

structure PlanNode where
  ipn : Nat
  name : JsString

/-- `{ id, from, to, reaches }`; no `reaches` is none. -/
structure PlanLink where
  id : JsString
  source : Nat
  dest : Nat
  reaches : List Nat := []

/-- An element of `plan.links`. -/
inductive LinkEntry where
  | name (id : JsString)
  | link (l : PlanLink)

/-- `{ one_way_ms, rate_bps }`. -/
structure Delay where
  oneWayMs : Option ℚ
  rateBps : Option ℚ := none

/-- `{ link, up_s, down_s, rate_bps }`. -/
structure Contact where
  link : JsString
  upS : ℚ
  downS : ℚ
  rateBps : Option ℚ := none

structure Plan where
  name : JsString
  description : Option JsString := none
  /-- `Date.parse(plan.epoch)`. -/
  epochMs : ℤ := 0
  scale : Option ℚ := none
  nodes : Option (List PlanNode) := none
  links : List LinkEntry
  /-- `plan.delays?.[id]`. -/
  delays : JsString → Option Delay
  contacts : List Contact
  /-- All of the plan as it was read, which its fingerprint covers. -/
  json : Json := .null

/-! ## `normalize` -/

/-- What `normalize` adds to a plan. -/
structure Normal where
  links : List PlanLink
  nodes : List PlanNode
  byId : JsMap JsString PlanLink

/-- A link that is only a name is one of a chain. -/
def LinkEntry.normal (i : Nat) : LinkEntry → PlanLink
  | .name id => { id, source := i + 1, dest := i + 2 }
  | .link l => l

/-- A string inside a message. -/
def shown (s : JsString) : String := String.ofList (scalars s)

def unknownLink (c : Contact) : Err := .error s!"contact references unknown link {shown c.link}"

def checkContact (byId : JsMap JsString PlanLink) (c : Contact) : Outcome Unit :=
  if byId.has c.link = false then .error (unknownLink c)
  else if ¬ c.upS < c.downS then .error (.error s!"contact on {shown c.link} must end after it starts")
  else .ok ()

def checkDelay (delays : JsString → Option Delay) (l : PlanLink) : Outcome Unit :=
  if (delays l.id).isNone then .error (.error s!"no delay for link {shown l.id}") else .ok ()

def normalize (plan : Plan) : Outcome Normal := do
  let links := plan.links.mapIdx LinkEntry.normal
  let ends := ((links.flatMap fun l => [l.source, l.dest]).dedup).insertionSort (· ≤ ·)
  let nodes := plan.nodes.getD (ends.map fun n => { ipn := n, name := js s!"node{n}" })
  let byId := JsMap.ofList (links.map fun l => (l.id, l))
  plan.contacts.forM (checkContact byId)
  links.forM (checkDelay plan.delays)
  return { links, nodes, byId }

/-- What `normalize` has checked. -/
structure Accepted (plan : Plan) (p : Normal) : Prop where
  byId : p.byId = JsMap.ofList (p.links.map fun l => (l.id, l))
  contacts : ∀ c ∈ plan.contacts, checkContact p.byId c = .ok ()
  delays : ∀ l ∈ p.links, checkDelay plan.delays l = .ok ()

theorem normalize_accepted {plan : Plan} {p : Normal} (h : normalize plan = .ok p) : Accepted plan p := by
  unfold normalize at h
  obtain ⟨⟨⟩, hcontacts, h⟩ := Outcome.bind_eq_ok.mp h
  obtain ⟨⟨⟩, hdelays, h⟩ := Outcome.bind_eq_ok.mp h
  cases h
  exact ⟨rfl, Outcome.forM_eq_ok hcontacts, Outcome.forM_eq_ok hdelays⟩

theorem checkContact_eq_ok {byId : JsMap JsString PlanLink} {c : Contact}
    (h : checkContact byId c = .ok ()) : (∃ l, byId.get? c.link = some l) ∧ c.upS < c.downS := by
  unfold checkContact at h
  split at h
  · cases h
  next hhas =>
  split at h
  · cases h
  next hlasts =>
  exact ⟨Option.isSome_iff_exists.mp (Bool.eq_true_of_not_eq_false hhas), not_not.mp hlasts⟩

/-- **Each contact of an accepted plan has its link and its delay.** -/
theorem normalize_found {plan : Plan} {p : Normal} (h : normalize plan = .ok p) {c : Contact}
    (hc : c ∈ plan.contacts) : ∃ l d, p.byId.get? c.link = some l ∧ plan.delays c.link = some d := by
  have haccepted := normalize_accepted h
  obtain ⟨⟨l, hl⟩, -⟩ := checkContact_eq_ok (haccepted.contacts c hc)
  have hmem := hl
  rw [haccepted.byId] at hmem
  obtain ⟨l', hlink, heq⟩ := List.mem_map.mp (JsMap.mem_of_get?_ofList hmem)
  obtain ⟨hid, rfl⟩ := Prod.mk.inj heq
  have hdelay := haccepted.delays l' hlink
  unfold checkDelay at hdelay
  cases hd : plan.delays c.link with
  | none =>
      rw [hid, hd] at hdelay
      cases hdelay
  | some d => exact ⟨l', d, hl, rfl⟩

theorem normalize_lasts {plan : Plan} {p : Normal} (h : normalize plan = .ok p) {c : Contact}
    (hc : c ∈ plan.contacts) : c.upS < c.downS :=
  (checkContact_eq_ok ((normalize_accepted h).contacts c hc)).2

/-! ## What the formats share -/

variable (N : Node) (plan : Plan) (scaled : Bool) (p : Normal)

/-- `scaled ? p.scale ?? 1 : 1`. -/
def factor : ℚ := if scaled then plan.scale.getD 1 else 1

/-- `c.rate_bps ?? d.rate_bps`. -/
def rateOf (c : Contact) (d : Delay) : Option ℚ := c.rateBps.orElse fun _ => d.rateBps

/-- `Math.max(0, Math.round((d.one_way_ms / 1000) * k))`, and `none` for `NaN`. -/
def owltOf (k : ℚ) (d : Delay) : Option ℤ := d.oneWayMs.map fun ms => max 0 (round (ms / 1000 * k))

/-- `${x}` of a whole number. -/
def whole (z : ℤ) : JsString := Prim.numToString N (.fin z)

/-- `${x}` of a light time. -/
def wholeOrNaN : Option ℤ → JsString
  | none => Prim.numToString N .nan
  | some z => whole N z

/-! ## `toHdtn` -/

structure HdtnContact where
  contact : Nat
  source : Nat
  dest : Nat
  startTime : ℤ
  endTime : ℤ
  rateBitsPerSec : ℚ
  owlt : Option ℤ

def hdtnContact (i : Nat) (c : Contact) : Outcome HdtnContact :=
  match p.byId.get? c.link, plan.delays c.link with
  | some l, some d =>
      .ok { contact := i
            source := l.source
            dest := l.dest
            startTime := round (c.upS * factor plan scaled)
            endTime := round (c.downS * factor plan scaled)
            rateBitsPerSec := (rateOf c d).getD 100000
            owlt := owltOf (factor plan scaled) d }
  | _, _ => .error .typeError

def toHdtn : Outcome (List HdtnContact) := do
  let p ← normalize plan
  plan.contacts.zipIdx.mapM fun (c, i) => hdtnContact plan scaled p i c

/-! ## `toIon` -/

/-- The `a contact` line and the `a range` line of a contact. -/
structure IonContact where
  start : ℤ
  stop : ℤ
  source : Nat
  dest : Nat
  rateBytes : ℤ
  owlt : Option ℤ

def ionContact (c : Contact) : Outcome IonContact :=
  match p.byId.get? c.link, plan.delays c.link with
  | some l, some d =>
      .ok { start := round (c.upS * factor plan scaled)
            stop := round (c.downS * factor plan scaled)
            source := l.source
            dest := l.dest
            rateBytes := round ((rateOf c d).getD 100000 / 8)
            owlt := owltOf (factor plan scaled) d }
  | _, _ => .error .typeError

def ionContacts : Outcome (List IonContact) := do
  let p ← normalize plan
  plan.contacts.mapM (ionContact plan scaled p)

/-- `a ${what} +${s} +${e} ${l.from} ${l.to} ${last}`. -/
def ionLine (what : String) (c : IonContact) (last : JsString) : JsString :=
  js s!"a {what} +" ++ whole N c.start ++ js " +" ++ whole N c.stop ++ js " " ++ whole N c.source ++
    js " " ++ whole N c.dest ++ js " " ++ last

def IonContact.lines (c : IonContact) : List JsString :=
  [ionLine N "contact" c (whole N c.rateBytes), ionLine N "range" c (wholeOrNaN N c.owlt)]

/-- `s.trimEnd()`. -/
def trimEnd (s : JsString) : JsString :=
  (s.reverse.dropWhile fun u => u.toNat ∈ [9, 10, 11, 12, 13, 32, 160, 0x1680, 0x2028, 0x2029, 0x202f, 0x205f,
    0x3000, 0xfeff] ∨ 0x2000 ≤ u.toNat ∧ u.toNat ≤ 0x200a).reverse

/-- `lines.join("\n") + "\n"`. -/
def textOf (lines : List JsString) : JsString := lines.flatMap fun line => line ++ js "\n"

def toIon : Outcome JsString := do
  let contacts ← ionContacts plan scaled
  return textOf ((js "# " ++ plan.name ++ js ": generated by contact-plans/compile.mjs") ::
    trimEnd (js "# " ++ plan.description.getD []) :: contacts.flatMap (IonContact.lines N))

/-! ## `toHardy` -/

/-- `new Date(ms)` of whole milliseconds, which `toISOString` takes. -/
def dateOf (ms : ℤ) : Outcome ℤ := if ms.natAbs ≤ 8640000000000000 then .ok ms else .error .rangeError

/-- The decimal digits of a number, with zeros in front. -/
def padded (width n : Nat) : String := "".pushn '0' (width - (toString n).length) ++ toString n

/-- The year, month and day of a day since 1970. -/
def civil (day : ℤ) : ℤ × Nat × Nat :=
  let z := day + 719468
  let dayOfEra := (z % 146097).toNat
  let year := (dayOfEra - dayOfEra / 1460 + dayOfEra / 36524 - dayOfEra / 146096) / 365
  let dayOfYear := dayOfEra - (365 * year + year / 4 - year / 100)
  let month := (5 * dayOfYear + 2) / 153
  ((year : ℤ) + z / 146097 * 400 + (if month < 10 then 0 else 1),
    if month < 10 then month + 3 else month - 9, dayOfYear - (153 * month + 2) / 5 + 1)

def yearText (y : ℤ) : String :=
  if 0 ≤ y ∧ y ≤ 9999 then padded 4 y.natAbs
  else (if y < 0 then "-" else "+") ++ padded 6 y.natAbs

/-- `toISOString().replace(/\.\d{3}Z$/, "Z")`. -/
def isoText (ms : ℤ) : JsString :=
  let (y, m, d) := civil (ms / 86400000)
  let s := (ms / 1000 % 86400).toNat
  js (yearText y ++ "-" ++ padded 2 m ++ "-" ++ padded 2 d ++ "T" ++ padded 2 (s / 3600) ++ ":" ++
    padded 2 (s / 60 % 60) ++ ":" ++ padded 2 (s % 60) ++ "Z")

/-- The UTC second that is written. -/
def secondOf (ms : ℤ) : ℤ := ms / 1000

example : isoText 1790812835999 = js "2026-10-01T00:00:35Z" := by decide +kernel

inductive RateUnit where
  | giga
  | mega
  | kilo
  | one

def RateUnit.factor : RateUnit → ℚ
  | .giga => 1000000000
  | .mega => 1000000
  | .kilo => 1000
  | .one => 1

def RateUnit.text : RateUnit → String
  | .giga => "G"
  | .mega => "M"
  | .kilo => "K"
  | .one => ""

/-- `unit(b)`. -/
def unit (b : ℚ) : RateUnit :=
  if (b / 1000000000).den = 1 then .giga
  else if (b / 1000000).den = 1 then .mega
  else if (b / 1000).den = 1 then .kilo
  else .one

/-- `bandwidth ${unit(bw)}`. -/
structure Bandwidth where
  amount : ℚ
  unit : RateUnit

def bandwidthOf (b : ℚ) : Bandwidth := ⟨b / (unit b).factor, unit b⟩

/-- `ipn:${node}.* via ipn:${via}.0 start ${iso(start)} end ${iso(stop)}`, and a bandwidth. -/
structure HardyLine where
  node : Nat
  via : Nat
  start : ℤ
  stop : ℤ
  bandwidth : Option Bandwidth

/-- `iso(s)`, as a date. -/
def hardyDate (epochMs : ℤ) (s : ℚ) : Outcome ℤ := dateOf (epochMs + round (s * factor plan scaled) * 1000)

def hardyLine (epochMs : ℤ) (c : Contact) (l : PlanLink) (bw : Option ℚ) (n : Nat) : Outcome HardyLine := do
  let start ← hardyDate plan scaled epochMs c.upS
  let stop ← hardyDate plan scaled epochMs c.downS
  return { node := n, via := l.dest, start, stop, bandwidth := (bw.filter (· ≠ 0)).map bandwidthOf }

/-- The lines of a contact: for its far end, and for what the link reaches beyond. -/
def hardyLines (epochMs : ℤ) (c : Contact) : Outcome (List HardyLine) :=
  match p.byId.get? c.link, c.rateBps, plan.delays c.link with
  | some l, some bw, _ => (l.dest :: l.reaches).mapM (hardyLine plan scaled epochMs c l (some bw))
  | some l, none, some d => (l.dest :: l.reaches).mapM (hardyLine plan scaled epochMs c l d.rateBps)
  | _, _, _ => .error .typeError

/-- The time zero and the lines of each contact. -/
def hardyContacts (epochMs : Option ℤ) : Outcome (ℤ × List (List HardyLine)) := do
  let p ← normalize plan
  match epochMs with
  | none => .error (.error "toHardy needs epochMs (the plan's time zero)")
  | some epochMs => do
      let zero ← hardyDate plan scaled epochMs 0
      return (zero, ← plan.contacts.mapM (hardyLines plan scaled p epochMs))

def HardyLine.text (y : HardyLine) : JsString :=
  js "ipn:" ++ whole N y.node ++ js ".* via ipn:" ++ whole N y.via ++ js ".0 start " ++ isoText y.start ++
    js " end " ++ isoText y.stop ++
      match y.bandwidth with
      | none => []
      | some b => js " bandwidth " ++ Prim.numToString N (.fin b.amount) ++ js b.unit.text

def toHardy (epochMs : Option ℤ) : Outcome JsString := do
  let (zero, contacts) ← hardyContacts plan scaled epochMs
  return textOf ((js "# " ++ plan.name ++ js ": generated by contact-plans/compile.mjs, time zero " ++
    isoText zero) :: contacts.flatten.map (HardyLine.text N))

end DtnCustody.ContactPlans
