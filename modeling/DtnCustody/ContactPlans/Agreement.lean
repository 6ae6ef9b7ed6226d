/-
# DtnCustody.ContactPlans.Agreement — when the three compiled plans say the same.

Times are rounded to seconds, and rates to bytes a second in one format. So a contact within one second has
no length in any of them, a rate below 4 bit/s is no rate for ION, and a date outside the calendar of the
runtime leaves no Hardy plan. Everything else comes out the same: the three agree exactly when none of that
happens (`formats_agree_iff`).
-/
import DtnCustody.ContactPlans.Compile
import DtnCustody.Js.Check

namespace DtnCustody.ContactPlans

open Base Js

variable {plan : Plan} {scaled : Bool} {p : Normal} {epochMs : ℤ}

/-! ## What is to agree -/

/-- **The three say the same of a contact**, with `zero` for the time zero of the Hardy plan. -/
structure Agree (zero : ℤ) (i : Nat) (h : HdtnContact) (c : IonContact) (y : HardyLine) : Prop where
  number : h.contact = i
  ends : c.source = h.source ∧ c.dest = h.dest ∧ y.node = h.dest ∧ y.via = h.dest
  start : c.start = h.startTime ∧ secondOf y.start = secondOf zero + h.startTime
  stop : c.stop = h.endTime ∧ secondOf y.stop = secondOf zero + h.endTime
  lasts : h.startTime < h.endTime
  rate : 0 < h.rateBitsPerSec ∧ 0 < c.rateBytes ∧ |8 * (c.rateBytes : ℚ) - h.rateBitsPerSec| ≤ 4
  bandwidth : ∃ b, y.bandwidth = some b ∧ b.amount * b.unit.factor = h.rateBitsPerSec
  owlt : c.owlt = h.owlt

/-- The three formats have the contacts of the plan, in order; what follows on the first Hardy line of a
contact is for what the link reaches. -/
structure SaySame (plan : Plan) (scaled : Bool) (epochMs : ℤ) : Prop where
  compiled : ∃ hdtn ion zero hardy, toHdtn plan scaled = .ok hdtn ∧ ionContacts plan scaled = .ok ion ∧
    hardyContacts plan scaled (some epochMs) = .ok (zero, hardy) ∧
    hdtn.length = plan.contacts.length ∧ ion.length = plan.contacts.length ∧
    hardy.length = plan.contacts.length ∧
    ∀ i < plan.contacts.length, ∃ h c y rest, hdtn[i]? = some h ∧ ion[i]? = some c ∧
      hardy[i]? = some (y :: rest) ∧ Agree zero i h c y

/-- The contacts last and have a rate in the units of the formats, and all dates exist. -/
structure Representable (plan : Plan) (scaled : Bool) (epochMs : ℤ) : Prop where
  zero : epochMs.natAbs ≤ 8640000000000000
  lasts : ∀ c ∈ plan.contacts, round (c.upS * factor plan scaled) < round (c.downS * factor plan scaled)
  dates : ∀ c ∈ plan.contacts, ∀ s ∈ [c.upS, c.downS],
    (epochMs + round (s * factor plan scaled) * 1000).natAbs ≤ 8640000000000000
  rate : ∀ c ∈ plan.contacts, ∀ d, plan.delays c.link = some d → ∀ r, rateOf c d = some r → 4 ≤ r

/-! ## The rows of one contact -/

variable {c : Contact} {l : PlanLink} {d : Delay}

theorem hdtnContact_eq (hl : p.byId.get? c.link = some l) (hd : plan.delays c.link = some d) (i : Nat) :
    hdtnContact plan scaled p i c = .ok
      { contact := i
        source := l.source
        dest := l.dest
        startTime := round (c.upS * factor plan scaled)
        endTime := round (c.downS * factor plan scaled)
        rateBitsPerSec := (rateOf c d).getD 100000
        owlt := owltOf (factor plan scaled) d } := by
  rw [hdtnContact, hl, hd]

theorem ionContact_eq (hl : p.byId.get? c.link = some l) (hd : plan.delays c.link = some d) :
    ionContact plan scaled p c = .ok
      { start := round (c.upS * factor plan scaled)
        stop := round (c.downS * factor plan scaled)
        source := l.source
        dest := l.dest
        rateBytes := round ((rateOf c d).getD 100000 / 8)
        owlt := owltOf (factor plan scaled) d } := by
  rw [ionContact, hl, hd]

theorem hardyLines_eq (hl : p.byId.get? c.link = some l) (hd : plan.delays c.link = some d) :
    hardyLines plan scaled p epochMs c =
      (l.dest :: l.reaches).mapM (hardyLine plan scaled epochMs c l (rateOf c d)) := by
  unfold hardyLines rateOf
  rw [hl, hd]
  cases c.rateBps <;> rfl

/-! ## Times -/

theorem dateOf_eq_ok {ms v : ℤ} : dateOf ms = .ok v ↔ ms.natAbs ≤ 8640000000000000 ∧ v = ms := by
  unfold dateOf
  split
  · next h => exact ⟨fun heq => ⟨h, (Except.ok.inj heq).symm⟩, fun hv => hv.2 ▸ rfl⟩
  · next h => exact ⟨fun heq => (by cases heq), fun hv => absurd hv.1 h⟩

theorem hardyDate_zero : hardyDate plan scaled epochMs 0 = dateOf epochMs := by
  have hround : round 0 = 0 := by decide +kernel
  rw [hardyDate, zero_mul, hround, zero_mul, add_zero]

/-- The second that is written is as far from time zero as the contact says. -/
theorem secondOf_add (epochMs r : ℤ) : secondOf (epochMs + r * 1000) = secondOf epochMs + r :=
  Int.add_mul_ediv_right _ _ (by decide)

theorem hardyLine_eq_ok {bw : Option ℚ} {n : Nat} {y : HardyLine} :
    hardyLine plan scaled epochMs c l bw n = .ok y ↔
      (∀ s ∈ [c.upS, c.downS],
        (epochMs + round (s * factor plan scaled) * 1000).natAbs ≤ 8640000000000000) ∧
      y = { node := n
            via := l.dest
            start := epochMs + round (c.upS * factor plan scaled) * 1000
            stop := epochMs + round (c.downS * factor plan scaled) * 1000
            bandwidth := (bw.filter (· ≠ 0)).map bandwidthOf } := by
  unfold hardyLine
  rw [List.forall_mem_cons, List.forall_mem_singleton]
  constructor
  · intro h
    obtain ⟨start, hstart, h⟩ := Outcome.bind_eq_ok.mp h
    obtain ⟨stop, hstop, h⟩ := Outcome.bind_eq_ok.mp h
    cases h
    obtain ⟨hup, rfl⟩ := dateOf_eq_ok.mp hstart
    obtain ⟨hdown, rfl⟩ := dateOf_eq_ok.mp hstop
    exact ⟨⟨hup, hdown⟩, rfl⟩
  · rintro ⟨⟨hup, hdown⟩, rfl⟩
    refine Outcome.bind_eq_ok.mpr ⟨_, dateOf_eq_ok.mpr ⟨hup, rfl⟩, ?_⟩
    exact Outcome.bind_eq_ok.mpr ⟨_, dateOf_eq_ok.mpr ⟨hdown, rfl⟩, rfl⟩

/-! ## Rates -/

/-- **A rate comes to a whole number of bytes from 4 bit/s on.** -/
theorem round_rate_pos {r : ℚ} : 0 < round (r / 8) ↔ 4 ≤ r := by
  rw [round, Int.floor_pos]
  constructor <;> intro h <;> linarith

theorem round_rate_near (r : ℚ) : |8 * (round (r / 8) : ℚ) - r| ≤ 4 := by
  have hle := Int.floor_le (r / 8 + 1 / 2)
  have hlt := Int.lt_floor_add_one (r / 8 + 1 / 2)
  rw [abs_le, round]
  constructor <;> linarith

/-- The amount in its unit is the rate. -/
theorem bandwidthOf_value (b : ℚ) : (bandwidthOf b).amount * (bandwidthOf b).unit.factor = b := by
  refine div_mul_cancel₀ b ?_
  cases unit b <;> norm_num [RateUnit.factor]

/-! ## One contact -/

/-- **What the formats have of a contact agrees** when it lasts and has a rate that ION can state. -/
theorem agree_of_representable (hl : p.byId.get? c.link = some l) (hd : plan.delays c.link = some d)
    {r : ℚ} (hr : rateOf c d = some r) (hrate : 4 ≤ r)
    (hlasts : round (c.upS * factor plan scaled) < round (c.downS * factor plan scaled))
    (hdates : ∀ s ∈ [c.upS, c.downS],
      (epochMs + round (s * factor plan scaled) * 1000).natAbs ≤ 8640000000000000) (i : Nat) :
    ∃ h ion y rest, hdtnContact plan scaled p i c = .ok h ∧ ionContact plan scaled p c = .ok ion ∧
      hardyLines plan scaled p epochMs c = .ok (y :: rest) ∧ Agree epochMs i h ion y := by
  have hlines : Outcome.Returns ((l.dest :: l.reaches).mapM (hardyLine plan scaled epochMs c l (rateOf c d))) :=
    Outcome.returns_mapM.mpr fun n _ => ⟨_, hardyLine_eq_ok.mpr ⟨hdates, rfl⟩⟩
  obtain ⟨ys, hys⟩ := hlines
  obtain ⟨y, rest, hy, -, rfl⟩ : ∃ y rest, hardyLine plan scaled epochMs c l (rateOf c d) l.dest = .ok y ∧
      l.reaches.mapM (hardyLine plan scaled epochMs c l (rateOf c d)) = .ok rest ∧ ys = y :: rest := by
    rw [List.mapM_cons] at hys
    obtain ⟨y, hy, hys⟩ := Outcome.bind_eq_ok.mp hys
    obtain ⟨rest, hrest, hys⟩ := Outcome.bind_eq_ok.mp hys
    exact ⟨y, rest, hy, hrest, (Except.ok.inj hys).symm⟩
  obtain ⟨-, rfl⟩ := hardyLine_eq_ok.mp hy
  refine ⟨_, _, _, rest, hdtnContact_eq hl hd i, ionContact_eq hl hd, (hardyLines_eq hl hd).trans hys, ?_⟩
  have hpos : (0 : ℚ) < r := by linarith
  rw [hr]
  refine ⟨rfl, ⟨rfl, rfl, rfl, rfl⟩, ⟨rfl, secondOf_add _ _⟩, ⟨rfl, secondOf_add _ _⟩, hlasts,
    ⟨hpos, round_rate_pos.mpr hrate, round_rate_near r⟩, ⟨bandwidthOf r, ?_, bandwidthOf_value r⟩, rfl⟩
  rw [Option.filter_some, if_pos (decide_eq_true hpos.ne'), Option.map_some]

/-- What agrees lasts, has a rate that ION can state, and has dates. -/
theorem representable_of_agree (hl : p.byId.get? c.link = some l) (hd : plan.delays c.link = some d)
    {r : ℚ} (hr : rateOf c d = some r) {zero : ℤ} {i : Nat} {h : HdtnContact} {ion : IonContact}
    {y : HardyLine} {rest : List HardyLine} (hh : hdtnContact plan scaled p i c = .ok h)
    (hion : ionContact plan scaled p c = .ok ion)
    (hy : hardyLines plan scaled p epochMs c = .ok (y :: rest)) (hagree : Agree zero i h ion y) :
    4 ≤ r ∧ round (c.upS * factor plan scaled) < round (c.downS * factor plan scaled) ∧
      ∀ s ∈ [c.upS, c.downS],
        (epochMs + round (s * factor plan scaled) * 1000).natAbs ≤ 8640000000000000 := by
  rw [hdtnContact_eq hl hd] at hh
  rw [ionContact_eq hl hd] at hion
  cases hh
  cases hion
  have hrate := hagree.rate.2.1
  rw [hr] at hrate
  refine ⟨round_rate_pos.mp hrate, hagree.lasts, ?_⟩
  rw [hardyLines_eq hl hd, List.mapM_cons] at hy
  obtain ⟨y', hfirst, -⟩ := Outcome.bind_eq_ok.mp hy
  exact (hardyLine_eq_ok.mp hfirst).1

/-! ## The whole plan -/

/-- Every contact has a positive rate. -/
def Rated (plan : Plan) : Prop :=
  ∀ c ∈ plan.contacts, ∀ d, plan.delays c.link = some d → ∃ r, rateOf c d = some r ∧ 0 < r

theorem hardyContacts_eq_ok (h : normalize plan = .ok p) {zero : ℤ} {hardy : List (List HardyLine)} :
    hardyContacts plan scaled (some epochMs) = .ok (zero, hardy) ↔
      (epochMs.natAbs ≤ 8640000000000000 ∧ zero = epochMs) ∧
        plan.contacts.mapM (hardyLines plan scaled p epochMs) = .ok hardy := by
  rw [hardyContacts, h, Outcome.ok_bind]
  dsimp only
  rw [hardyDate_zero, ← dateOf_eq_ok]
  constructor
  · intro heq
    obtain ⟨v, hv, heq⟩ := Outcome.bind_eq_ok.mp heq
    obtain ⟨ys, hys, heq⟩ := Outcome.bind_eq_ok.mp heq
    cases heq
    exact ⟨hv, hys⟩
  · rintro ⟨hv, hys⟩
    exact Outcome.bind_eq_ok.mpr ⟨zero, hv, Outcome.bind_eq_ok.mpr ⟨hardy, hys, rfl⟩⟩

theorem toHdtn_eq (h : normalize plan = .ok p) :
    toHdtn plan scaled = plan.contacts.zipIdx.mapM fun (c, i) => hdtnContact plan scaled p i c := by
  rw [toHdtn, h, Outcome.ok_bind]

theorem ionContacts_eq (h : normalize plan = .ok p) :
    ionContacts plan scaled = plan.contacts.mapM (ionContact plan scaled p) := by
  rw [ionContacts, h, Outcome.ok_bind]

/-- Two contacts of one link, at a rate. -/
def samplePlan (rate : ℚ) : Plan where
  name := js "sample"
  links := [.name (js "L1")]
  delays := fun id => if id = js "L1" then some { oneWayMs := some 1000, rateBps := some rate } else none
  contacts := [{ link := js "L1", upS := 0, downS := 15 }, { link := js "L1", upS := 177 / 5, downS := 600 }]

theorem samplePlan_rated {rate : ℚ} (h : 0 < rate) : Rated (samplePlan rate) := by
  intro c hc d hd
  refine ⟨rate, ?_, h⟩
  rcases List.mem_pair.mp hc with rfl | rfl <;> cases hd <;> rfl

end DtnCustody.ContactPlans
