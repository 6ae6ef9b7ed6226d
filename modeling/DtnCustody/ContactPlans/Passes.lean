/-
# DtnCustody.ContactPlans.Passes — `contact-plans/passes.mjs`: passes of satellites over stations.

Visibility is sampled, and where it flips between two samples the second of the flip is looked for by
bisection. The middle is rounded down to a whole second. From a whole second all times are whole seconds
and every turn moves an end (`edge_found`). From any other start the later end may stay where it is while
the middle falls on the earlier one, and the search does not end (`edge_stuck`). So the search is right for
every start on a whole second, and for no other start unless it is never made (`passes_found_iff`).
-/
import DtnCustody.Js.Operators
import Mathlib.Data.Rat.Floor
import Mathlib.Data.List.Sort
import Mathlib.Tactic.Linarith

namespace DtnCustody.ContactPlans

open Base Js

/-! ## The code -/

structure Tle where
  name : JsString
  line1 : JsString
  line2 : JsString

structure Station where
  name : JsString
  lat : ℚ
  lon : ℚ
  altKm : Option ℚ

structure Look where
  elevDeg : ℚ
  rangeKm : ℚ

/-- `look(satrec, gd, new Date(ms))`, and `null` when SGP4 cannot propagate. -/
structure Orbits where
  look : Tle → Station → ℚ → Option Look

structure Query where
  tles : List Tle
  stations : List Station
  startMs : ℚ
  hours : ℚ := 24
  elevationMaskDeg : ℚ := 10
  stepS : Nat := 30
  stepS_pos : 0 < stepS

structure Pass where
  satellite : JsString
  station : JsString
  aosMs : ℚ
  losMs : ℚ
  maxElevationDeg : ℚ
  midRangeKm : ℚ

/-- `Math.round(x)`. -/
def round (x : ℚ) : ℤ := ⌊x + 1 / 2⌋

namespace Query

variable (q : Query)

def endMs : ℚ := q.startMs + q.hours * 3600000

/-- The time of a sample; the one before the loop is number 0. -/
def time (i : Nat) : ℚ := q.startMs + i * (q.stepS * 1000)

/-- How often the loop over `ms` runs. -/
def samples : Nat := ⌊q.hours * 3600000 / (q.stepS * 1000)⌋.toNat

end Query

variable (O : Orbits) (q : Query) (t : Tle) (s : Station)

def up (ms : ℚ) : Option Bool := (O.look t s ms).map fun l => decide (q.elevationMaskDeg ≤ l.elevDeg)

/-- `edge(lo, hi, rising)`, `none` when the fuel does not last. -/
def edge (up : ℚ → Option Bool) (rising : Bool) : Nat → ℚ → ℚ → Option ℚ
  | 0, _, _ => none
  | fuel + 1, lo, hi =>
      if 1000 < hi - lo then
        let mid : ℚ := ⌊(lo + hi) / 2000⌋ * 1000
        if up mid = some rising then edge up rising fuel lo mid else edge up rising fuel mid hi
      else some hi

/-- The pass pushed for the times of its two edges. -/
def pass (aos los : ℚ) : Pass :=
  let looks := (List.range (⌊(los - aos) / 15000⌋.toNat + 1)).filterMap fun i =>
    O.look t s (aos + i * 15000)
  let maxEl := looks.foldl (fun m l => if m < l.elevDeg then l.elevDeg else m) (-90)
  { satellite := t.name
    station := s.name
    aosMs := aos
    losMs := los
    maxElevationDeg := round (maxEl * 10) / 10
    midRangeKm := round (((O.look t s ((aos + los) / 2)).map Look.rangeKm).getD 0) }

/-- The variables of the loop. -/
structure Watch where
  prevMs : ℚ
  prevUp : Option Bool
  aos : Option ℚ
  passes : List Pass

/-- `push(los)`. -/
def Watch.push (w : Watch) (los : ℚ) : Watch :=
  let aos := w.aos.getD 0
  if los - aos < 1000 then w else { w with passes := w.passes ++ [pass O t s aos los] }

/-- One turn of the loop. -/
def Watch.sample (fuel : Nat) (w : Watch) (ms : ℚ) : Option Watch :=
  let nowUp := up O q t s ms
  if nowUp = some true ∧ w.prevUp ≠ some true then do
    let aos ← edge (up O q t s) true fuel w.prevMs ms
    return { w with aos := some aos, prevMs := ms, prevUp := nowUp }
  else if nowUp ≠ some true ∧ w.prevUp = some true then do
    let los ← edge (up O q t s) false fuel w.prevMs ms
    return { w.push O t s los with aos := none, prevMs := ms, prevUp := nowUp }
  else return { w with prevMs := ms, prevUp := nowUp }

def Watch.start : Watch :=
  let prevUp := up O q t s q.startMs
  { prevMs := q.startMs, prevUp, aos := if prevUp = some true then some q.startMs else none, passes := [] }

/-- The passes of one satellite over one station. -/
def overpasses (fuel : Nat) : Option (List Pass) := do
  let w ← ((List.range q.samples).map fun i => q.time (i + 1)).foldlM
    (Watch.sample O q t s fuel) (Watch.start O q t s)
  return (if w.aos.isSome then w.push O t s q.endMs else w).passes

def computePasses (fuel : Nat) : Outcome (Option (List Pass)) :=
  if q.tles.isEmpty ∨ q.stations.isEmpty then
    .error (.error "need at least one satellite and one station")
  else if ¬ (0 < q.hours ∧ q.hours ≤ 168) then
    .error (.error "the window can be up to 7 days (168 hours)")
  else .ok do
    let lists ← (q.tles.flatMap fun t => q.stations.map fun s => (t, s)).mapM
      fun p => overpasses O q p.1 p.2 fuel
    return lists.flatten.mergeSort fun a b => decide (a.aosMs ≤ b.aosMs)

/-! ## What a search should find -/

/-- The search ends, with a time in the interval that is at most a second after the old visibility. -/
def EdgeFound (up : ℚ → Option Bool) (rising : Bool) (lo hi : ℚ) : Prop :=
  ∃ fuel e, edge up rising fuel lo hi = some e ∧ lo < e ∧ e ≤ hi ∧ up e = some rising ∧
    ∃ e', lo ≤ e' ∧ e' < e ∧ e ≤ e' + 1000 ∧ up e' = some (!rising)

/-- Passes one after the other, with time between them. -/
def InTurn (ps : List Pass) : Prop :=
  (∀ p ∈ ps, p.aosMs < p.losMs) ∧ ps.Pairwise fun a b => a.losMs < b.aosMs

/-- Every edge is found, and the passes of a satellite and a station come out one after the other. -/
structure PassesFound : Prop where
  edges : ∀ t ∈ q.tles, ∀ s ∈ q.stations, ∀ i < q.samples, ∀ rising : Bool,
    up O q t s (q.time i) = some (!rising) → up O q t s (q.time (i + 1)) = some rising →
      EdgeFound (up O q t s) rising (q.time i) (q.time (i + 1))
  returns : ∃ fuel out, computePasses O q fuel = .ok (some out) ∧
    ∀ t ∈ q.tles, ∀ s ∈ q.stations, ∃ ps, overpasses O q t s fuel = some ps ∧ ps.Sublist out ∧ InTurn ps

/-- Visibility is a predicate: every look has an answer. -/
def Orbits.Total : Prop := ∀ t s ms, (O.look t s ms).isSome = true

/-- The start is a whole second. -/
def Query.OnSecond : Prop := ∃ z : ℤ, q.startMs = 1000 * z

/-! ## One search -/

variable {up' : ℚ → Option Bool} {rising : Bool}

theorem floor_middle (a b : ℤ) : ⌊((1000 * a : ℚ) + 1000 * b) / 2000⌋ = (a + b) / 2 := by
  have hcast : ((1000 * a : ℚ) + 1000 * b) / 2000 = ((a + b : ℤ) : ℚ) / ((2 : ℕ) : ℚ) := by
    push_cast
    ring
  rw [hcast, Rat.floor_intCast_div_natCast]
  rfl

/-- An interval of a second or less is not searched. -/
theorem edge_short {lo hi : ℚ} (hshort : hi ≤ lo + 1000) (fuel : Nat) :
    edge up' rising (fuel + 1) lo hi = some hi := by
  rw [edge, if_neg (not_lt.mpr (sub_le_iff_le_add'.mpr hshort))]

/-- **Between whole seconds the edge is found**, in no more turns than there are seconds. -/
theorem edge_found (htotal : ∀ ms, (up' ms).isSome = true) {n : Nat} :
    ∀ {a b : ℤ}, a < b → b - a ≤ n → up' (1000 * a) = some (!rising) → up' (1000 * b) = some rising →
      ∃ e, edge up' rising n (1000 * a) (1000 * b) = some e ∧ 1000 * (a : ℚ) < e ∧ e ≤ 1000 * b ∧
        up' e = some rising ∧
          ∃ e', 1000 * (a : ℚ) ≤ e' ∧ e' < e ∧ e ≤ e' + 1000 ∧ up' e' = some (!rising) := by
  induction n with
  | zero =>
      intro a b hab hfuel
      omega
  | succ n ih =>
      intro a b hab hfuel ha hb
      have hab' : (a : ℚ) < b := Int.cast_lt.mpr hab
      rw [edge]
      by_cases hlong : a + 1 < b
      · have hlong' : (a : ℚ) + 1 < b := by exact_mod_cast hlong
        -- The middle is a whole second strictly inside.
        have hmid : ((⌊((1000 * a : ℚ) + 1000 * b) / 2000⌋ : ℤ) : ℚ) * 1000 =
            1000 * (((a + b) / 2 : ℤ) : ℚ) := by
          rw [floor_middle, mul_comm]
        have hlow : a < (a + b) / 2 := by omega
        have hhigh : (a + b) / 2 < b := by omega
        have hlow' : (a : ℚ) < ((a + b) / 2 : ℤ) := Int.cast_lt.mpr hlow
        have hhigh' : (((a + b) / 2 : ℤ) : ℚ) < b := Int.cast_lt.mpr hhigh
        rw [if_pos (by linarith)]
        dsimp only
        rw [hmid]
        split
        · next hnew =>
          obtain ⟨e, he, hlo, hhi, hup, e', hrest⟩ := ih hlow (by omega) ha hnew
          exact ⟨e, he, hlo, by linarith, hup, e', hrest⟩
        · next hold =>
          have hold' : up' (1000 * (((a + b) / 2 : ℤ) : ℚ)) = some (!rising) := by
            obtain ⟨v, hv⟩ := Option.isSome_iff_exists.mp (htotal (1000 * (((a + b) / 2 : ℤ) : ℚ)))
            rw [hv] at hold ⊢
            cases v <;> cases rising <;> simp_all
          obtain ⟨e, he, hlo, hhi, hup, e', hlo', hrest⟩ := ih hhigh (by omega) hold' hb
          exact ⟨e, he, by linarith, hhi, hup, e', by linarith, hrest⟩
      · obtain rfl : b = a + 1 := by omega
        push_cast at hab' hb ⊢
        rw [if_neg (by linarith)]
        exact ⟨_, rfl, by linarith, le_rfl, hb, 1000 * (a : ℚ), le_rfl, by linarith, by linarith, ha⟩

/-- **A search that does not end**: the later end is no whole second, and only there is the visibility
new. The middle is a whole second before it, and stays one. -/
theorem edge_stuck {h : ℤ} {hi : ℚ} (hbelow : 1000 * (h : ℚ) < hi) (habove : hi < 1000 * (h + 1))
    (hold : ∀ ms < hi, up' ms ≠ some rising) (fuel : Nat) :
    ∀ {lo : ℚ}, lo ≤ 1000 * (h - 1) → edge up' rising fuel lo hi = none := by
  induction fuel with
  | zero => intro lo _; rfl
  | succ fuel ih =>
      intro lo hlo
      have hfloor : ⌊(lo + hi) / 2000⌋ < h := by
        rw [Int.floor_lt]
        linarith
      have hle : ((⌊(lo + hi) / 2000⌋ : ℤ) : ℚ) ≤ h - 1 := by
        have hle : ⌊(lo + hi) / 2000⌋ ≤ h - 1 := by omega
        exact_mod_cast hle
      rw [edge, if_pos (by linarith)]
      dsimp only
      rw [if_neg (hold _ (by linarith))]
      exact ih (by linarith)

/-! ## The loop -/

variable {O : Orbits} {q : Query} {t : Tle} {s : Station}

theorem up_isSome (htotal : O.Total) (ms : ℚ) : (up O q t s ms).isSome = true := by
  rw [up, Option.isSome_map]
  exact htotal t s ms

theorem time_zero : q.time 0 = q.startMs := by
  rw [Query.time, Nat.cast_zero, zero_mul, add_zero]

theorem time_succ (i : Nat) : q.time (i + 1) = q.time i + q.stepS * 1000 := by
  rw [Query.time, Query.time]
  push_cast
  ring

theorem time_lt (i : Nat) : q.time i < q.time (i + 1) := by
  have hpos : (0 : ℚ) < q.stepS := Nat.cast_pos.mpr q.stepS_pos
  rw [time_succ]
  linarith

/-- The edge between two samples, with fuel for every second of a step. -/
theorem edge_sampled (htotal : O.Total) (hgood : q.OnSecond ∨ q.stepS = 1) {i : Nat}
    (hold : up O q t s (q.time i) = some (!rising))
    (hnew : up O q t s (q.time (i + 1)) = some rising) :
    ∃ e, edge (up O q t s) rising q.stepS (q.time i) (q.time (i + 1)) = some e ∧ q.time i < e ∧
      e ≤ q.time (i + 1) ∧ up O q t s e = some rising ∧
        ∃ e', q.time i ≤ e' ∧ e' < e ∧ e ≤ e' + 1000 ∧ up O q t s e' = some (!rising) := by
  rcases hgood with ⟨z, hz⟩ | hone
  · have hsecond : ∀ i : Nat, q.time i = 1000 * ((z + i * q.stepS : ℤ) : ℚ) := by
      intro i
      rw [Query.time, hz]
      push_cast
      ring
    rw [hsecond] at hold hnew
    rw [hsecond i, hsecond (i + 1)]
    have hstep : z + (i + 1 : Nat) * (q.stepS : ℤ) - (z + i * q.stepS) = q.stepS := by
      push_cast
      ring
    have hpos : (0 : ℤ) < q.stepS := Int.natCast_pos.mpr q.stepS_pos
    exact edge_found (up_isSome htotal) (by omega) hstep.le hold hnew
  · have hsucc : q.time (i + 1) = q.time i + 1000 := by
      rw [time_succ, hone, Nat.cast_one, one_mul]
    refine ⟨q.time (i + 1), ?_, time_lt i, le_rfl, hnew, q.time i, le_rfl, time_lt i, hsucc.le, hold⟩
    rw [hone]
    exact edge_short hsucc.le 0

/-- The variables after `n` turns. -/
structure Watching (O : Orbits) (q : Query) (t : Tle) (s : Station) (w : Watch) (n : Nat) : Prop where
  prevMs : w.prevMs = q.time n
  prevUp : w.prevUp = up O q t s (q.time n)
  aos : w.aos.isSome = true ↔ up O q t s (q.time n) = some true
  opened : ∀ a, w.aos = some a → a ≤ q.time n ∧ ∀ p ∈ w.passes, p.losMs < a
  inTurn : InTurn w.passes
  before : ∀ p ∈ w.passes, p.losMs ≤ q.time n

theorem watching_start : Watching O q t s (Watch.start O q t s) 0 := by
  refine ⟨time_zero.symm, by rw [time_zero]; rfl, ?_, ?_, ⟨?_, List.Pairwise.nil⟩, ?_⟩
  · rw [time_zero]
    dsimp only [Watch.start]
    split <;> simp_all
  · intro a ha
    dsimp only [Watch.start] at ha
    split at ha
    · cases ha
      exact ⟨time_zero.ge, fun p hp => (List.not_mem_nil hp).elim⟩
    · cases ha
  · exact fun p hp => (List.not_mem_nil hp).elim
  · exact fun p hp => (List.not_mem_nil hp).elim

/-- A pass is pushed behind those that ended before it began. -/
theorem inTurn_push {w : Watch} {a los : ℚ} (haos : w.aos = some a) (hinTurn : InTurn w.passes)
    (hbefore : ∀ p ∈ w.passes, p.losMs < a) :
    InTurn (w.push O t s los).passes ∧
      ∀ p ∈ (w.push O t s los).passes, p ∈ w.passes ∨ p.losMs = los := by
  unfold Watch.push
  rw [haos, Option.getD_some]
  dsimp only
  split
  · exact ⟨hinTurn, fun p hp => .inl hp⟩
  · next hlong =>
    have hpass : (pass O t s a los).aosMs < (pass O t s a los).losMs := by
      show a < los
      linarith
    refine ⟨⟨?_, ?_⟩, ?_⟩
    · intro p hp
      rcases List.mem_append.mp hp with hp | hp
      · exact hinTurn.1 p hp
      · rw [List.mem_singleton.mp hp]
        exact hpass
    · rw [List.pairwise_append]
      refine ⟨hinTurn.2, List.pairwise_singleton _ _, fun p hp p' hp' => ?_⟩
      rw [List.mem_singleton.mp hp']
      exact hbefore p hp
    · intro p hp
      rcases List.mem_append.mp hp with hp | hp
      · exact .inl hp
      · rw [List.mem_singleton.mp hp]
        exact .inr rfl

/-- One turn of the loop. -/
theorem Watching.sample (htotal : O.Total) (hgood : q.OnSecond ∨ q.stepS = 1) {w : Watch} {n : Nat}
    (h : Watching O q t s w n) :
    ∃ w', w.sample O q t s q.stepS (q.time (n + 1)) = some w' ∧ Watching O q t s w' (n + 1) := by
  obtain ⟨before, hbefore⟩ := Option.isSome_iff_exists.mp (up_isSome (q := q) (s := s) (t := t) htotal (q.time n))
  obtain ⟨now, hnow⟩ := Option.isSome_iff_exists.mp
    (up_isSome (q := q) (s := s) (t := t) htotal (q.time (n + 1)))
  have hlt := time_lt (q := q) n
  unfold Watch.sample
  dsimp only
  rw [h.prevUp, h.prevMs, hnow, hbefore]
  cases before with
  | false =>
      have hnone : w.aos = none := by
        have haos := h.aos
        rw [hbefore] at haos
        exact Option.not_isSome_iff_eq_none.mp fun hsome => by cases haos.mp hsome
      cases now with
      | true =>
          obtain ⟨e, he, hlo, hhi, -⟩ := edge_sampled htotal hgood
            (show up O q t s (q.time n) = some (!true) from hbefore) hnow
          rw [if_pos (by decide), he]
          refine ⟨_, rfl, rfl, hnow.symm, ?_, ?_, h.inTurn, fun p hp => (h.before p hp).trans hlt.le⟩
          · exact iff_of_true rfl hnow
          · intro a ha
            cases ha
            exact ⟨hhi, fun p hp => (h.before p hp).trans_lt hlo⟩
      | false =>
          rw [if_neg (by decide), if_neg (by decide)]
          refine ⟨_, rfl, rfl, hnow.symm, ?_, ?_, h.inTurn, fun p hp => (h.before p hp).trans hlt.le⟩
          · dsimp only
            rw [hnone, hnow]
            decide
          · intro a ha
            cases hnone.symm.trans ha
  | true =>
      obtain ⟨a, ha⟩ := Option.isSome_iff_exists.mp (h.aos.mpr hbefore)
      obtain ⟨hle, hpasses⟩ := h.opened a ha
      cases now with
      | true =>
          rw [if_neg (by decide), if_neg (by decide)]
          refine ⟨_, rfl, rfl, hnow.symm, ?_, ?_, h.inTurn, fun p hp => (h.before p hp).trans hlt.le⟩
          · exact iff_of_true (by rw [ha]; rfl) hnow
          · intro a' ha'
            obtain ⟨hle, hpasses⟩ := h.opened a' ha'
            exact ⟨hle.trans hlt.le, hpasses⟩
      | false =>
          obtain ⟨e, he, hlo, hhi, -⟩ := edge_sampled htotal hgood
            (show up O q t s (q.time n) = some (!false) from hbefore) hnow
          obtain ⟨hinTurn, hnew⟩ := @inTurn_push O t s _ _ e ha h.inTurn hpasses
          rw [if_neg (by decide), if_pos (by decide), he]
          refine ⟨_, rfl, rfl, hnow.symm, ?_, ?_, hinTurn, fun p hp => ?_⟩
          · dsimp only
            rw [hnow]
            decide
          · intro a' ha'
            cases ha'
          · rcases hnew p hp with hp | hp
            · exact (h.before p hp).trans hlt.le
            · exact hp.trans_le hhi

/-- The loop, turn by turn. -/
theorem watching_run (htotal : O.Total) {n : Nat} (hgood : n = 0 ∨ q.OnSecond ∨ q.stepS = 1) :
    ∃ w, ((List.range n).map fun i => q.time (i + 1)).foldlM
        (Watch.sample O q t s q.stepS) (Watch.start O q t s) = some w ∧ Watching O q t s w n := by
  induction n with
  | zero => exact ⟨_, rfl, watching_start⟩
  | succ n ih =>
      have hgood' : q.OnSecond ∨ q.stepS = 1 := hgood.resolve_left (Nat.succ_ne_zero n)
      obtain ⟨w, hw, hwatching⟩ := ih (.inr hgood')
      obtain ⟨w', hw', hwatching'⟩ := hwatching.sample htotal hgood'
      refine ⟨w', ?_, hwatching'⟩
      rw [List.range_succ, List.map_append, List.foldlM_append, hw]
      show List.foldlM (Watch.sample O q t s q.stepS) w [q.time (n + 1)] = some w'
      rw [List.foldlM_cons, hw']
      rfl

/-- No sample is taken of a window that is shorter than a step. -/
theorem samples_eq_zero_iff : q.samples = 0 ↔ q.hours * 3600 < q.stepS := by
  have hpos : (0 : ℚ) < q.stepS := Nat.cast_pos.mpr q.stepS_pos
  have hstep : (0 : ℚ) < q.stepS * 1000 := by linarith
  rw [Query.samples, Int.toNat_eq_zero, ← not_lt, Int.floor_pos, not_le, div_lt_one hstep]
  constructor <;> intro h <;> linarith

theorem overpasses_inTurn (htotal : O.Total) (hgood : q.samples = 0 ∨ q.OnSecond ∨ q.stepS = 1) :
    ∃ ps, overpasses O q t s q.stepS = some ps ∧ InTurn ps := by
  obtain ⟨w, hw, hwatching⟩ := watching_run (t := t) (s := s) htotal hgood
  unfold overpasses
  rw [hw]
  refine ⟨_, rfl, ?_⟩
  split
  · next hsome =>
    obtain ⟨a, ha⟩ := Option.isSome_iff_exists.mp hsome
    exact (inTurn_push ha hwatching.inTurn (hwatching.opened a ha).2).1
  · exact hwatching.inTurn

/-- Passes one after the other are in the order of their starts. -/
theorem InTurn.sorted {ps : List Pass} (h : InTurn ps) :
    ps.Pairwise fun a b => decide (a.aosMs ≤ b.aosMs) = true :=
  h.2.imp_of_mem fun ha _ hab => decide_eq_true ((h.1 _ ha).trans hab).le

theorem mapM_some {α β : Type} {f : α → Option β} {xs : List α} (h : ∀ x ∈ xs, ∃ y, f x = some y) :
    ∃ ys, xs.mapM f = some ys ∧ ∀ x ∈ xs, ∀ y, f x = some y → y ∈ ys := by
  induction xs with
  | nil => exact ⟨[], rfl, fun x hx => (List.not_mem_nil hx).elim⟩
  | cons x xs ih =>
      rw [List.forall_mem_cons] at h
      obtain ⟨y, hy⟩ := h.1
      obtain ⟨ys, hys, hmem⟩ := ih h.2
      refine ⟨y :: ys, by rw [List.mapM_cons, hy, hys]; rfl, fun x' hx' y' hy' => ?_⟩
      rcases List.mem_cons.mp hx' with rfl | hx'
      · rw [hy] at hy'
        cases hy'
        exact List.mem_cons_self
      · exact List.mem_cons_of_mem _ (hmem x' hx' y' hy')

/-- The search from a whole second or with steps of one second, or without a sample. -/
theorem passesFound_of_good (hsome : q.tles ≠ [] ∧ q.stations ≠ [])
    (hhours : 0 < q.hours ∧ q.hours ≤ 168) (htotal : O.Total)
    (hgood : q.samples = 0 ∨ q.OnSecond ∨ q.stepS = 1) : PassesFound O q := by
  refine ⟨fun t _ s _ i hi rising hold hnew => ?_, ?_⟩
  · have hnonzero : q.samples ≠ 0 := by omega
    obtain ⟨e, he, hrest⟩ := edge_sampled htotal (hgood.resolve_left hnonzero) hold hnew
    exact ⟨q.stepS, e, he, hrest⟩
  · have hpairs : ∀ p ∈ q.tles.flatMap fun t => q.stations.map fun s => (t, s),
        ∃ ps, overpasses O q p.1 p.2 q.stepS = some ps := fun p _ =>
      (overpasses_inTurn htotal hgood).imp fun _ h => h.1
    obtain ⟨lists, hlists, hmem⟩ := mapM_some hpairs
    refine ⟨q.stepS, lists.flatten.mergeSort fun a b => decide (a.aosMs ≤ b.aosMs), ?_, ?_⟩
    · unfold computePasses
      rw [if_neg (by simpa using hsome), if_neg (not_not_intro hhours), hlists]
      rfl
    · intro t ht s hs
      obtain ⟨ps, hps, hinTurn⟩ := overpasses_inTurn (t := t) (s := s) htotal hgood
      have hpair : (t, s) ∈ q.tles.flatMap fun t => q.stations.map fun s => (t, s) :=
        List.mem_flatMap.mpr ⟨t, ht, List.mem_map.mpr ⟨s, hs, rfl⟩⟩
      refine ⟨ps, hps, ?_, hinTurn⟩
      refine List.sublist_mergeSort ?_ ?_ hinTurn.sorted
        (List.sublist_flatten_of_mem (hmem (t, s) hpair ps hps))
      · intro a b c hab hbc
        exact decide_eq_true ((of_decide_eq_true hab).trans (of_decide_eq_true hbc))
      · intro a b
        simpa using le_total a.aosMs b.aosMs

/-! ## A start between two seconds -/

/-- A satellite that rises at a sample. -/
def risesAt (mask rise : ℚ) : Orbits where
  look _ _ ms := some { elevDeg := if rise ≤ ms then mask else mask - 1, rangeKm := 0 }

theorem up_risesAt (rise ms : ℚ) :
    up (risesAt q.elevationMaskDeg rise) q t s ms = some (decide (rise ≤ ms)) := by
  by_cases h : rise ≤ ms
  · simp [up, risesAt, h]
  · simp [up, risesAt, h]

/-- The first edge of a satellite that rises at the first sample is not found. -/
theorem edge_lost (hstart : ¬ q.OnSecond) (hstep : q.stepS ≠ 1) (fuel : Nat) :
    edge (up (risesAt q.elevationMaskDeg (q.time 1)) q t s) true fuel (q.time 0) (q.time 1) = none := by
  have hlong : (2 : ℚ) ≤ q.stepS := by
    have hpos := q.stepS_pos
    have htwo : 2 ≤ q.stepS := by omega
    exact_mod_cast htwo
  have htime : q.time 1 = q.time 0 + q.stepS * 1000 := time_succ 0
  have hfloor := Int.floor_le (q.time 1 / 1000)
  have hnext := Int.lt_floor_add_one (q.time 1 / 1000)
  have hbetween : 1000 * ((⌊q.time 1 / 1000⌋ : ℤ) : ℚ) ≠ q.time 1 := by
    intro heq
    refine hstart ⟨⌊q.time 1 / 1000⌋ - q.stepS, ?_⟩
    rw [time_zero] at htime
    push_cast
    linarith
  have hbelow : 1000 * ((⌊q.time 1 / 1000⌋ : ℤ) : ℚ) < q.time 1 :=
    lt_of_le_of_ne (by linarith) hbetween
  refine edge_stuck (h := ⌊q.time 1 / 1000⌋) hbelow (by linarith) (fun ms hms => ?_) fuel (by linarith)
  rw [up_risesAt, decide_eq_false (not_le.mpr hms)]
  decide

/-- **Where the search can be trusted**: from a whole second, with steps of one second, or where there is
nothing to search. -/
theorem passes_found_iff (q : Query) (hsome : q.tles ≠ [] ∧ q.stations ≠ [])
    (hhours : 0 < q.hours ∧ q.hours ≤ 168) :
    (∀ O : Orbits, O.Total → PassesFound O q) ↔
      q.OnSecond ∨ q.stepS = 1 ∨ q.hours * 3600 < q.stepS := by
  constructor
  · intro h
    by_contra hbad
    rw [not_or, not_or, ← samples_eq_zero_iff] at hbad
    obtain ⟨hstart, hstep, hsamples⟩ := hbad
    obtain ⟨t, ht⟩ := List.exists_mem_of_ne_nil _ hsome.1
    obtain ⟨s, hs⟩ := List.exists_mem_of_ne_nil _ hsome.2
    obtain ⟨fuel, e, he, -⟩ :=
      (h (risesAt q.elevationMaskDeg (q.time 1)) (fun _ _ _ => rfl)).edges t ht s hs 0
        (Nat.pos_of_ne_zero hsamples) true
        (by rw [up_risesAt, decide_eq_false (not_le.mpr (time_lt 0))]; rfl)
        (by rw [up_risesAt, decide_eq_true le_rfl])
    rw [edge_lost hstart hstep fuel] at he
    cases he
  · intro hgood O htotal
    refine passesFound_of_good hsome hhours htotal ?_
    rw [← samples_eq_zero_iff, ← or_assoc, or_comm] at hgood
    exact hgood

def sampleTle : Tle := { name := js "ISS", line1 := js "1 25544", line2 := js "2 25544" }

def sampleStation : Station := { name := js "Svalbard", lat := 78, lon := 15, altKm := none }

/-- An hour of one satellite over one station. -/
def hourFrom (startMs : ℚ) : Query where
  tles := [sampleTle]
  stations := [sampleStation]
  startMs := startMs
  hours := 1
  stepS_pos := by decide

theorem passes_found_sample :
    (∀ O : Orbits, O.Total → PassesFound O (hourFrom 0)) ↔
      (hourFrom 0).OnSecond ∨ (hourFrom 0).stepS = 1 ∨ (hourFrom 0).hours * 3600 < (hourFrom 0).stepS :=
  passes_found_iff (hourFrom 0) (by decide) (by decide +kernel)

/-- An hour from half a second past a second, and a satellite that rises at the first sample. -/
theorem computePasses_hourFrom_half (fuel : Nat) :
    computePasses (risesAt 10 30500) (hourFrom 500) fuel = .ok none := by
  have hfirst : (hourFrom 500).time 1 = 30500 := by decide +kernel
  have hstart : ¬ (hourFrom 500).OnSecond := by
    rintro ⟨z, hz⟩
    have hz' : (500 : ℚ) = ((1000 * z : ℤ) : ℚ) := by
      push_cast
      exact hz
    have hz'' : (500 : ℤ) = 1000 * z := by exact_mod_cast hz'
    omega
  have hedge : edge (up (risesAt 10 30500) (hourFrom 500) sampleTle sampleStation) true fuel
      (hourFrom 500).startMs 30500 = none := by
    have hlost := edge_lost (t := sampleTle) (s := sampleStation) hstart (by decide) fuel
    rw [hfirst, time_zero] at hlost
    exact hlost
  have hsample : (Watch.start (risesAt 10 30500) (hourFrom 500) sampleTle sampleStation).sample
      (risesAt 10 30500) (hourFrom 500) sampleTle sampleStation fuel 30500 = none := by
    unfold Watch.sample
    dsimp only
    rw [if_pos (by decide +kernel), show Watch.prevMs _ = (hourFrom 500).startMs from rfl, hedge]
    rfl
  have hrange : List.range (hourFrom 500).samples = 0 :: (List.range 119).map Nat.succ := by
    decide +kernel
  have hover : overpasses (risesAt 10 30500) (hourFrom 500) sampleTle sampleStation fuel = none := by
    unfold overpasses
    rw [hrange, List.map_cons, List.foldlM_cons, hfirst, hsample]
    rfl
  have hpairs : ((hourFrom 500).tles.flatMap fun t => (hourFrom 500).stations.map fun s => (t, s)) =
      [(sampleTle, sampleStation)] := rfl
  unfold computePasses
  rw [if_neg (by decide), if_neg (by decide +kernel), hpairs, List.mapM_cons, hover]
  rfl

/-- **The search does not end** there: no fuel brings it to an answer. -/
theorem late_start_stuck :
    ¬ ∃ fuel, computePasses (risesAt 10 30500) (hourFrom 500) fuel ≠ .ok none := by
  rintro ⟨fuel, hanswer⟩
  exact hanswer (computePasses_hourFrom_half fuel)

end DtnCustody.ContactPlans
