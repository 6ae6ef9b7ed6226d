/-
# DtnCustody.Base.Earliest — earliest arrivals in a network that changes with time.

A link takes what is at its start at some time to its end at a later one, or not at all. Where who sets out
later never gets there sooner (`Fifo`), it is enough to keep one time for each place, the earliest at which it is
known to be reached, and to go on from the places in the order of these times.

`Frontier` is what such a search keeps. The places it has gone on from are not later than the others, and no
journey leads out of them to a time that is not on record. So the first place it has not gone on from is reached
no sooner by any journey (`Frontier.le_journey`), and where there is none left, no journey leads anywhere else
(`Frontier.done_of_journey`).
-/
import Mathlib.Order.SetNotation
import Mathlib.Order.Lattice
import Mathlib.Data.Set.Insert

namespace DtnCustody.Base

/-- Places of type `V`, joined by links of type `E`. -/
structure TimedNet (V E T : Type) where
  links : Set E
  src : E → V
  dst : E → V
  /-- When what is at the start at some time is at the end. -/
  cross : E → T → Option T

namespace TimedNet

variable {V E T : Type}

/-- What set out from `s` at `t₀` can be at a place at a time. -/
inductive Journey (G : TimedNet V E T) (s : V) (t₀ : T) : V → T → Prop
  | here : Journey G s t₀ s t₀
  | hop {e : E} {t a : T} : Journey G s t₀ (G.src e) t → e ∈ G.links → G.cross e t = some a →
      Journey G s t₀ (G.dst e) a

variable [LinearOrder T]

/-- Who sets out later does not overtake, and nobody arrives before setting out. -/
structure Fifo (G : TimedNet V E T) : Prop where
  keeps : ∀ e ∈ G.links, ∀ t t' a', t ≤ t' → G.cross e t' = some a' → ∃ a, G.cross e t = some a ∧ a ≤ a'
  forward : ∀ e ∈ G.links, ∀ t a, G.cross e t = some a → t ≤ a

theorem Fifo.le_of_journey {G : TimedNet V E T} (hG : G.Fifo) {s v : V} {t₀ t : T}
    (h : G.Journey s t₀ v t) : t₀ ≤ t := by
  induction h with
  | here => exact le_rfl
  | hop _ he hcross ih => exact ih.trans (hG.forward _ he _ _ hcross)

/-- What a search knows: the earliest arrival on record for each place, and the places it has gone on from. -/
structure Frontier (G : TimedNet V E T) (s : V) (t₀ : T) (arr : V → Option T) (done : Set V) : Prop where
  start : arr s = some t₀
  reached : ∀ v a, arr v = some a → G.Journey s t₀ v a
  known : ∀ u ∈ done, ∃ a, arr u = some a
  order : ∀ u ∈ done, ∀ v ∉ done, ∀ a b, arr u = some a → arr v = some b → a ≤ b
  scanned : ∀ e ∈ G.links, G.src e ∈ done → ∀ a b, arr (G.src e) = some a → G.cross e a = some b →
    ∃ c, arr (G.dst e) = some c ∧ c ≤ b

theorem frontier_start (G : TimedNet V E T) (s : V) (t₀ : T) {arr : V → Option T} (hs : arr s = some t₀)
    (hnone : ∀ v, v ≠ s → arr v = none) : G.Frontier s t₀ arr ∅ where
  start := hs
  reached v a h := by
    by_cases hv : v = s
    · subst hv
      rw [hs] at h
      cases h
      exact .here
    · rw [hnone v hv] at h
      cases h
  known := fun _ h => h.elim
  order := fun _ h => h.elim
  scanned := fun _ _ h => h.elim

variable {G : TimedNet V E T} {s : V} {t₀ : T} {arr arr' : V → Option T} {done : Set V}

/-- A journey ends where the search has gone on from, not sooner than on record, or has been where it has not. -/
theorem Frontier.journey_cases (h : G.Frontier s t₀ arr done) (hG : G.Fifo) {P : T → Prop}
    (hup : ∀ a b, a ≤ b → P a → P b) (hout : ∀ v ∉ done, ∀ b, arr v = some b → P b) {v : V} {t : T}
    (hj : G.Journey s t₀ v t) : (v ∈ done ∧ ∃ a, arr v = some a ∧ a ≤ t) ∨ P t := by
  have hlabel : ∀ {v : V} {a t : T}, arr v = some a → a ≤ t →
      (v ∈ done ∧ ∃ a, arr v = some a ∧ a ≤ t) ∨ P t := by
    intro v a t ha hle
    by_cases hv : v ∈ done
    · exact .inl ⟨hv, a, ha, hle⟩
    · exact .inr (hup a t hle (hout v hv a ha))
  induction hj with
  | here => exact hlabel h.start le_rfl
  | @hop e t a' _ he hcross ih =>
      rcases ih with ⟨hsrc, a, ha, hle⟩ | hP
      · -- the place before is on record, and from there the link leads no later
        obtain ⟨b, hb, hble⟩ := hG.keeps e he a t a' hle hcross
        obtain ⟨c, hc, hcle⟩ := h.scanned e he hsrc a b ha hb
        exact hlabel hc (hcle.trans hble)
      · exact .inr (hup t a' (hG.forward e he t a' hcross) hP)

/-- **The first place not gone on from is reached no sooner by any journey.** -/
theorem Frontier.le_journey (h : G.Frontier s t₀ arr done) (hG : G.Fifo) {u : V} {best : T} (hu : u ∉ done)
    (hmin : ∀ v ∉ done, ∀ b, arr v = some b → best ≤ b) {t : T} (hj : G.Journey s t₀ u t) : best ≤ t := by
  rcases h.journey_cases hG (P := (best ≤ ·)) (fun _ _ hab ha => ha.trans hab) hmin hj with ⟨hdone, _⟩ | hle
  · exact absurd hdone hu
  · exact hle

/-- Where no place on record is left to go on from, there is no journey to any other. -/
theorem Frontier.done_of_journey (h : G.Frontier s t₀ arr done) (hG : G.Fifo)
    (hout : ∀ v ∉ done, arr v = none) {v : V} {t : T} (hj : G.Journey s t₀ v t) : v ∈ done := by
  have hnone : ∀ v ∉ done, ∀ b, arr v = some b → False := by
    intro v hv b hb
    rw [hout v hv] at hb
    cases hb
  exact (h.journey_cases hG (fun _ _ _ => id) hnone hj).elim And.left False.elim

/-- What going on from `u`, where one can be at `best`, makes of the record. -/
structure Relaxed (G : TimedNet V E T) (u : V) (best : T) (done : Set V) (arr arr' : V → Option T) : Prop where
  keeps : ∀ v ∈ done, arr' v = arr v
  lowers : ∀ v a, arr v = some a → ∃ a', arr' v = some a' ∧ a' ≤ a
  from_link : ∀ v a, arr' v = some a → arr v = some a ∨
    ∃ e ∈ G.links, G.src e = u ∧ G.dst e = v ∧ G.cross e best = some a
  scans : ∀ e ∈ G.links, G.src e = u → G.dst e ∉ done → ∀ b, G.cross e best = some b →
    ∃ c, arr' (G.dst e) = some c ∧ c ≤ b

/-- **Going on from the first place keeps the frontier.** -/
theorem Frontier.settle (h : G.Frontier s t₀ arr done) (hG : G.Fifo) {u : V} {best : T} (hu : u ∉ done)
    (hbest : arr u = some best) (hmin : ∀ v ∉ done, ∀ b, arr v = some b → best ≤ b)
    (hr : G.Relaxed u best (insert u done) arr arr') : G.Frontier s t₀ arr' (insert u done) := by
  have hreached : ∀ v a, arr' v = some a → G.Journey s t₀ v a := by
    intro v a ha
    rcases hr.from_link v a ha with hold | ⟨e, he, rfl, rfl, hcross⟩
    · exact h.reached v a hold
    · exact .hop (h.reached _ _ hbest) he hcross
  -- whatever is done is on record with a time up to `best`
  have hdone : ∀ v ∈ insert u done, ∃ a, arr' v = some a ∧ a ≤ best := by
    intro v hv
    rw [hr.keeps v hv]
    rcases hv with rfl | hv
    · exact ⟨best, hbest, le_rfl⟩
    · obtain ⟨a, ha⟩ := h.known v hv
      exact ⟨a, ha, h.order v hv u hu a best ha hbest⟩
  refine ⟨?_, hreached, fun v hv => (hdone v hv).imp fun _ => And.left, ?_, ?_⟩
  · obtain ⟨a, ha, hle⟩ := hr.lowers s t₀ h.start
    rw [ha, le_antisymm hle (hG.le_of_journey (hreached s a ha))]
  · intro v hv w hw a b ha hb
    obtain ⟨a', ha', hle⟩ := hdone v hv
    rw [ha] at ha'
    cases ha'
    refine hle.trans ?_
    rcases hr.from_link w b hb with hold | ⟨e, he, -, -, hcross⟩
    · exact hmin w (fun hw' => hw (Set.mem_insert_of_mem u hw')) b hold
    · exact hG.forward e he best b hcross
  · intro e he hsrc a b ha hb
    rw [hr.keeps _ hsrc] at ha
    rcases hsrc with hsrc | hsrc
    · rw [hsrc, hbest] at ha
      cases ha
      by_cases hdst : G.dst e ∈ insert u done
      · obtain ⟨c, hc, hle⟩ := hdone _ hdst
        exact ⟨c, hc, hle.trans (hG.forward e he best b hb)⟩
      · exact hr.scans e he hsrc hdst b hb
    · obtain ⟨c, hc, hle⟩ := h.scanned e he hsrc a b ha hb
      obtain ⟨c', hc', hle'⟩ := hr.lowers _ c hc
      exact ⟨c', hc', hle'.trans hle⟩

end TimedNet

end DtnCustody.Base
