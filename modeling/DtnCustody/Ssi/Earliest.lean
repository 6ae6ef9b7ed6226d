/-
# DtnCustody.Ssi.Earliest — `route` finds the earliest arrival.

Over the contacts of a plan a bundle travels hop by hop (`travel`): from where it is, at the time it is there, a
contact takes it on if the whole of it can be sent before the contact ends. As rates are positive and light takes
time, waiting never helps, so the contacts are a first-in-first-out network (`planNet_fifo`) and the search of
`route` is one for the earliest arrival there. What it returns is a way for the bundle that none arrives before,
and it returns nothing exactly where there is no way (`route_earliest`).
-/
import DtnCustody.Base.Earliest
import DtnCustody.Ssi.OnPlan

namespace DtnCustody.Network

open Base Js

variable (H : NetHost) (Q : Query)

/-! ## Ways through the plan -/

/-- When a bundle that can leave on a contact from `t` on has arrived. -/
def crossing (c : Contact) (t : Int) : Option Int :=
  if c.endAt ≤ t then none
  else
    let depart := departFrom Q c.fromEid t c
    if fits H Q.bytes c depart then some (depart + txMs H Q.bytes c + c.owltMs) else none

/-- Where and when a bundle is after some hops, if it can make them. -/
def travel : String × Int → List Nat → Option (String × Int)
  | p, [] => some p
  | (v, t), i :: hops =>
      match Q.contacts[i]? with
      | none => none
      | some c =>
          if c.fromEid = v ∧ c.toEid ∉ Q.exclude then
            (crossing H Q c t).bind fun a => travel (c.toEid, a) hops
          else none

/-- The hops take the bundle to the destination by the time `a`. -/
def Arrives (hops : List Nat) (a : Int) : Prop := travel H Q (Q.node, Q.t) hops = some (Q.dst, a)

/-- The contacts that may be used, as a network. -/
def planNet : TimedNet String Contact Int where
  links := {c | c ∈ Q.contacts ∧ c.toEid ∉ Q.exclude}
  src := Contact.fromEid
  dst := Contact.toEid
  cross := crossing H Q

/-- Rates are positive, and light does not travel backwards in time. -/
def Physical : Prop := ∀ c ∈ Q.contacts, 0 < c.rateBps ∧ 0 ≤ c.owltMs

variable {H Q}

theorem le_departFrom (u : String) (t : Int) (c : Contact) : t ≤ departFrom Q u t c := by
  unfold departFrom departure
  split <;> omega

theorem departFrom_mono (u : String) {t t' : Int} (h : t ≤ t') (c : Contact) :
    departFrom Q u t c ≤ departFrom Q u t' c := by
  unfold departFrom departure
  split <;> omega

theorem crossing_eq_some {c : Contact} {t a : Int} : crossing H Q c t = some a ↔
    t < c.endAt ∧ departFrom Q c.fromEid t c + txMs H Q.bytes c ≤ c.endAt ∧
      a = departFrom Q c.fromEid t c + txMs H Q.bytes c + c.owltMs := by
  unfold crossing fits
  by_cases hend : c.endAt ≤ t
  · simp [hend]
  · simp only [if_neg hend, decide_eq_true_eq, Option.ite_none_right_eq_some, Option.some.injEq]
    omega

theorem planNet_fifo (hdiv : Nonneg H) (hplan : Physical Q) : (planNet H Q).Fifo where
  keeps c hc t t' a' hle hcross := by
    obtain ⟨hend, hfits, rfl⟩ := crossing_eq_some.mp hcross
    have hdep := departFrom_mono (Q := Q) c.fromEid hle c
    exact ⟨_, crossing_eq_some.mpr ⟨by omega, by omega, rfl⟩, by omega⟩
  forward c hc t a hcross := by
    obtain ⟨-, -, rfl⟩ := crossing_eq_some.mp hcross
    obtain ⟨hrate, howlt⟩ := hplan c hc.1
    have htx := txMs_nonneg hdiv hrate Q.bytes
    have hdep := le_departFrom (Q := Q) c.fromEid t c
    omega

/-- Hops that can be made are a journey. -/
theorem journey_of_travel {s : String} {t₀ : Int} : ∀ {hops : List Nat} {v w : String} {t a : Int},
    (planNet H Q).Journey s t₀ v t → travel H Q (v, t) hops = some (w, a) →
      (planNet H Q).Journey s t₀ w a := by
  intro hops
  induction hops with
  | nil =>
      intro v w t a hj h
      cases h
      exact hj
  | cons i hops ih =>
      intro v w t a hj h
      rw [travel] at h
      cases hi : Q.contacts[i]? with
      | none =>
          rw [hi] at h
          cases h
      | some c =>
          rw [hi] at h
          dsimp only at h
          split at h
          · rename_i hc
            obtain ⟨b, hb, h⟩ := Option.bind_eq_some_iff.mp h
            obtain ⟨rfl, hto⟩ := hc
            exact ih (.hop (e := c) hj ⟨List.mem_of_getElem? hi, hto⟩ hb) h
          · cases h

theorem travel_append (hops more : List Nat) : ∀ (p : String × Int),
    travel H Q p (hops ++ more) = (travel H Q p hops).bind fun q => travel H Q q more := by
  induction hops with
  | nil => exact fun p => rfl
  | cons i hops ih =>
      rintro ⟨v, t⟩
      rw [List.cons_append, travel, travel]
      cases Q.contacts[i]? with
      | none => rfl
      | some c =>
          dsimp only
          split
          · rw [Option.bind_assoc]
            exact congrArg _ (funext fun a => ih (c.toEid, a))
          · rfl

/-! ## The nearest node -/

/-- No node that is not settled is reached before the nearest, and there is one where there is a nearest. -/
theorem nearest_spec (arr : List (String × Int)) (done : List String) :
    (nearest arr done = none → ∀ q ∈ arr, q.1 ∈ done) ∧
      ∀ p, nearest arr done = some p → ∀ q ∈ arr, q.1 ∉ done → p.2 ≤ q.2 := by
  -- from the end of the list, as the fold that looks for the nearest goes
  induction arr using List.reverseRecOn with
  | nil => simp [nearest]
  | append_singleton arr q ih =>
      unfold nearest at ih ⊢
      rw [List.foldl_append, List.foldl_cons, List.foldl_nil]
      by_cases hq : q.1 ∈ done
      · rw [if_pos hq]
        refine ⟨fun h x hx => ?_, fun p h x hx hnew => ?_⟩
        · rcases List.mem_append.mp hx with hx | hx
          · exact ih.1 h x hx
          · exact List.mem_singleton.mp hx ▸ hq
        · rcases List.mem_append.mp hx with hx | hx
          · exact ih.2 p h x hx hnew
          · exact absurd (List.mem_singleton.mp hx ▸ hq) hnew
      · rw [if_neg hq]
        cases hbest : List.foldl _ _ arr with
        | none =>
            refine ⟨fun h => (by cases h), fun p h x hx hnew => ?_⟩
            cases h
            rcases List.mem_append.mp hx with hx | hx
            · exact absurd (ih.1 hbest x hx) hnew
            · rw [List.mem_singleton.mp hx]
        | some b =>
            have hb := ih.2 b hbest
            dsimp only
            refine ⟨fun h => ?_, fun p h x hx hnew => ?_⟩
            · split at h <;> cases h
            · have hle : p.2 ≤ b.2 ∧ p.2 ≤ q.2 := by
                split at h
                · cases h
                  omega
                · cases h
                  omega
              rcases List.mem_append.mp hx with hx | hx
              · exact hle.1.trans (hb x hx hnew)
              · rw [List.mem_singleton.mp hx]
                exact hle.2

/-! ## One turn of the search -/

/-- A contact that leaves `u`: nothing changes, or it takes the bundle to a new node or to a later one sooner. -/
theorem relax_eq {u : String} {best : Int} {s : Search} {p : Contact × Nat} (hfrom : p.1.fromEid = u) :
    relax H Q u best s p =
      if p.1.toEid ∈ s.done ∨ p.1.toEid ∈ Q.exclude then s
      else match crossing H Q p.1 best with
        | none => s
        | some a =>
            if (s.arr.get? p.1.toEid).all fun before => a < before then
              { s with arr := s.arr.set p.1.toEid a, via := s.via.set p.1.toEid p.2 }
            else s := by
  subst hfrom
  unfold relax crossing
  dsimp only
  by_cases hend : p.1.endAt ≤ best
  · simp [hend]
  · by_cases hskip : p.1.toEid ∈ s.done ∨ p.1.toEid ∈ Q.exclude
    · rw [if_pos (Or.inr hskip), if_pos hskip]
    · rw [if_neg (not_or.mpr ⟨hend, hskip⟩), if_neg hskip, if_neg hend]
      by_cases hfits : fits H Q.bytes p.1 (departFrom Q p.1.fromEid best p.1) = true
      · rw [if_pos hfits, if_pos hfits]
      · rw [if_neg hfits, if_neg hfits]

/-- How a node was reached, with the times: by a contact from a settled node, at the time that node was reached. -/
def Timed (H : NetHost) (Q : Query) (s : Search) : Prop :=
  ∀ n i, s.via.get? n = some i → ∃ c t a, Q.contacts[i]? = some c ∧ c.toEid = n ∧ n ∉ Q.exclude ∧
    c.fromEid ∈ s.done ∧ s.arr.get? c.fromEid = some t ∧ crossing H Q c t = some a ∧ s.arr.get? n = some a

/-- What going on over some of the contacts from `u` makes of a search. -/
structure Scanned (H : NetHost) (Q : Query) (u : String) (best : Int) (ps : List (Contact × Nat)) (s s' : Search) :
    Prop where
  done : s'.done = s.done
  timed : Timed H Q s'
  keeps : ∀ v ∈ s.done, s'.arr.get? v = s.arr.get? v
  lowers : ∀ v a, s.arr.get? v = some a → ∃ a', s'.arr.get? v = some a' ∧ a' ≤ a
  from_link : ∀ v a, s'.arr.get? v = some a → s.arr.get? v = some a ∨
    ∃ p ∈ ps, p.1.toEid = v ∧ v ∉ Q.exclude ∧ crossing H Q p.1 best = some a
  scans : ∀ p ∈ ps, p.1.toEid ∉ s.done → p.1.toEid ∉ Q.exclude → ∀ b, crossing H Q p.1 best = some b →
    ∃ c, s'.arr.get? p.1.toEid = some c ∧ c ≤ b

theorem scanned_relax {u : String} {best : Int} {s : Search} {p : Contact × Nat} (htimed : Timed H Q s)
    (hu : u ∈ s.done) (hbest : s.arr.get? u = some best) (hp : Q.contacts[p.2]? = some p.1)
    (hfrom : p.1.fromEid = u) : Scanned H Q u best [p] s (relax H Q u best s p) := by
  have hsame : (∀ b, p.1.toEid ∉ s.done → p.1.toEid ∉ Q.exclude → crossing H Q p.1 best = some b →
      ∃ c, s.arr.get? p.1.toEid = some c ∧ c ≤ b) → Scanned H Q u best [p] s s := fun hscan =>
    { done := rfl
      timed := htimed
      keeps := fun _ _ => rfl
      lowers := fun v a h => ⟨a, h, le_rfl⟩
      from_link := fun v a h => .inl h
      scans := fun q hq hdone hex b hb => by
        cases List.mem_singleton.mp hq
        exact hscan b hdone hex hb }
  rw [relax_eq hfrom]
  by_cases hskip : p.1.toEid ∈ s.done ∨ p.1.toEid ∈ Q.exclude
  · rw [if_pos hskip]
    exact hsame fun b hdone hex _ => (hskip.elim hdone hex).elim
  · rw [if_neg hskip]
    obtain ⟨hnew, hex⟩ := not_or.mp hskip
    cases hcross : crossing H Q p.1 best with
    | none =>
        refine hsame fun b _ _ hb => ?_
        rw [hcross] at hb
        cases hb
    | some a =>
        dsimp only
        by_cases hsooner : ((s.arr.get? p.1.toEid).all fun before => decide (a < before)) = true
        · rw [if_pos hsooner]
          -- only the node that the contact leads to changes, and it is not settled
          have hfar : ∀ v ∈ s.done, v ≠ p.1.toEid := fun v hv heq => hnew (heq ▸ hv)
          refine ⟨rfl, fun n i hi => ?_, fun v hv => JsMap.get?_set_ne _ (hfar v hv) _, fun v b hb => ?_,
            fun v b hb => ?_, fun q hq _ _ b hb => ?_⟩
          · by_cases hn : n = p.1.toEid
            · subst hn
              rw [JsMap.get?_set_self, Option.some.injEq] at hi
              refine ⟨p.1, best, a, hi ▸ hp, rfl, hex, hfrom ▸ hu, ?_, hcross, JsMap.get?_set_self _ _ _⟩
              rw [JsMap.get?_set_ne _ (hfar _ (hfrom ▸ hu)), hfrom, hbest]
            · rw [JsMap.get?_set_ne _ hn] at hi
              obtain ⟨c, t, b, hc, hto, hex', hdone, ht, hb, harr⟩ := htimed n i hi
              refine ⟨c, t, b, hc, hto, hex', hdone, ?_, hb, ?_⟩
              · rw [JsMap.get?_set_ne _ (hfar _ hdone), ht]
              · rw [JsMap.get?_set_ne _ hn, harr]
          · by_cases hv : v = p.1.toEid
            · subst hv
              rw [hb, Option.all_some, decide_eq_true_eq] at hsooner
              exact ⟨a, JsMap.get?_set_self _ _ _, hsooner.le⟩
            · exact ⟨b, by rw [JsMap.get?_set_ne _ hv, hb], le_rfl⟩
          · by_cases hv : v = p.1.toEid
            · subst hv
              rw [JsMap.get?_set_self, Option.some.injEq] at hb
              exact .inr ⟨p, List.mem_singleton.mpr rfl, rfl, hex, hb ▸ hcross⟩
            · rw [JsMap.get?_set_ne _ hv] at hb
              exact .inl hb
          · cases List.mem_singleton.mp hq
            rw [hcross, Option.some.injEq] at hb
            exact ⟨a, JsMap.get?_set_self _ _ _, hb.le⟩
        · rw [if_neg hsooner]
          refine hsame fun b _ _ hb => ?_
          rw [hcross, Option.some.injEq] at hb
          cases hget : s.arr.get? p.1.toEid with
          | none => exact absurd (by rw [hget]; rfl) hsooner
          | some before =>
              rw [hget, Option.all_some, decide_eq_true_eq] at hsooner
              exact ⟨before, rfl, by omega⟩

theorem scanned_relaxAll {u : String} {best : Int} {s : Search} (htimed : Timed H Q s) (hu : u ∈ s.done)
    (hbest : s.arr.get? u = some best) :
    Scanned H Q u best (Q.contacts.zipIdx.filter fun p => p.1.fromEid = u) s (relaxAll H Q u best s) := by
  have all : ∀ (ps : List (Contact × Nat)) (s : Search), Timed H Q s → u ∈ s.done → s.arr.get? u = some best →
      (∀ p ∈ ps, Q.contacts[p.2]? = some p.1 ∧ p.1.fromEid = u) →
        Scanned H Q u best ps s (ps.foldl (relax H Q u best) s) := by
    intro ps
    induction ps with
    | nil =>
        intro s htimed _ _ _
        exact ⟨rfl, htimed, fun _ _ => rfl, fun v a h => ⟨a, h, le_rfl⟩, fun v a h => .inl h, fun p hp => by cases hp⟩
    | cons p ps ih =>
        intro s htimed hu hbest hps
        rw [List.forall_mem_cons] at hps
        have hone := scanned_relax htimed hu hbest hps.1.1 hps.1.2
        have hrest := ih _ hone.timed (hone.done ▸ hu) ((hone.keeps u hu).trans hbest) hps.2
        rw [List.foldl_cons]
        refine ⟨hrest.done.trans hone.done, hrest.timed, fun v hv => ?_, fun v a ha => ?_, fun v a ha => ?_,
          fun q hq hdone hex b hb => ?_⟩
        · rw [hrest.keeps v (hone.done ▸ hv), hone.keeps v hv]
        · obtain ⟨b, hb, hle⟩ := hone.lowers v a ha
          obtain ⟨c, hc, hle'⟩ := hrest.lowers v b hb
          exact ⟨c, hc, hle'.trans hle⟩
        · rcases hrest.from_link v a ha with hmid | ⟨q, hq, hrest⟩
          · rcases hone.from_link v a hmid with hold | ⟨q, hq, hone⟩
            · exact .inl hold
            · exact .inr ⟨q, List.mem_cons.mpr (.inl (List.mem_singleton.mp hq)), hone⟩
          · exact .inr ⟨q, List.mem_cons_of_mem _ hq, hrest⟩
        · rcases List.mem_cons.mp hq with rfl | hq
          · obtain ⟨c, hc, hle⟩ := hone.scans q (List.mem_singleton.mpr rfl) hdone hex b hb
            obtain ⟨c', hc', hle'⟩ := hrest.lowers _ c hc
            exact ⟨c', hc', hle'.trans hle⟩
          · exact hrest.scans q hq (hone.done ▸ hdone) hex b hb
  refine all _ s htimed hu hbest fun p hp => ?_
  obtain ⟨hzip, hfrom⟩ := List.mem_filter.mp hp
  exact ⟨List.mem_zipIdx_iff_getElem?.mp hzip, of_decide_eq_true hfrom⟩

theorem Scanned.relaxed {u : String} {best : Int} {s s' : Search}
    (h : Scanned H Q u best (Q.contacts.zipIdx.filter fun p => p.1.fromEid = u) s s') :
    (planNet H Q).Relaxed u best {v | v ∈ s.done} s.arr.get? s'.arr.get? where
  keeps := h.keeps
  lowers := h.lowers
  from_link v a ha := by
    rcases h.from_link v a ha with hold | ⟨p, hp, hto, hex, hcross⟩
    · exact .inl hold
    · obtain ⟨hzip, hfrom⟩ := List.mem_filter.mp hp
      exact .inr ⟨p.1, ⟨List.mem_of_getElem? (List.mem_zipIdx_iff_getElem?.mp hzip), hto ▸ hex⟩,
        of_decide_eq_true hfrom, hto, hcross⟩
  scans c hc hfrom hdst b hb := by
    obtain ⟨i, hi⟩ := List.mem_iff_getElem?.mp hc.1
    exact h.scans (c, i) (List.mem_filter.mpr ⟨List.mem_zipIdx_iff_getElem?.mpr hi, decide_eq_true hfrom⟩) hdst hc.2
      b hb

/-! ## The whole search -/

/-- What the search keeps. -/
structure Searching (H : NetHost) (Q : Query) (s : Search) : Prop where
  sound : Sound H Q s
  timed : Timed H Q s
  frontier : (planNet H Q).Frontier Q.node Q.t s.arr.get? {v | v ∈ s.done}

theorem searching_start (H : NetHost) (Q : Query) : Searching H Q { arr := JsMap.ofList [(Q.node, Q.t)] } where
  sound := sound_start H Q
  timed n i hi := by
    rw [JsMap.get?_empty] at hi
    cases hi
  frontier := by
    have hset : {v : String | v ∈ ([] : List String)} = ∅ := Set.eq_empty_of_forall_notMem fun v hv => by cases hv
    rw [hset]
    refine TimedNet.frontier_start _ _ _ (sound_start H Q).start fun v hv => ?_
    cases hget : (JsMap.ofList [(Q.node, Q.t)]).get? v with
    | none => rfl
    | some a =>
        have harr : (JsMap.ofList [(Q.node, Q.t)]).entries = [(Q.node, Q.t)] :=
          JsMap.entries_ofList (List.nodup_singleton _)
        have hmem := JsMap.mem_entries_iff.mpr hget
        rw [harr, List.mem_singleton] at hmem
        exact absurd (congrArg Prod.fst hmem) hv

/-- The nearest node is the first of those not settled. -/
theorem nearest_first {s : Search} {u : String} {best : Int} (hu : nearest s.arr.entries s.done = some (u, best)) :
    s.arr.get? u = some best ∧ u ∉ s.done ∧ ∀ v ∉ s.done, ∀ b, s.arr.get? v = some b → best ≤ b := by
  obtain ⟨hmem, hnew⟩ := nearest_some hu
  exact ⟨JsMap.mem_entries_iff.mp hmem, hnew, fun v hv b hb =>
    (nearest_spec _ _).2 _ hu (v, b) (JsMap.mem_entries_iff.mpr hb) hv⟩

theorem Searching.turn {s : Search} {u : String} {best : Int} (h : Searching H Q s) (hG : (planNet H Q).Fifo)
    (hu : nearest s.arr.entries s.done = some (u, best)) :
    Searching H Q (relaxAll H Q u best { s with done := s.done ++ [u] }) := by
  obtain ⟨hget, hnew, hmin⟩ := nearest_first hu
  have htimed : Timed H Q { s with done := s.done ++ [u] } := by
    intro n i hi
    obtain ⟨c, t, a, hc, hto, hex, hdone, hrest⟩ := h.timed n i hi
    exact ⟨c, t, a, hc, hto, hex, List.mem_append_left _ hdone, hrest⟩
  have hscan := scanned_relaxAll htimed (List.mem_append_right s.done (List.mem_singleton.mpr rfl)) hget
  have hset : {v | v ∈ s.done ++ [u]} = insert u {v | v ∈ s.done} := by
    ext v
    simp [or_comm]
  have hrelaxed := hscan.relaxed
  dsimp only at hrelaxed
  rw [hset] at hrelaxed
  refine ⟨(h.sound.turn hu).1, hscan.timed, ?_⟩
  rw [hscan.done]
  dsimp only
  rw [hset]
  exact h.frontier.settle hG hnew hget hmin hrelaxed

/-- The search ends where the destination is nearest, or where no node is left. -/
theorem searchOn_ends (hG : (planNet H Q).Fifo) : ∀ {fuel : Nat} {s : Search}, Searching H Q s →
    Q.dst ∉ s.done → Q.contacts.length + 2 ≤ s.done.length + fuel →
      (∃ s' best, searchOn H Q fuel s = some s' ∧ Searching H Q s' ∧
        nearest s'.arr.entries s'.done = some (Q.dst, best)) ∨
      (searchOn H Q fuel s = none ∧ ∃ s', Searching H Q s' ∧ nearest s'.arr.entries s'.done = none ∧
        Q.dst ∉ s'.done) := by
  intro fuel
  induction fuel with
  | zero =>
      -- each turn settles a node, and there are not so many
      intro s hs _ hfuel
      have := hs.sound.done_le
      omega
  | succ fuel ih =>
      intro s hs hdst hfuel
      rw [searchOn]
      cases hu : nearest s.arr.entries s.done with
      | none => exact .inr ⟨rfl, s, hs, hu, hdst⟩
      | some p =>
          obtain ⟨u, best⟩ := p
          dsimp only
          by_cases heq : u = Q.dst
          · rw [if_pos heq]
            exact .inl ⟨s, best, rfl, hs, heq ▸ hu⟩
          · rw [if_neg heq]
            have hdone := (hs.sound.turn hu).2
            refine ih (hs.turn hG hu) ?_ ?_
            · rw [hdone, List.mem_append, List.mem_singleton]
              exact not_or.mpr ⟨hdst, Ne.symm heq⟩
            · rw [hdone, List.length_append, List.length_singleton]
              omega

/-- The hops that are walked back over take the bundle to where the walk began, at the time on record. -/
theorem travel_hopsTo {s : Search} (hs : Searching H Q s) : ∀ {fuel : Nat} {n : String} {a : Int}
    {hops hops' : List Nat}, s.arr.get? n = some a → hopsTo Q s fuel n hops = .ok hops' →
      ∃ front, hops' = front ++ hops ∧ travel H Q (Q.node, Q.t) front = some (n, a) := by
  intro fuel
  induction fuel with
  | zero => intro n a hops hops' _ h; cases h
  | succ fuel ih =>
      intro n a hops hops' ha h
      rw [hopsTo] at h
      by_cases hn : n = Q.node
      · rw [if_pos hn] at h
        cases h
        subst hn
        rw [hs.sound.start, Option.some.injEq] at ha
        exact ⟨[], rfl, congrArg (fun t => some (Q.node, t)) ha⟩
      · rw [if_neg hn] at h
        cases hi : s.via.get? n with
        | none =>
            rw [hi] at h
            cases h
        | some i =>
            obtain ⟨c, t, b, hc, hto, hex, hdone, ht, hb, harr⟩ := hs.timed n i hi
            rw [hi] at h
            dsimp only at h
            rw [hc] at h
            -- the contact that the node was reached by is the last hop
            obtain ⟨front, rfl, htravel⟩ := ih ht h
            refine ⟨front ++ [i], (List.append_assoc front [i] hops).symm, ?_⟩
            rw [travel_append, htravel, Option.bind_some, travel, hc]
            dsimp only
            rw [ha, Option.some.injEq] at harr
            rw [if_pos ⟨rfl, hto ▸ hex⟩, hb, Option.bind_some, travel, hto, harr]

/-- **`route` finds the earliest arrival**: hops that take the bundle to the destination at a time that no others
beat, or nothing, where no hops take it there. -/
theorem route_earliest (H : NetHost) (Q : Query) (hdiv : Nonneg H) (hplan : Physical Q) :
    (∃ hops a, route H Q = .ok (some (hops, some a)) ∧ Arrives H Q hops a ∧
      ∀ hops' b, Arrives H Q hops' b → a ≤ b) ∨
    (route H Q = .ok none ∧ ∀ hops b, ¬ Arrives H Q hops b) := by
  have hG := planNet_fifo hdiv hplan
  have hjourney : ∀ {hops b}, Arrives H Q hops b → (planNet H Q).Journey Q.node Q.t Q.dst b := fun h =>
    journey_of_travel .here h
  rcases searchOn_ends hG (searching_start H Q) List.not_mem_nil
    (show Q.contacts.length + 2 ≤ 0 + (Q.contacts.length + 2) by omega) with
    ⟨s, best, hsearch, hs, hdst⟩ | ⟨hsearch, s, hs, hnone, hdst⟩
  · left
    obtain ⟨hget, hnew, hmin⟩ := nearest_first hdst
    obtain ⟨hops, hok, _⟩ := @hopsTo_returns H Q s hs.sound (s.done.length + 2) Q.dst []
      (fun hin => absurd hin hnew) (fun _ => Nat.lt_succ_self _) (JsMap.mem_keys_iff.mpr ⟨best, hget⟩)
    obtain ⟨front, rfl, htravel⟩ := travel_hopsTo hs hget hok
    rw [List.append_nil] at hok
    refine ⟨front, best, ?_, htravel, fun hops' b h => hs.frontier.le_journey hG hnew hmin (hjourney h)⟩
    unfold route
    rw [hsearch]
    dsimp only
    rw [hok, hget]
    rfl
  · right
    refine ⟨by rw [route, hsearch], fun hops b h => ?_⟩
    refine hdst (hs.frontier.done_of_journey hG (fun v hv => ?_) (hjourney h))
    cases hget : s.arr.get? v with
    | none => rfl
    | some a => exact absurd ((nearest_spec _ _).1 hnone _ (JsMap.mem_entries_iff.mpr hget)) hv

/-- Two ways, the one with more hops being the faster. -/
def sampleQuery : Query where
  contacts := [{ id := "slow", fromEid := "a", toEid := "c", start := 0, endAt := 100, rateBps := 8000, owltMs := 60 },
    { id := "up", fromEid := "a", toEid := "b", start := 0, endAt := 100, rateBps := 8000, owltMs := 5 },
    { id := "down", fromEid := "b", toEid := "c", start := 20, endAt := 100, rateBps := 8000, owltMs := 5 }]
  node := "a"
  dst := "c"
  t := 0
  bytes := 10

theorem sampleQuery_earliest : ∃ hops a, route sampleNetHost sampleQuery = .ok (some (hops, some a)) ∧
    Arrives sampleNetHost sampleQuery hops a ∧ ∀ hops' b, Arrives sampleNetHost sampleQuery hops' b → a ≤ b :=
  (route_earliest sampleNetHost sampleQuery nonneg_sampleNetHost
    (show ∀ c ∈ sampleQuery.contacts, 0 < c.rateBps ∧ 0 ≤ c.owltMs by decide +kernel)).resolve_right fun h =>
      absurd h.1 (by decide +kernel)

end DtnCustody.Network
