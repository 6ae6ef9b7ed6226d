/-
# DtnCustody.Ssi.Route — `ssi/cgr.mjs`: contact graph routing.

The search settles node after node, the earliest arrival first, and relaxes the contacts that leave
it. The contact by which a node was reached leaves a node that was settled before, so walking back
from the destination ends at the start (`route_returns`), and the first hop it ends with is a contact
that passed the test on its end (`route_first`).
-/
import DtnCustody.Js.Operators
import DtnCustody.Base.JsMap
import Mathlib.Data.Rat.Floor

namespace DtnCustody.Network

open Base Js

/-- `{ id, from, to, start, end, rateBps, owltMs, nextFree }`. -/
structure Contact where
  id : String
  fromEid : String
  toEid : String
  start : Int
  endAt : Int
  rateBps : ℚ
  owltMs : Int
  nextFree : Option Int := none
  deriving DecidableEq

/-- The runtime, with the division of Numbers. -/
structure NetHost extends Node where
  divide : ℚ → ℚ → ℚ

variable (H : NetHost)

/-- `Math.ceil((bytes * 8 * 1000) / c.rateBps)`. -/
def txMs (bytes : Nat) (c : Contact) : Int := ⌈H.divide ((bytes * 8 * 1000 : Nat) : ℚ) c.rateBps⌉

/-- `Math.max(t, c.start, c.nextFree ?? 0)`. -/
def departure (t : Int) (c : Contact) : Int := max (max t c.start) (c.nextFree.getD 0)

/-- `!(depart + tx > c.end)`. -/
def fits (bytes : Nat) (c : Contact) (depart : Int) : Bool := depart + txMs H bytes c ≤ c.endAt

/-! ## The search -/

/-- `arr`, `via` and `done`; a contact is known by its place in the list. -/
structure Search where
  arr : JsMap String Int
  via : JsMap String Nat := JsMap.empty
  done : List String := []

/-- What a call is asked. -/
structure Query where
  contacts : List Contact
  node : String
  dst : String
  t : Int
  bytes : Nat
  exclude : List String := []

variable (Q : Query)

/-- The node not settled that is reached first, the first of them in the map. -/
def nearest (arr : List (String × Int)) (done : List String) : Option (String × Int) :=
  arr.foldl (fun best p =>
    if p.1 ∈ done then best
    else match best with
      | none => some p
      | some b => if p.2 < b.2 then some p else some b) none

/-- `Math.max(best, c.start, u === node ? c.nextFree ?? 0 : 0)`. -/
def departFrom (u : String) (best : Int) (c : Contact) : Int :=
  if u = Q.node then departure best c else max (max best c.start) 0

/-- A contact that leaves `u`, which is reached at `best`. -/
def relax (u : String) (best : Int) (s : Search) (p : Contact × Nat) : Search :=
  let c := p.1
  if c.endAt ≤ best ∨ c.toEid ∈ s.done ∨ c.toEid ∈ Q.exclude then s
  else
    let depart := departFrom Q u best c
    if fits H Q.bytes c depart then
      let a := depart + txMs H Q.bytes c + c.owltMs
      if (s.arr.get? c.toEid).all fun before => a < before then
        { s with arr := s.arr.set c.toEid a, via := s.via.set c.toEid p.2 }
      else s
    else s

def relaxAll (u : String) (best : Int) (s : Search) : Search :=
  (Q.contacts.zipIdx.filter fun p => p.1.fromEid = u).foldl (relax H Q u best) s

/-- The loop that settles nodes. Every turn settles another one, so `fuel` above the number of
contacts is never used up. -/
def searchOn : (fuel : Nat) → Search → Option Search
  | 0, _ => none
  | fuel + 1, s =>
      match nearest s.arr.entries s.done with
      | none => none
      | some (u, best) =>
          if u = Q.dst then some s
          else searchOn fuel (relaxAll H Q u best { s with done := s.done ++ [u] })

/-- `for (let n = dst; n !== node; n = via.get(n).from) hops.unshift(via.get(n))`. -/
def hopsTo (s : Search) : (fuel : Nat) → String → List Nat → Outcome (List Nat)
  | 0, _, _ => .error .rangeError
  | fuel + 1, n, hops =>
      if n = Q.node then .ok hops
      else match s.via.get? n with
        | none => .error .typeError
        | some i =>
            match Q.contacts[i]? with
            | none => .error .typeError
            | some c => hopsTo s fuel c.fromEid (i :: hops)

/-- `route(contacts, node, dst, t, bytes, { exclude })`: the hops and the arrival. -/
def route : Outcome (Option (List Nat × Option Int)) :=
  match searchOn H Q (Q.contacts.length + 2) { arr := JsMap.ofList [(Q.node, Q.t)] } with
  | none => .ok none
  | some s => do
      let hops ← hopsTo Q s (s.done.length + 2) Q.dst []
      return some (hops, s.arr.get? Q.dst)

/-! ## What the search knows -/

/-- The contact a node was reached by: it leaves a settled node, one settled before if the node itself
is, and at the start it passed the test on its end. -/
structure Reached (s : Search) (n : String) (i : Nat) (c : Contact) : Prop where
  contact : Q.contacts[i]? = some c
  arrives : c.toEid = n
  settled : c.fromEid ∈ s.done
  earlier : n ∈ s.done → s.done.idxOf c.fromEid < s.done.idxOf n
  fits : c.fromEid = Q.node → Network.fits H Q.bytes c (departure Q.t c) = true

structure Sound (s : Search) : Prop where
  reached : ∀ n i, s.via.get? n = some i → ∃ c, Reached H Q s n i c
  found : ∀ n ∈ s.arr.keys, n = Q.node ∨ ∃ i, s.via.get? n = some i
  start : s.arr.get? Q.node = some Q.t
  first : Q.node ∈ s.done ∨ s.arr.keys = [Q.node]
  once : s.done.Nodup
  known : ∀ n ∈ s.done, n ∈ s.arr.keys

variable {H Q}

theorem nearest_some {arr : List (String × Int)} {done : List String} {p : String × Int}
    (h : nearest arr done = some p) : p ∈ arr ∧ p.1 ∉ done := by
  have all : ∀ (rest : List (String × Int)) (best : Option (String × Int)),
      (∀ q ∈ best, q ∈ arr ∧ q.1 ∉ done) → (∀ q ∈ rest, q ∈ arr) →
        rest.foldl (fun best p =>
          if p.1 ∈ done then best
          else match best with
            | none => some p
            | some b => if p.2 < b.2 then some p else some b) best = some p →
          p ∈ arr ∧ p.1 ∉ done := by
    intro rest
    induction rest with
    | nil => intro best hbest _ h; exact hbest p h
    | cons q rest ih =>
        intro best hbest hrest h
        rw [List.forall_mem_cons] at hrest
        refine ih _ ?_ hrest.2 h
        intro q' hq'
        dsimp only at hq'
        split at hq'
        · exact hbest q' hq'
        · rename_i hq
          have hself : ∀ x ∈ some q, x ∈ arr ∧ x.1 ∉ done := by
            intro x hx
            cases hx
            exact ⟨hrest.1, hq⟩
          cases best with
          | none => exact hself q' hq'
          | some b =>
              dsimp only at hq'
              split at hq'
              · exact hself q' hq'
              · exact hbest q' hq'
  exact all arr none (fun q hq => by cases hq) (fun q hq => hq) h

/-- A contact that is relaxed leaves the search as it was, or reaches a node that is not settled. -/
theorem relax_cases (u : String) (best : Int) (s : Search) (p : Contact × Nat) :
    relax H Q u best s p = s ∨
      (p.1.toEid ∉ s.done ∧
        (u = Q.node → fits H Q.bytes p.1 (departure best p.1) = true) ∧
        ∃ a, relax H Q u best s p =
          { s with arr := s.arr.set p.1.toEid a, via := s.via.set p.1.toEid p.2 }) := by
  unfold relax
  dsimp only
  split
  · exact Or.inl rfl
  · rename_i hskip
    rw [not_or, not_or] at hskip
    split
    · rename_i hfits
      split
      · refine Or.inr ⟨hskip.2.1, fun hu => ?_, _, rfl⟩
        rwa [departFrom, if_pos hu] at hfits
      · exact Or.inl rfl
    · exact Or.inl rfl

/-- **One contact keeps the search sound.** -/
theorem Sound.relax {u : String} {best : Int} {s : Search} {p : Contact × Nat} (h : Sound H Q s)
    (hu : u ∈ s.done) (hnode : Q.node ∈ s.done) (hbest : u = Q.node → best = Q.t)
    (hp : Q.contacts[p.2]? = some p.1) (hfrom : p.1.fromEid = u) :
    Sound H Q (relax H Q u best s p) ∧ (relax H Q u best s p).done = s.done := by
  rcases relax_cases u best s p with heq | ⟨hnew, hfits, a, heq⟩
  · rw [heq]
    exact ⟨h, rfl⟩
  · rw [heq]
    refine ⟨⟨?_, ?_, ?_, Or.inl hnode, h.once, ?_⟩, rfl⟩
    · intro n i hi
      by_cases hn : n = p.1.toEid
      · rw [hn, JsMap.get?_set_self, Option.some.injEq] at hi
        refine ⟨p.1, hi ▸ hp, hn.symm, hfrom ▸ hu, fun hdone => absurd (hn ▸ hdone) hnew, ?_⟩
        intro hstart
        have hu' : u = Q.node := hfrom.symm.trans hstart
        have hfit := hfits hu'
        rwa [hbest hu'] at hfit
      · rw [JsMap.get?_set_ne _ hn] at hi
        obtain ⟨c, hc⟩ := h.reached n i hi
        exact ⟨c, hc.contact, hc.arrives, hc.settled, hc.earlier, hc.fits⟩
    · intro n hn
      rcases JsMap.mem_keys_set.mp hn with hn | rfl
      · rcases h.found n hn with hstart | ⟨i, hi⟩
        · exact Or.inl hstart
        · by_cases hn' : n = p.1.toEid
          · exact Or.inr ⟨p.2, by rw [hn', JsMap.get?_set_self]⟩
          · exact Or.inr ⟨i, by rw [JsMap.get?_set_ne _ hn', hi]⟩
      · exact Or.inr ⟨p.2, JsMap.get?_set_self _ _ _⟩
    · have hne : Q.node ≠ p.1.toEid := fun heq => hnew (heq ▸ hnode)
      rw [JsMap.get?_set_ne _ hne]
      exact h.start
    · intro n hn
      exact JsMap.mem_keys_set.mpr (Or.inl (h.known n hn))

/-- Settling the nearest node keeps the search sound. -/
theorem Sound.settle {s : Search} {u : String} {best : Int} (h : Sound H Q s)
    (hu : nearest s.arr.entries s.done = some (u, best)) :
    Sound H Q { s with done := s.done ++ [u] } ∧ Q.node ∈ s.done ++ [u] ∧
      (u = Q.node → best = Q.t) := by
  obtain ⟨hmem, hnew⟩ := nearest_some hu
  have hget : s.arr.get? u = some best := JsMap.mem_entries_iff.mp hmem
  have hkey : u ∈ s.arr.keys := JsMap.mem_keys_iff.mpr ⟨best, hget⟩
  have hnode : Q.node ∈ s.done ++ [u] := by
    rcases h.first with hdone | hkeys
    · exact List.mem_append_left _ hdone
    · rw [hkeys, List.mem_singleton] at hkey
      exact List.mem_append_right _ (by simp [hkey])
  refine ⟨⟨?_, h.found, h.start, Or.inl hnode, ?_, ?_⟩, hnode, ?_⟩
  · intro n i hi
    obtain ⟨c, hc⟩ := h.reached n i hi
    refine ⟨c, hc.contact, hc.arrives, List.mem_append_left _ hc.settled, fun hn => ?_, hc.fits⟩
    show (s.done ++ [u]).idxOf c.fromEid < (s.done ++ [u]).idxOf n
    rw [List.idxOf_append_of_mem hc.settled]
    by_cases hold : n ∈ s.done
    · rw [List.idxOf_append_of_mem hold]
      exact hc.earlier hold
    · rw [List.idxOf_append_of_notMem hold]
      exact lt_of_lt_of_le (List.idxOf_lt_length_of_mem hc.settled) (Nat.le_add_right _ _)
  · exact List.Nodup.append h.once (List.nodup_singleton u) (by simpa using hnew)
  · intro n hn
    rcases List.mem_append.mp hn with hn | hn
    · exact h.known n hn
    · rw [List.mem_singleton.mp hn]
      exact hkey
  · intro heq
    rw [heq, h.start, Option.some.injEq] at hget
    exact hget.symm

/-- **One turn of the loop keeps the search sound**, and settles one node more. -/
theorem Sound.turn {s : Search} {u : String} {best : Int} (h : Sound H Q s)
    (hu : nearest s.arr.entries s.done = some (u, best)) :
    Sound H Q (relaxAll H Q u best { s with done := s.done ++ [u] }) ∧
      (relaxAll H Q u best { s with done := s.done ++ [u] }).done = s.done ++ [u] := by
  obtain ⟨hsound, hnode, hbest⟩ := h.settle hu
  have all : ∀ (ps : List (Contact × Nat)) (s' : Search), Sound H Q s' → s'.done = s.done ++ [u] →
      (∀ p ∈ ps, Q.contacts[p.2]? = some p.1 ∧ p.1.fromEid = u) →
        Sound H Q (ps.foldl (Network.relax H Q u best) s') ∧
          (ps.foldl (Network.relax H Q u best) s').done = s.done ++ [u] := by
    intro ps
    induction ps with
    | nil => intro s' hs' hdone _; exact ⟨hs', hdone⟩
    | cons p ps ih =>
        intro s' hs' hdone hps
        rw [List.forall_mem_cons] at hps
        have hudone : u ∈ s'.done := by rw [hdone]; simp
        obtain ⟨hnext, hsame⟩ := hs'.relax hudone (hdone ▸ hnode) hbest hps.1.1 hps.1.2
        exact ih _ hnext (hsame.trans hdone) hps.2
  refine all _ _ hsound rfl fun p hp => ?_
  obtain ⟨hzip, hfrom⟩ := List.mem_filter.mp hp
  exact ⟨(List.mem_zipIdx_iff_getElem?.mp hzip), of_decide_eq_true hfrom⟩

theorem sound_start (H : NetHost) (Q : Query) :
    Sound H Q { arr := JsMap.ofList [(Q.node, Q.t)] } := by
  have harr : (JsMap.ofList [(Q.node, Q.t)]).entries = [(Q.node, Q.t)] :=
    JsMap.entries_ofList (List.nodup_singleton _)
  have hkeys : (JsMap.ofList [(Q.node, Q.t)]).keys = [Q.node] := by
    rw [JsMap.keys, harr]
    rfl
  refine ⟨?_, ?_, ?_, Or.inr hkeys, List.nodup_nil, ?_⟩
  · intro n i hi
    rw [JsMap.get?_empty] at hi
    cases hi
  · intro n hn
    rw [hkeys, List.mem_singleton] at hn
    exact Or.inl hn
  · exact JsMap.mem_entries_iff.mp (by rw [harr]; exact List.mem_singleton.mpr rfl)
  · intro n hn
    cases hn

/-- **The search ends sound**, at the destination. -/
theorem searchOn_sound : ∀ {fuel : Nat} {s s' : Search}, Sound H Q s →
    searchOn H Q fuel s = some s' →
      Sound H Q s' ∧ ∃ best, nearest s'.arr.entries s'.done = some (Q.dst, best) := by
  intro fuel
  induction fuel with
  | zero => intro s s' _ h; cases h
  | succ fuel ih =>
      intro s s' hs h
      rw [searchOn] at h
      split at h
      · cases h
      · rename_i u best hu
        split at h
        · rename_i hdst
          cases h
          exact ⟨hs, best, hdst ▸ hu⟩
        · exact ih (hs.turn hu).1 h

/-! ## What it returns -/

/-- Walking back from a node that was reached ends at the start, with a first hop that leaves it. -/
theorem hopsTo_returns {s : Search} (hs : Sound H Q s) :
    ∀ {fuel : Nat} {n : String} {hops : List Nat}, (n ∈ s.done → s.done.idxOf n + 1 < fuel) →
      (n ∉ s.done → s.done.length + 1 < fuel) → n ∈ s.arr.keys →
      ∃ hops', hopsTo Q s fuel n hops = .ok hops' ∧
        (n = Q.node ∧ hops' = hops ∨ ∃ i m c, hops'.head? = some i ∧ Reached H Q s m i c ∧
          c.fromEid = Q.node) := by
  intro fuel
  induction fuel with
  | zero =>
      intro n hops hin hout _
      by_cases hn : n ∈ s.done
      · exact absurd (hin hn) (Nat.not_lt_zero _)
      · exact absurd (hout hn) (Nat.not_lt_zero _)
  | succ fuel ih =>
      intro n hops hin hout hkey
      rw [hopsTo]
      by_cases hn : n = Q.node
      · exact ⟨hops, if_pos hn, Or.inl ⟨hn, rfl⟩⟩
      · rw [if_neg hn]
        obtain ⟨i, hi⟩ := (hs.found n hkey).resolve_left hn
        obtain ⟨c, hc⟩ := hs.reached n i hi
        rw [hi]
        dsimp only
        rw [hc.contact]
        dsimp only
        have hlt : s.done.idxOf c.fromEid + 1 < fuel := by
          by_cases hdone : n ∈ s.done
          · have := hc.earlier hdone
            have := hin hdone
            omega
          · have := List.idxOf_lt_length_of_mem hc.settled
            have := hout hdone
            omega
        obtain ⟨hops', hok, hfirst⟩ := @ih c.fromEid (i :: hops) (fun _ => hlt)
          (fun hnot => absurd hc.settled hnot) (hs.known _ hc.settled)
        refine ⟨hops', hok, Or.inr ?_⟩
        rcases hfirst with ⟨hstart, rfl⟩ | hfirst
        · exact ⟨i, n, c, rfl, hc, hstart⟩
        · exact hfirst

/-- **`route` always returns.** -/
theorem route_returns (H : NetHost) (Q : Query) : ∃ r, route H Q = .ok r := by
  unfold route
  split
  · exact ⟨_, rfl⟩
  · rename_i s hs
    obtain ⟨hsound, best, hdst⟩ := searchOn_sound (sound_start H Q) hs
    obtain ⟨hmem, hnew⟩ := nearest_some hdst
    have hkey : Q.dst ∈ s.arr.keys := JsMap.mem_keys_iff.mpr ⟨best, JsMap.mem_entries_iff.mp hmem⟩
    obtain ⟨hops, hok, _⟩ := @hopsTo_returns H Q s hsound (s.done.length + 2) Q.dst []
      (fun hin => absurd hin hnew) (fun _ => Nat.lt_succ_self _) hkey
    rw [hok]
    exact ⟨_, rfl⟩

/-- **The first hop has room for the bundle** as `route` was asked: it leaves the node, and from the
departure to its end there is time to send that many bytes. -/
theorem route_first {hops : List Nat} {arrival : Option Int} (hne : Q.node ≠ Q.dst)
    (h : route H Q = .ok (some (hops, arrival))) :
    ∃ i c, hops.head? = some i ∧ Q.contacts[i]? = some c ∧ c.fromEid = Q.node ∧
      fits H Q.bytes c (departure Q.t c) = true := by
  unfold route at h
  split at h
  · cases h
  · rename_i s hs
    obtain ⟨hsound, best, hdst⟩ := searchOn_sound (sound_start H Q) hs
    obtain ⟨hmem, hnew⟩ := nearest_some hdst
    have hkey : Q.dst ∈ s.arr.keys := JsMap.mem_keys_iff.mpr ⟨best, JsMap.mem_entries_iff.mp hmem⟩
    obtain ⟨hops', hok, hfirst⟩ := @hopsTo_returns H Q s hsound (s.done.length + 2) Q.dst []
      (fun hin => absurd hin hnew) (fun _ => Nat.lt_succ_self _) hkey
    rw [hok] at h
    cases h
    rcases hfirst with ⟨heq, _⟩ | ⟨i, m, c, hhead, hreached, hfrom⟩
    · exact absurd heq.symm hne
    · exact ⟨i, c, hhead, hreached.contact, hfrom, hreached.fits hfrom⟩

/-! ## The search does not run out -/

/-- The nodes a search can settle. -/
def nodesOf (Q : Query) : List String := Q.node :: Q.contacts.map Contact.toEid

theorem Sound.done_le {s : Search} (h : Sound H Q s) : s.done.length ≤ Q.contacts.length + 1 := by
  have hsub : s.done ⊆ nodesOf Q := by
    intro n hn
    rcases h.found n (h.known n hn) with rfl | ⟨i, hi⟩
    · exact List.mem_cons_self
    · obtain ⟨c, hc⟩ := h.reached n i hi
      exact List.mem_cons_of_mem _
        (List.mem_map.mpr ⟨c, List.mem_of_getElem? hc.contact, hc.arrives⟩)
  have hle := (List.subperm_of_subset h.once hsub).length_le
  rwa [nodesOf, List.length_cons, List.length_map] at hle

end DtnCustody.Network
