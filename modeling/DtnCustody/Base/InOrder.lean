/-
# DtnCustody.Base.InOrder — replies that name no request, handed out in the order of the requests.

Requests wait in a line and a reply goes to the one in front. Somebody who knows which request each reply
is for would say that the replies come in the order of the requests, with some requests left out
(`Follows.inOrder`). The line cannot know of the ones left out: it serves the first requests, as many as
there were replies. So everyone gets the reply meant for them exactly when nobody was left out before
somebody who was answered (`Follows.served_iff`).
-/
import Mathlib.Order.Defs.PartialOrder
import Mathlib.Data.List.Basic

namespace DtnCustody

namespace Base

variable {κ ρ : Type}

/-- Who waits, and who was served with what. -/
structure Line (κ ρ : Type) where
  waiting : List κ
  served : List (κ × ρ)

namespace Line

/-- A request joins the line. -/
def ask (l : Line κ ρ) (k : κ) : Line κ ρ := { l with waiting := l.waiting ++ [k] }

/-- A reply goes to the front of the line; with nobody there it is lost. -/
def reply (l : Line κ ρ) (r : ρ) : Line κ ρ :=
  match l.waiting with
  | [] => l
  | k :: ks => { waiting := ks, served := l.served ++ [(k, r)] }

variable [Preorder κ]

/-- The line after these requests and these replies, each reply with the request that it is for. -/
structure Follows (l : Line κ ρ) (requests : List κ) (replies : List (κ × ρ)) : Prop where
  sorted : requests.Pairwise (· < ·)
  inOrder : (replies.map Prod.fst).Sublist requests
  waiting : l.waiting = requests.drop replies.length
  served : l.served = List.zipWith (fun k r => (k, r.2)) requests replies

namespace Follows

variable {l : Line κ ρ} {requests : List κ} {replies : List (κ × ρ)}

theorem start : Follows ⟨[], []⟩ ([] : List κ) ([] : List (κ × ρ)) :=
  ⟨.nil, .slnil, rfl, rfl⟩

theorem length_le (h : l.Follows requests replies) : replies.length ≤ requests.length := by
  have hle := h.inOrder.length_le
  rwa [List.length_map] at hle

/-- A later request changes nothing for those before it. -/
theorem ask (h : l.Follows requests replies) {k : κ} (hk : ∀ j ∈ requests, j < k) :
    (l.ask k).Follows (requests ++ [k]) replies where
  sorted := by
    rw [List.pairwise_append]
    refine ⟨h.sorted, List.pairwise_singleton _ _, fun j hj x hx => ?_⟩
    rw [List.mem_singleton] at hx
    exact hx ▸ hk j hj
  inOrder := h.inOrder.trans (List.sublist_append_left _ _)
  waiting := by
    rw [Line.ask, List.drop_append_of_le_length h.length_le, ← h.waiting]
  served := by
    rw [Line.ask, h.served]
    apply List.ext_getElem
    · rw [List.length_zipWith, List.length_zipWith, List.length_append]
      have := h.length_le
      omega
    · intro i hi _
      rw [List.length_zipWith] at hi
      rw [List.getElem_zipWith, List.getElem_zipWith, List.getElem_append_left]

/-- A reply goes to the first request that no reply has gone to. -/
theorem reply (h : l.Follows requests replies) {k : κ} {r : ρ}
    (hk : ((replies ++ [(k, r)]).map Prod.fst).Sublist requests) :
    (l.reply r).Follows requests (replies ++ [(k, r)]) := by
  have hlen : replies.length < requests.length := by
    have hle := hk.length_le
    rw [List.length_map, List.length_append, List.length_singleton] at hle
    omega
  have hfront : l.waiting = requests[replies.length] :: requests.drop (replies.length + 1) := by
    rw [h.waiting, ← List.drop_eq_getElem_cons]
  have hreply : l.reply r =
      ⟨requests.drop (replies.length + 1), l.served ++ [(requests[replies.length], r)]⟩ := by
    rw [Line.reply, hfront]
  refine ⟨h.sorted, hk, ?_, ?_⟩
  · rw [hreply, List.length_append, List.length_singleton]
  · rw [hreply, h.served]
    apply List.ext_getElem
    · rw [List.length_append, List.length_zipWith, List.length_zipWith, List.length_append]
      simp only [List.length_singleton]
      omega
    · intro i hi _
      rw [List.length_append, List.length_zipWith, List.length_singleton] at hi
      rw [List.getElem_zipWith, List.getElem_append]
      split
      · rename_i hlt
        rw [List.length_zipWith] at hlt
        rw [List.getElem_zipWith, List.getElem_append_left (by omega)]
      · rename_i hge
        rw [List.length_zipWith] at hge
        obtain rfl : i = replies.length := by omega
        rw [List.getElem_append_right (Nat.le_refl _)]
        simp only [List.length_zipWith, Nat.sub_self, List.getElem_singleton, Nat.min_eq_right
          (Nat.le_of_lt hlen)]

/-! ## Who gets what -/

/-- Who is served: the first in the order of the requests. -/
theorem served_fst (h : l.Follows requests replies) :
    l.served.map Prod.fst = requests.take replies.length := by
  rw [h.served]
  apply List.ext_getElem
  · rw [List.length_map, List.length_zipWith, List.length_take, Nat.min_comm]
  · intro i hi _
    rw [List.getElem_map, List.getElem_zipWith, List.getElem_take]

/-- In a sorted list, whoever comes before one of the first is one of the first. -/
theorem mem_take_of_lt {ks : List κ} (hks : ks.Pairwise (· < ·)) {n : Nat} {j k : κ}
    (hj : j ∈ ks.take n) (hk : k ∈ ks) (hkj : k < j) : k ∈ ks.take n := by
  rw [← List.take_append_drop n ks] at hks hk
  rcases List.mem_append.mp hk with hk | hk
  · exact hk
  · exact absurd ((List.pairwise_append.mp hks).2.2 j hj k hk) (lt_asymm hkj)

/-- Replies in order that leave nobody out are served as they were meant. -/
theorem served_eq {ks : List κ} (hks : ks.Pairwise (· < ·)) {rs : List (κ × ρ)}
    (horder : (rs.map Prod.fst).Sublist ks)
    (hnone : ∀ k ∈ ks, ∀ r ∈ rs, k < r.1 → k ∈ rs.map Prod.fst) :
    List.zipWith (fun k r => (k, r.2)) ks rs = rs := by
  induction ks generalizing rs with
  | nil =>
      rw [List.sublist_nil, List.map_eq_nil_iff] at horder
      subst horder
      rfl
  | cons k ks ih =>
      rw [List.pairwise_cons] at hks
      cases rs with
      | nil => rfl
      | cons r rs =>
          have hfirst : r.1 = k := by
            -- Had the first reply gone to a later request, this one were left out before it.
            by_contra hne
            have hlater : ((r :: rs).map Prod.fst).Sublist ks := by
              cases horder with
              | cons _ h => exact h
              | cons_cons _ _ => exact absurd rfl hne
            have hlt : k < r.1 := hks.1 _ (hlater.subset List.mem_cons_self)
            have hmem := hnone k List.mem_cons_self r List.mem_cons_self hlt
            exact lt_irrefl _ (hks.1 _ (hlater.subset hmem))
          have hrest : (rs.map Prod.fst).Sublist ks := by
            rw [List.map_cons, hfirst] at horder
            exact List.cons_sublist_cons.mp horder
          rw [List.zipWith_cons_cons, ih hks.2 hrest, ← hfirst]
          intro j hj s hs hjs
          have hmem := hnone j (List.mem_cons_of_mem _ hj) s (List.mem_cons_of_mem _ hs) hjs
          rw [List.map_cons, List.mem_cons] at hmem
          rcases hmem with rfl | hmem
          · exact absurd (hks.1 _ hj) (hfirst ▸ lt_irrefl _)
          · exact hmem

/-- **Everyone gets the reply meant for them, and all of them do, exactly when nobody was left out
before somebody who was answered.** -/
theorem served_iff (h : l.Follows requests replies) :
    (∀ x, x ∈ l.served ↔ x ∈ replies) ↔
      ∀ k ∈ requests, ∀ r ∈ replies, k < r.1 → k ∈ replies.map Prod.fst := by
  constructor
  · intro hserved k hk r hr hlt
    have hsame : ∀ j, j ∈ requests.take replies.length ↔ j ∈ replies.map Prod.fst := by
      intro j
      rw [← h.served_fst, List.mem_map, List.mem_map]
      exact exists_congr fun x => and_congr_left fun _ => hserved x
    have hr' : r.1 ∈ requests.take replies.length := (hsame _).mpr (List.mem_map_of_mem hr)
    exact (hsame k).mp (mem_take_of_lt h.sorted hr' hk hlt)
  · intro hnone x
    rw [h.served, served_eq h.sorted h.inOrder hnone]

end Follows

end Line

end Base

end DtnCustody
