/-
# DtnCustody.Base.Capped — a bounded list without duplicates, in which some elements go first.

Offered elements are put behind those that are there, duplicates are dropped, the elements with
priority are brought to the front in the order they stand in, and what is beyond the cap is cut off
(`enlist`). An element with priority that was within the cap is never lost (`mem_enlist_of_mem`); as long
as all elements with priority ever offered fit, none of them is (`mem_enlists`); and offering the same
elements again changes nothing (`enlist_again`).
-/
import Mathlib.Data.List.Nodup
import Mathlib.Data.List.Sort

namespace DtnCustody.Base

variable {α : Type} [DecidableEq α]

/-! ## Bringing to the front -/

/-- The elements with priority first, both in the order they stand in. -/
def promote (p : α → Bool) (xs : List α) : List α := xs.filter p ++ xs.filter fun x => !p x

/-- What a comparator says that only looks at the priority. -/
def goesFirst (p : α → Bool) (x y : α) : Prop := p x = true ∨ p y = false

instance (p : α → Bool) : DecidableRel (goesFirst p) := fun _ _ => instDecidableOr

omit [DecidableEq α] in
/-- **A stable sort by priority brings to the front.** -/
theorem insertionSort_goesFirst (p : α → Bool) (xs : List α) :
    xs.insertionSort (goesFirst p) = promote p xs := by
  induction xs with
  | nil => rfl
  | cons x xs ih =>
      rw [List.insertionSort_cons, ih, promote, promote]
      cases hx : p x with
      | true =>
          rw [List.filter_cons_of_pos hx, List.filter_cons_of_neg (by simp [hx]), List.cons_append]
          cases xs.filter p ++ xs.filter (fun y => !p y) with
          | nil => rfl
          | cons y ys => exact if_pos (Or.inl hx)
      | false =>
          rw [List.filter_cons_of_neg (by simp [hx]), List.filter_cons_of_pos (by simp [hx])]
          -- It is put behind those with priority, and in front of the others.
          have hfront : ∀ ys : List α, (∀ y ∈ ys, p y = true) → ∀ zs,
              (ys ++ zs).orderedInsert (goesFirst p) x = ys ++ zs.orderedInsert (goesFirst p) x := by
            intro ys hys zs
            induction ys with
            | nil => rfl
            | cons y ys ih =>
                rw [List.forall_mem_cons] at hys
                have hlater : ¬ goesFirst p x y := by
                  rintro (h | h)
                  · rw [hx] at h
                    cases h
                  · rw [hys.1] at h
                    cases h
                rw [List.cons_append, List.orderedInsert_cons, if_neg hlater, ih hys.2]
                rfl
          rw [hfront _ fun y hy => List.of_mem_filter hy]
          cases hrest : xs.filter fun y => !p y with
          | nil => rfl
          | cons y ys =>
              have hy : p y = false := by
                have hmem := List.of_mem_filter (hrest ▸ List.mem_cons_self : y ∈ xs.filter fun y => !p y)
                simpa using hmem
              have hbefore : goesFirst p x y := Or.inr hy
              rw [List.orderedInsert_cons, if_pos hbefore]

omit [DecidableEq α] in
theorem mem_promote {p : α → Bool} {xs : List α} {x : α} : x ∈ promote p xs ↔ x ∈ xs := by
  rw [promote, List.mem_append, List.mem_filter, List.mem_filter, Bool.not_eq_true']
  cases p x <;> simp

omit [DecidableEq α] in
theorem nodup_promote {p : α → Bool} {xs : List α} (h : xs.Nodup) : (promote p xs).Nodup := by
  refine List.Nodup.append (h.filter p) (h.filter _) fun x hx hx' => ?_
  have hyes := List.of_mem_filter hx
  have hno := List.of_mem_filter hx'
  rw [hyes] at hno
  cases hno

omit [DecidableEq α] in
theorem promote_append {p : α → Bool} {xs ys : List α} (hys : ∀ y ∈ ys, p y = false) :
    promote p (xs ++ ys) = promote p xs ++ ys := by
  have hnone : ys.filter p = [] := List.filter_eq_nil_iff.mpr fun y hy => by simp [hys y hy]
  have hall : (ys.filter fun y => !p y) = ys := List.filter_eq_self.mpr fun y hy => by simp [hys y hy]
  rw [promote, promote, List.filter_append, List.filter_append, hnone, hall, List.append_nil,
    List.append_assoc]

omit [DecidableEq α] in
/-- Elements with priority, and then the others, stay as they are. -/
theorem promote_ranked {p : α → Bool} {xs ys : List α} (hxs : ∀ x ∈ xs, p x = true)
    (hys : ∀ y ∈ ys, p y = false) : promote p (xs ++ ys) = xs ++ ys := by
  have hnone : (xs.filter fun x => !p x) = [] :=
    List.filter_eq_nil_iff.mpr fun x hx => by simp [hxs x hx]
  rw [promote_append hys, promote, List.filter_eq_self.mpr hxs, hnone, List.append_nil]

/-! ## Dropping duplicates -/

section Distinct

variable {β : Type} [BEq β] [LawfulBEq β]

theorem nodup_eraseDups_of {n : Nat} : ∀ xs : List β, xs.length ≤ n → xs.eraseDups.Nodup := by
  induction n with
  | zero =>
      intro xs h
      rw [List.length_eq_zero_iff.mp (Nat.le_zero.mp h)]
      exact List.nodup_nil
  | succ n ih =>
      intro xs h
      cases xs with
      | nil => exact List.nodup_nil
      | cons x xs =>
          rw [List.eraseDups_cons, List.nodup_cons]
          have hle := List.length_filter_le (fun y => !y == x) xs
          rw [List.length_cons] at h
          exact ⟨by simp, ih _ (by omega)⟩

theorem eraseDups_nodup (xs : List β) : xs.eraseDups.Nodup := nodup_eraseDups_of xs le_rfl

omit [LawfulBEq β] in
theorem eraseDups_sublist_of {n : Nat} : ∀ xs : List β, xs.length ≤ n → xs.eraseDups.Sublist xs := by
  induction n with
  | zero =>
      intro xs h
      rw [List.length_eq_zero_iff.mp (Nat.le_zero.mp h)]
      exact List.Sublist.slnil
  | succ n ih =>
      intro xs h
      cases xs with
      | nil => exact List.Sublist.slnil
      | cons x xs =>
          rw [List.eraseDups_cons]
          have hle := List.length_filter_le (fun y => !y == x) xs
          rw [List.length_cons] at h
          exact ((ih _ (by omega)).trans List.filter_sublist).cons_cons x

omit [LawfulBEq β] in
theorem eraseDups_sublist (xs : List β) : xs.eraseDups.Sublist xs := eraseDups_sublist_of xs le_rfl

end Distinct

theorem eraseDups_of_nodup {xs : List α} (h : xs.Nodup) : xs.eraseDups = xs := by
  induction xs with
  | nil => rfl
  | cons x xs ih =>
      rw [List.nodup_cons] at h
      have hsame : (xs.filter fun y => !y == x) = xs := by
        refine List.filter_eq_self.mpr fun y hy => ?_
        simpa using fun heq : y = x => h.1 (heq ▸ hy)
      rw [List.eraseDups_cons, hsame, ih h.2]

/-! ## Taking elements in -/

/-- What is kept when elements are offered. -/
def enlist (p : α → Bool) (cap : Nat) (held offered : List α) : List α :=
  (promote p (held ++ offered).eraseDups).take cap

variable {p : α → Bool} {cap : Nat} {held offered : List α}

theorem length_enlist : (enlist p cap held offered).length ≤ cap := List.length_take_le _ _

theorem nodup_enlist : (enlist p cap held offered).Nodup :=
  (nodup_promote (eraseDups_nodup _)).sublist (List.take_sublist _ _)

theorem mem_of_mem_enlist {x : α} (h : x ∈ enlist p cap held offered) : x ∈ held ∨ x ∈ offered := by
  have hmem := mem_promote.mp (List.mem_of_mem_take h)
  rwa [List.mem_eraseDups, List.mem_append] at hmem

/-- Those with priority go first. -/
def Ranked (p : α → Bool) (xs : List α) : Prop :=
  ∃ front back, xs = front ++ back ∧ (∀ x ∈ front, p x = true) ∧ ∀ x ∈ back, p x = false

omit [DecidableEq α] in
theorem ranked_promote (p : α → Bool) (xs : List α) : Ranked p (promote p xs) :=
  ⟨_, _, rfl, fun _ hx => List.of_mem_filter hx, fun _ hx => by simpa using List.of_mem_filter hx⟩

omit [DecidableEq α] in
theorem Ranked.take {xs : List α} (h : Ranked p xs) (n : Nat) : Ranked p (xs.take n) := by
  obtain ⟨front, back, rfl, hfront, hback⟩ := h
  exact ⟨_, _, List.take_append, fun x hx => hfront x (List.mem_of_mem_take hx),
    fun x hx => hback x (List.mem_of_mem_take hx)⟩

omit [DecidableEq α] in
theorem Ranked.promote_eq {xs : List α} (h : Ranked p xs) : promote p xs = xs := by
  obtain ⟨front, back, rfl, hfront, hback⟩ := h
  exact promote_ranked hfront hback

theorem ranked_enlist : Ranked p (enlist p cap held offered) := (ranked_promote p _).take cap

omit [DecidableEq α] in
/-- One of the first elements with priority is within the cap. -/
theorem mem_take_promote {xs ys : List α} (hlen : (xs.filter p).length ≤ cap) {x : α}
    (hx : x ∈ xs) (hp : p x = true) : x ∈ (promote p (xs ++ ys)).take cap := by
  rw [promote, List.filter_append, List.append_assoc, List.take_append]
  apply List.mem_append_left
  rw [List.take_of_length_le hlen]
  exact List.mem_filter.mpr ⟨hx, hp⟩

/-- **What has priority and was there within the cap is kept.** -/
theorem mem_enlist_of_mem (hcap : held.length ≤ cap) {x : α} (hx : x ∈ held) (hp : p x = true) :
    x ∈ enlist p cap held offered := by
  rw [enlist, List.eraseDups_append]
  apply mem_take_promote _ (List.mem_eraseDups.mpr hx) hp
  have hle := (eraseDups_sublist held).length_le
  exact (List.length_filter_le _ _).trans (hle.trans hcap)

/-- **What has priority is taken in**, where all that has fits. -/
theorem mem_enlist_of_fits (hfits : ((held ++ offered).eraseDups.filter p).length ≤ cap) {x : α}
    (hx : x ∈ held ∨ x ∈ offered) (hp : p x = true) : x ∈ enlist p cap held offered := by
  rw [enlist, ← List.append_nil (held ++ offered).eraseDups]
  apply mem_take_promote hfits _ hp
  rwa [List.mem_eraseDups, List.mem_append]

/-- **Offering the same again changes nothing.** -/
theorem enlist_again : enlist p cap (enlist p cap held offered) offered = enlist p cap held offered := by
  generalize hkept : enlist p cap held offered = kept
  have hranked : Ranked p kept := hkept ▸ ranked_enlist
  have hnodup : kept.Nodup := hkept ▸ nodup_enlist
  have hlen : kept.length ≤ cap := hkept ▸ length_enlist
  rw [enlist, List.eraseDups_append, eraseDups_of_nodup hnodup]
  by_cases hfull : kept.length = cap
  · by_cases hall : ∀ x ∈ kept, p x = true
    · rw [promote, List.filter_append, List.filter_eq_self.mpr hall, List.append_assoc,
        List.take_append_of_le_length (Nat.le_of_eq hfull.symm), ← hfull, List.take_length]
    · -- An element without priority is in, so all with priority are.
      rw [promote_append, hranked.promote_eq, List.take_append_of_le_length (Nat.le_of_eq hfull.symm),
        ← hfull, List.take_length]
      intro y hy
      by_contra hyes
      rw [Bool.not_eq_false] at hyes
      rw [List.mem_eraseDups, List.removeAll, List.mem_filter] at hy
      have hout : y ∉ kept := by simpa using hy.2
      push Not at hall
      obtain ⟨x, hx, hno⟩ := hall
      apply hout
      rw [← hkept, enlist, promote] at hx ⊢
      rw [List.take_append, List.mem_append] at hx ⊢
      rcases hx with hx | hx
      · exact absurd (List.of_mem_filter (List.mem_of_mem_take hx)) hno
      · left
        have hroom : ((held ++ offered).eraseDups.filter p).length ≤ cap := by
          by_contra hlt
          rw [Nat.sub_eq_zero_of_le (by omega), List.take_zero] at hx
          cases hx
        rw [List.take_of_length_le hroom, List.mem_filter, List.mem_eraseDups, List.mem_append]
        exact ⟨Or.inr hy.1, hyes⟩
  · -- Nothing was cut off, so all that is offered is in.
    have hwhole : kept = promote p (held ++ offered).eraseDups := by
      rw [← hkept, enlist, List.take_of_length_le]
      by_contra hlt
      rw [← hkept, enlist, List.length_take] at hfull
      omega
    have hnone : offered.removeAll kept = [] := by
      rw [List.removeAll, List.filter_eq_nil_iff]
      intro y hy
      have hin : y ∈ kept := by
        rw [hwhole, mem_promote, List.mem_eraseDups, List.mem_append]
        exact Or.inr hy
      simp [hin]
    rw [hnone, List.eraseDups_nil, List.append_nil, hranked.promote_eq, List.take_of_length_le hlen]

/-! ## A run -/

/-- What is kept after each list in turn. -/
def enlists (p : α → Bool) (cap : Nat) : (held : List α) → (offers : List (List α)) → List α
  | held, [] => held
  | held, offered :: offers => enlists p cap (enlist p cap held offered) offers

/-- How many different elements have priority. -/
def countFirst (p : α → Bool) (xs : List α) : Nat := (xs.eraseDups.filter p).length

theorem countFirst_le {xs ys : List α} (h : ∀ x ∈ xs, x ∈ ys) : countFirst p xs ≤ countFirst p ys := by
  apply List.Subperm.length_le
  apply List.subperm_of_subset ((eraseDups_nodup xs).filter p)
  intro x hx
  rw [List.mem_filter, List.mem_eraseDups] at hx ⊢
  exact ⟨h x hx.1, hx.2⟩

/-- **Nothing with priority is lost in a run**, as long as all that ever had it fits. -/
theorem mem_enlists {offers : List (List α)} :
    ∀ {held : List α}, countFirst p (held ++ offers.flatten) ≤ cap →
      ∀ x ∈ held ++ offers.flatten, p x = true → x ∈ enlists p cap held offers := by
  induction offers with
  | nil =>
      intro held _ x hx _
      rwa [List.flatten_nil, List.append_nil] at hx
  | cons offered offers ih =>
      intro held hfits x hx hp
      rw [List.flatten_cons, ← List.append_assoc] at hfits hx
      have hin : ∀ y ∈ held ++ offered, p y = true → y ∈ enlist p cap held offered := fun y hy =>
        mem_enlist_of_fits ((countFirst_le fun z hz => List.mem_append_left _ hz).trans hfits)
          (List.mem_append.mp hy)
      apply ih _ x _ hp
      · refine (countFirst_le fun z hz => ?_).trans hfits
        rcases List.mem_append.mp hz with hz | hz
        · exact List.mem_append_left _ (List.mem_append.mpr (mem_of_mem_enlist hz))
        · exact List.mem_append_right _ hz
      · rcases List.mem_append.mp hx with hx | hx
        · exact List.mem_append_left _ (hin x hx hp)
        · exact List.mem_append_right _ hx

theorem enlists_concat {offers : List (List α)} {offered : List α} :
    ∀ {held : List α}, enlists p cap held (offers ++ [offered]) =
      enlist p cap (enlists p cap held offers) offered := by
  induction offers with
  | nil => exact rfl
  | cons _ offers ih => exact ih

theorem length_enlists {offers : List (List α)} :
    ∀ {held : List α}, held.length ≤ cap → (enlists p cap held offers).length ≤ cap := by
  induction offers with
  | nil => exact fun h => h
  | cons _ offers ih => exact fun _ => ih length_enlist

theorem mem_of_mem_enlists {offers : List (List α)} {x : α} :
    ∀ {held : List α}, x ∈ enlists p cap held offers → x ∈ held ++ offers.flatten := by
  induction offers with
  | nil => exact fun h => List.mem_append_left _ h
  | cons offered offers ih =>
      intro held h
      rw [List.flatten_cons]
      rcases List.mem_append.mp (ih h) with h | h
      · rcases mem_of_mem_enlist h with h | h
        · exact List.mem_append_left _ h
        · exact List.mem_append_right _ (List.mem_append_left _ h)
      · exact List.mem_append_right _ (List.mem_append_right _ h)

end DtnCustody.Base
