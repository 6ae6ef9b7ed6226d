/-
# DtnCustody.Base.Backtrack — depth-first search with a budget.

`search n s budget` looks for a run of `n` moves from `s`. At a state it tries the moves in the order
they are listed. A move that can be made costs one unit, and once the budget is overdrawn no move is
made any more, so a search that comes back empty says something only when there is budget left:
then there is no such run (`search_complete`).

What can be moved, and whether asking can fail, is left open.
-/
import Mathlib.Data.List.Basic

namespace DtnCustody.Base.Backtrack

variable {σ ι ε : Type} (moves : σ → List ι) (next : σ → ι → Except ε (Option σ))

/-- The moves of a list, one after another, each followed by a `deeper` search. -/
def tryEach (deeper : σ → Int → Except ε (Option σ × Int)) (s : σ) :
    List ι → Int → Except ε (Option σ × Int)
  | [], budget => .ok (none, budget)
  | e :: es, budget =>
      match next s e with
      | .error err => .error err
      | .ok none => tryEach deeper s es budget
      | .ok (some s') =>
          if budget - 1 < 0 then .ok (none, budget - 1)
          else match deeper s' (budget - 1) with
            | .error err => .error err
            | .ok (some r, left) => .ok (some r, left)
            | .ok (none, left) => tryEach deeper s es left

/-- What the search finds, and what it leaves of the budget. -/
def search : Nat → σ → Int → Except ε (Option σ × Int)
  | 0, s, budget => .ok (some s, budget)
  | n + 1, s, budget => tryEach next (search n) s (moves s) budget

/-- So many moves lead from one state to another. -/
inductive Run : Nat → σ → σ → Prop
  | done (s : σ) : Run 0 s s
  | move {n : Nat} {s s' r : σ} {e : ι} (he : e ∈ moves s) (hnext : next s e = .ok (some s'))
      (hrest : Run n s' r) : Run (n + 1) s r

variable {moves next}

theorem tryEach_sound {deeper : σ → Int → Except ε (Option σ × Int)} {s r : σ} {left : Int}
    {es : List ι} : ∀ {budget : Int}, tryEach next deeper s es budget = .ok (some r, left) →
      ∃ e ∈ es, ∃ s' b, next s e = .ok (some s') ∧ deeper s' b = .ok (some r, left) := by
  induction es with
  | nil => intro budget h; cases h
  | cons e es ih =>
      intro budget h
      have later : ∀ {b : Int}, tryEach next deeper s es b = .ok (some r, left) →
          ∃ e' ∈ e :: es, ∃ s' b, next s e' = .ok (some s') ∧ deeper s' b = .ok (some r, left) := by
        intro b hb
        obtain ⟨e', he', hfound⟩ := ih hb
        exact ⟨e', List.mem_cons_of_mem _ he', hfound⟩
      rw [tryEach] at h
      split at h
      · cases h
      · exact later h
      · rename_i s' hnext
        split at h
        · cases h
        · split at h
          · cases h
          · rename_i hdeeper
            cases h
            exact ⟨e, List.mem_cons_self, s', _, hnext, hdeeper⟩
          · exact later h

/-- **What is found is a run.** -/
theorem search_sound {n : Nat} : ∀ {s r : σ} {budget left : Int},
    search moves next n s budget = .ok (some r, left) → Run moves next n s r := by
  induction n with
  | zero => intro s r budget left h; cases h; exact .done s
  | succ n ih =>
      intro s r budget left h
      obtain ⟨e, he, s', b, hnext, hdeeper⟩ := tryEach_sound h
      exact .move he hnext (ih hdeeper)

theorem tryEach_left_le {deeper : σ → Int → Except ε (Option σ × Int)} {s : σ}
    (hdeeper : ∀ s' b found left, deeper s' b = .ok (found, left) → left ≤ b) {es : List ι}
    {found : Option σ} {left : Int} : ∀ {budget : Int},
      tryEach next deeper s es budget = .ok (found, left) → left ≤ budget := by
  induction es with
  | nil => intro budget h; cases h; exact Int.le_refl _
  | cons e es ih =>
      intro budget h
      rw [tryEach] at h
      split at h
      · cases h
      · exact ih h
      · split at h
        · cases h
          omega
        · split at h
          · cases h
          · rename_i hsome
            cases h
            have := hdeeper _ _ _ _ hsome
            omega
          · rename_i hnone
            have := hdeeper _ _ _ _ hnone
            have := ih h
            omega

/-- The budget only falls. -/
theorem search_left_le {n : Nat} : ∀ {s : σ} {budget left : Int} {found : Option σ},
    search moves next n s budget = .ok (found, left) → left ≤ budget := by
  induction n with
  | zero => intro s budget left found h; cases h; exact Int.le_refl _
  | succ n ih => intro s budget left found h; exact tryEach_left_le (fun _ _ _ _ hd => ih hd) h

/-- With budget left over, every move that could be made was made, and nothing was found behind. -/
theorem tryEach_complete {deeper : σ → Int → Except ε (Option σ × Int)} {s : σ} {left : Int}
    (hdeeper : ∀ s' b found left, deeper s' b = .ok (found, left) → left ≤ b) (hleft : 0 ≤ left)
    {es : List ι} : ∀ {budget : Int}, tryEach next deeper s es budget = .ok (none, left) →
      ∀ e ∈ es, ∀ s', next s e = .ok (some s') →
        ∃ b left', deeper s' b = .ok (none, left') ∧ 0 ≤ left' := by
  induction es with
  | nil => intro budget _ e he; cases he
  | cons e es ih =>
      intro budget h
      rw [List.forall_mem_cons]
      rw [tryEach] at h
      split at h
      · cases h
      · rename_i hnext
        refine ⟨fun s' hs' => ?_, ih h⟩
        rw [hnext] at hs'
        cases hs'
      · rename_i s' hnext
        split at h
        · -- the budget is overdrawn, which is no budget left
          cases h
          omega
        · split at h
          · cases h
          · cases h
          · rename_i left' hnone
            refine ⟨fun s'' hs'' => ?_, ih h⟩
            rw [hnext] at hs''
            cases hs''
            exact ⟨_, left', hnone, Int.le_trans hleft (tryEach_left_le hdeeper h)⟩

/-- **A search that ends empty with budget left**: there is no run. -/
theorem search_complete {n : Nat} : ∀ {s r : σ} {budget left : Int},
    search moves next n s budget = .ok (none, left) → 0 ≤ left → ¬ Run moves next n s r := by
  induction n with
  | zero => intro s r budget left h; cases h
  | succ n ih =>
      intro s r budget left h hleft hrun
      cases hrun with
      | move he hnext hrest =>
          obtain ⟨b, left', hnone, hleft'⟩ :=
            tryEach_complete (fun _ _ _ _ hd => search_left_le hd) hleft h _ he _ hnext
          exact ih hnone hleft' hrest

/-- What `n` moves, with no more than `m` at each state, can cost. -/
def cost (m : Nat) : Nat → Nat
  | 0 => 0
  | n + 1 => m * (1 + cost m n)

theorem tryEach_le_left {deeper : σ → Int → Except ε (Option σ × Int)} {s : σ} {c : Nat}
    (hdeeper : ∀ s' b found left, deeper s' b = .ok (found, left) → b ≤ left + c) {es : List ι}
    {found : Option σ} {left : Int} : ∀ {budget : Int},
      tryEach next deeper s es budget = .ok (found, left) →
        budget ≤ left + ((es.length * (1 + c) : Nat) : Int) := by
  induction es with
  | nil => intro budget h; cases h; omega
  | cons e es ih =>
      intro budget h
      have hlength : (e :: es).length * (1 + c) = es.length * (1 + c) + (1 + c) := by
        rw [List.length_cons, Nat.succ_mul]
      rw [hlength]
      rw [tryEach] at h
      split at h
      · cases h
      · have := ih h
        omega
      · split at h
        · cases h
          omega
        · split at h
          · cases h
          · rename_i hsome
            cases h
            have := hdeeper _ _ _ _ hsome
            omega
          · rename_i hnone
            have := hdeeper _ _ _ _ hnone
            have := ih h
            omega

/-- **A small search does not overdraw its budget.** -/
theorem search_le_left {m : Nat} (hmoves : ∀ s, (moves s).length ≤ m) {n : Nat} :
    ∀ {s : σ} {budget left : Int} {found : Option σ},
      search moves next n s budget = .ok (found, left) → budget ≤ left + (cost m n : Int) := by
  induction n with
  | zero => intro s budget left found h; cases h; exact Int.le_add_of_nonneg_right (by simp)
  | succ n ih =>
      intro s budget left found h
      have htry := tryEach_le_left (fun _ _ _ _ hd => ih hd) h
      have hmul : (moves s).length * (1 + cost m n) ≤ m * (1 + cost m n) :=
        Nat.mul_le_mul_right _ (hmoves s)
      have hcost : cost m (n + 1) = m * (1 + cost m n) := rfl
      omega

theorem tryEach_returns {deeper : σ → Int → Except ε (Option σ × Int)} {s : σ} {es : List ι}
    (hes : ∀ e ∈ es, ∃ o, next s e = .ok o ∧ ∀ s', o = some s' → ∀ b, ∃ x, deeper s' b = .ok x) :
    ∀ budget : Int, ∃ x, tryEach next deeper s es budget = .ok x := by
  induction es with
  | nil => intro budget; exact ⟨_, rfl⟩
  | cons e es ih =>
      intro budget
      rw [List.forall_mem_cons] at hes
      obtain ⟨⟨o, ho, hdeeper⟩, hes⟩ := hes
      rw [tryEach, ho]
      cases o with
      | none => exact ih hes budget
      | some s' =>
          dsimp only
          split
          · exact ⟨_, rfl⟩
          · obtain ⟨⟨found, left⟩, hx⟩ := hdeeper s' rfl (budget - 1)
            rw [hx]
            cases found with
            | none => exact ih hes left
            | some r => exact ⟨_, rfl⟩

/-- A search in which asking never fails returns. -/
theorem search_returns {Good : σ → Prop}
    (hgood : ∀ s, Good s → ∀ e ∈ moves s, ∃ o, next s e = .ok o ∧ ∀ s', o = some s' → Good s')
    {n : Nat} : ∀ {s : σ}, Good s → ∀ budget : Int, ∃ x, search moves next n s budget = .ok x := by
  induction n with
  | zero => intro s _ budget; exact ⟨_, rfl⟩
  | succ n ih =>
      intro s hs budget
      refine tryEach_returns (fun e he => ?_) budget
      obtain ⟨o, ho, hnext⟩ := hgood s hs e he
      exact ⟨o, ho, fun s' hs' => ih (hnext s' hs')⟩

end DtnCustody.Base.Backtrack
