/-
# DtnCustody.Js.Check — checks that pass, refuse or throw, one after the other.

A verifier is a sequence of checks. Each of them passes with what the next ones need, refuses with a
reason that ends the sequence, or throws. `Returns` says that a computation does not throw. What makes
a whole sequence return is said check by check: the first returns, and where it passes the rest does
(`returns_andThen`); a loop returns when every turn it comes to does (`returns_loop`).
-/
import DtnCustody.Js.Operators

namespace DtnCustody.Js

/-- The computation does not throw. -/
def Outcome.Returns {α : Type} (x : Outcome α) : Prop := ∃ a, x = .ok a

@[simp] theorem Outcome.returns_ok {α : Type} (a : α) : Outcome.Returns (.ok a) := ⟨a, rfl⟩

@[simp] theorem Outcome.returns_pure {α : Type} (a : α) : Outcome.Returns (pure a : Outcome α) :=
  ⟨a, rfl⟩

@[simp] theorem Outcome.not_returns_error {α : Type} (e : Err) :
    ¬ Outcome.Returns (.error e : Outcome α) := by
  rintro ⟨a, h⟩
  cases h

theorem Outcome.returns_bind {α β : Type} {x : Outcome α} {f : α → Outcome β} :
    Outcome.Returns (x >>= f) ↔ Outcome.Returns x ∧ ∀ a, x = .ok a → Outcome.Returns (f a) := by
  cases x with
  | error e => simp
  | ok a => simp

/-- A value that is computed and handed on returns when it can be computed. -/
theorem Outcome.returns_map {α β : Type} {x : Outcome α} {f : α → β} :
    Outcome.Returns (x >>= fun a => pure (f a)) ↔ Outcome.Returns x := by
  rw [returns_bind]
  exact ⟨And.left, fun h => ⟨h, fun a _ => returns_pure (f a)⟩⟩

theorem Outcome.returns_ite {α : Type} {c : Prop} [Decidable c] {x y : Outcome α} :
    Outcome.Returns (if c then x else y) ↔
      (c → Outcome.Returns x) ∧ (¬ c → Outcome.Returns y) := by
  by_cases h : c
  · simp [h]
  · simp [h]

/-- A loop over a list returns when every turn does. -/
theorem Outcome.returns_mapM {α β : Type} {f : α → Outcome β} {xs : List α} :
    Outcome.Returns (xs.mapM f) ↔ ∀ x ∈ xs, Outcome.Returns (f x) := by
  induction xs with
  | nil => exact iff_of_true (Outcome.returns_ok _) (fun _ hx => by cases hx)
  | cons x xs ih =>
      rw [List.mapM_cons, Outcome.returns_bind, List.forall_mem_cons]
      refine and_congr_right fun ⟨y, hy⟩ => ?_
      rw [← ih]
      exact ⟨fun h => Outcome.returns_map.mp (h y hy), fun h _ _ => Outcome.returns_map.mpr h⟩

/-- A check: it refuses with a `ρ`, or passes with an `α`. -/
abbrev Check (ρ α : Type) := Outcome (ρ ⊕ α)

namespace Check

variable {ρ α β : Type}

def pass (a : α) : Check ρ α := .ok (.inr a)

def refuse (r : ρ) : Check ρ α := .ok (.inl r)

/-- One check and, where it passes, the next. -/
def andThen (x : Check ρ α) (f : α → Check ρ β) : Check ρ β :=
  match x with
  | .error e => .error e
  | .ok (.inl r) => refuse r
  | .ok (.inr a) => f a

/-- The same check, with another way to say what it refuses for. -/
def orRefuse {ρ' : Type} (x : Check ρ α) (g : ρ → ρ') : Check ρ' α :=
  match x with
  | .error e => .error e
  | .ok (.inl r) => refuse (g r)
  | .ok (.inr a) => pass a

/-- A computation as a check that never refuses. -/
def eval (x : Outcome α) : Check ρ α :=
  match x with
  | .error e => .error e
  | .ok a => pass a

/-- The check passes with `a`. -/
def Passes (x : Check ρ α) (a : α) : Prop := x = .ok (.inr a)

@[simp] theorem pass_andThen (a : α) (f : α → Check ρ β) : (pass a).andThen f = f a := rfl

@[simp] theorem refuse_andThen (r : ρ) (f : α → Check ρ β) :
    (refuse r : Check ρ α).andThen f = refuse r := rfl

@[simp] theorem error_andThen (e : Err) (f : α → Check ρ β) :
    andThen (.error e : Check ρ α) f = .error e := rfl

@[simp] theorem returns_pass (a : α) : Outcome.Returns (pass a : Check ρ α) := ⟨_, rfl⟩

@[simp] theorem returns_refuse (r : ρ) : Outcome.Returns (refuse r : Check ρ α) := ⟨_, rfl⟩

@[simp] theorem passes_pass {a b : α} : Passes (pass a : Check ρ α) b ↔ a = b := by
  simp [Passes, pass]

@[simp] theorem not_passes_refuse {r : ρ} {a : α} : ¬ Passes (refuse r : Check ρ α) a := by
  simp [Passes, refuse]

/-- **A sequence returns** when its first check does and, where that passes, the rest does. -/
theorem returns_andThen {x : Check ρ α} {f : α → Check ρ β} :
    Outcome.Returns (x.andThen f) ↔
      Outcome.Returns x ∧ ∀ a, x.Passes a → Outcome.Returns (f a) := by
  rcases x with e | r | a
  · simp [andThen]
  · simp [andThen, Passes]
  · simp [andThen, Passes]

theorem passes_andThen {x : Check ρ α} {f : α → Check ρ β} {b : β} :
    (x.andThen f).Passes b ↔ ∃ a, x.Passes a ∧ (f a).Passes b := by
  rcases x with e | r | a
  · simp [andThen, Passes]
  · simp [andThen, Passes, refuse]
  · simp [andThen, Passes]

/-- A test that refuses with `r` unless it holds. -/
def require (c : Bool) (r : ρ) : Check ρ Unit := if c then pass () else refuse r

@[simp] theorem returns_require (c : Bool) (r : ρ) : Outcome.Returns (require c r) := by
  unfold require
  split
  · exact returns_pass ()
  · exact returns_refuse r

@[simp] theorem passes_require {c : Bool} {r : ρ} {u : Unit} :
    (require c r).Passes u ↔ c = true := by
  cases c <;> simp [require]

@[simp] theorem returns_eval {x : Outcome α} :
    Outcome.Returns (eval x : Check ρ α) ↔ Outcome.Returns x := by
  cases x with
  | error e => simp [eval]
  | ok a => simp [eval]

@[simp] theorem passes_eval {x : Outcome α} {a : α} :
    Passes (eval x : Check ρ α) a ↔ x = .ok a := by
  cases x with
  | error e => simp [eval, Passes]
  | ok b => simp [eval]

@[simp] theorem returns_orRefuse {ρ' : Type} {x : Check ρ α} {g : ρ → ρ'} :
    Outcome.Returns (x.orRefuse g) ↔ Outcome.Returns x := by
  rcases x with e | r | a
  · simp [orRefuse]
  · simp [orRefuse]
  · simp [orRefuse]

@[simp] theorem passes_orRefuse {ρ' : Type} {x : Check ρ α} {g : ρ → ρ'} {a : α} :
    (x.orRefuse g).Passes a ↔ x.Passes a := by
  rcases x with e | r | b
  · simp [orRefuse, Passes]
  · simp [orRefuse, Passes, refuse]
  · simp [orRefuse, Passes, pass]

/-! ## Loops -/

variable {ι σ : Type}

/-- A check for every element, with a state that each of them hands on. The check is also given the
elements before it. -/
def loop (turn : List ι → σ → ι → Check ρ σ) : (before : List ι) → σ → List ι → Check ρ σ
  | _, s, [] => pass s
  | before, s, x :: xs => (turn before s x).andThen fun s' => loop turn (before ++ [x]) s' xs

theorem loop_append {turn : List ι → σ → ι → Check ρ σ} {before xs ys : List ι} {s : σ} :
    loop turn before s (xs ++ ys) =
      (loop turn before s xs).andThen fun s' => loop turn (before ++ xs) s' ys := by
  induction xs generalizing before s with
  | nil => simp [loop]
  | cons x xs ih =>
      rw [List.cons_append, loop, loop]
      rcases turn before s x with e | r | s'
      · rfl
      · rfl
      · show loop turn (before ++ [x]) s' (xs ++ ys) = _
        rw [ih, List.append_assoc]
        rfl

/-- **A loop returns** when every turn it comes to does. -/
theorem returns_loop {turn : List ι → σ → ι → Check ρ σ} {xs : List ι} :
    ∀ {before : List ι} {s : σ}, Outcome.Returns (loop turn before s xs) ↔
      ∀ front x back, xs = front ++ x :: back → ∀ s', (loop turn before s front).Passes s' →
        Outcome.Returns (turn (before ++ front) s' x) := by
  induction xs with
  | nil =>
      intro before s
      refine ⟨fun _ front x back h => ?_, fun _ => returns_pass s⟩
      simp at h
  | cons y ys ih =>
      intro before s
      rw [loop, returns_andThen]
      constructor
      · rintro ⟨hfirst, hrest⟩ front x back hxs s' hs'
        cases front with
        | nil =>
            cases hxs
            rw [loop, passes_pass] at hs'
            subst hs'
            rwa [List.append_nil]
        | cons z front =>
            cases hxs
            rw [loop, passes_andThen] at hs'
            obtain ⟨t, ht, hs'⟩ := hs'
            have hturn := ih.mp (hrest t ht) front x back rfl s' hs'
            rwa [List.append_assoc] at hturn
      · intro h
        refine ⟨?_, fun t ht => ih.mpr ?_⟩
        · have hfirst := h [] y ys rfl s (passes_pass.mpr rfl)
          rwa [List.append_nil] at hfirst
        · rintro front x back rfl s' hs'
          have hturn := h (y :: front) x back rfl s' (passes_andThen.mpr ⟨t, ht, hs'⟩)
          rwa [List.append_assoc]

end Check

end DtnCustody.Js
