/-
# DtnCustody.Base.Cuts — a reader that does not see where its input is cut.

Input arrives in chunks; after each chunk the reader is asked for results until it waits for more. A
reader is *steady* when more input never changes what it has already read or refused: it waits, or it has
decided. Then the results depend on the bytes alone and not on the chunks (`Steady.results_cut`).

A result need not use anything up, so the results may go on for ever; `results n` is the first `n` of
them, with the error that ended them, if one did.

A reader that takes something off the front of its input is put together of smaller ones. `Extends` says of one
reading and another, of the same input with more behind it, that the first is short of input or that the second has
the same result; it holds of a sequence of two steps when it holds of both (`Extends.bind`). A machine that takes a
chunk in two parts as it takes it at once can be given its input in any chunks (`foldlM_cut`).
-/
import Mathlib.Data.List.Basic

namespace DtnCustody

namespace Base

section Cuts

variable {π μ ε α : Type} (push : π → List α → π) (parse : π → Except ε (Option (μ × π)))

/-- The next result, taking in chunks while the reader waits, with the chunks that are left. -/
def await : π → List (List α) → Except ε (Option (μ × π × List (List α)))
  | p, [] => (parse p).map (Option.map fun r => (r.1, r.2, []))
  | p, c :: cs =>
      match parse p with
      | .error e => .error e
      | .ok (some r) => .ok (some (r.1, r.2, c :: cs))
      | .ok none => await (push p c) cs

/-- The first `n` results, and the error behind them. -/
def results : Nat → π → List (List α) → List μ × Option ε
  | 0, _, _ => ([], none)
  | n + 1, p, cs =>
      match await push parse p cs with
      | .error e => ([], some e)
      | .ok none => ([], none)
      | .ok (some (m, q, later)) =>
          let (ms, e) := results n q later
          (m :: ms, e)

/-- More input changes nothing that was read, and nothing that was refused. -/
structure Steady : Prop where
  push_nil : ∀ p, push p [] = p
  push_push : ∀ p a b, push (push p a) b = push p (a ++ b)
  reads : ∀ {p m q}, parse p = .ok (some (m, q)) → ∀ c, parse (push p c) = .ok (some (m, push q c))
  fails : ∀ {p e}, parse p = .error e → ∀ c, parse (push p c) = .error e

namespace Steady

variable {push parse}

/-- What is read next, and what remains, with everything handed over at once. -/
theorem await_eq (h : Steady push parse) (p : π) (cs : List (List α)) :
    match await push parse p cs with
    | .error e => parse (push p cs.flatten) = .error e
    | .ok none => parse (push p cs.flatten) = .ok none
    | .ok (some (m, q, later)) =>
        parse (push p cs.flatten) = .ok (some (m, push q later.flatten)) := by
  induction cs generalizing p with
  | nil =>
      rw [List.flatten_nil, h.push_nil, await]
      cases hp : parse p with
      | error e => rfl
      | ok r =>
          cases r with
          | none => rfl
          | some r => simp only [Except.map, Option.map_some, List.flatten_nil, h.push_nil]
  | cons c cs ih =>
      rw [await]
      cases hp : parse p with
      | error e => exact h.fails hp _
      | ok r =>
          cases r with
          | none =>
              dsimp only
              rw [List.flatten_cons, ← h.push_push]
              exact ih (push p c)
          | some r => exact h.reads hp _

/-- **Chunks make no difference**: the results are those of the bytes handed over at once. -/
theorem results_eq (h : Steady push parse) (n : Nat) (p : π) (cs : List (List α)) :
    results push parse n p cs = results push parse n (push p cs.flatten) [] := by
  induction n generalizing p cs with
  | zero => rfl
  | succ n ih =>
      have hchunks := h.await_eq p cs
      have hwhole := h.await_eq (push p cs.flatten) []
      rw [List.flatten_nil, h.push_nil] at hwhole
      rw [results, results]
      -- Both sides ask `parse` of the same reader; what it answers decides each of them.
      generalize await push parse p cs = a at hchunks ⊢
      generalize hb : await push parse (push p cs.flatten) [] = b at hwhole ⊢
      rcases a with e | _ | ⟨m, q, later⟩ <;> rcases b with e' | _ | ⟨m', q', later'⟩ <;>
        simp only [hchunks, reduceCtorEq, Except.error.injEq, Except.ok.injEq, Option.some.injEq,
          Prod.mk.injEq] at hwhole
      · rw [hwhole]
      · rfl
      · obtain ⟨rfl, hq⟩ := hwhole
        have hsame : results push parse n q later = results push parse n q' later' := by
          rw [ih q later, ih q' later', hq]
        simp only [hsame]

/-- **The results do not depend on where the input is cut.** -/
theorem results_cut (h : Steady push parse) (n : Nat) (p : π) {cs ds : List (List α)}
    (hflat : cs.flatten = ds.flatten) :
    results push parse n p cs = results push parse n p ds := by
  rw [h.results_eq n p cs, h.results_eq n p ds, hflat]

end Steady

variable {push parse}

/-- One result at the front of what is there. -/
theorem results_read {p q : π} {m : μ} (h : parse p = .ok (some (m, q))) (n : Nat) :
    results push parse (n + 1) p [] =
      (m :: (results push parse n q []).1, (results push parse n q []).2) := by
  rw [results, await, h]
  rfl

/-- A reader that waits with nothing more to come has no further result. -/
theorem results_wait {p : π} (h : parse p = .ok none) (n : Nat) :
    results push parse n p [] = ([], none) := by
  cases n with
  | zero => rfl
  | succ n =>
      rw [results, await, h]
      rfl

end Cuts

/-! ## More input -/

section Extends

variable {ε α β γ : Type} {short : ε} {c : List α}

/-- One reading is short of input, or it is the other one, without the input that the other has behind. -/
def Extends (short : ε) (c : List α) (x y : Except ε (β × List α)) : Prop :=
  x = .error short ∨ y = x.map fun p => (p.1, p.2 ++ c)

theorem Extends.ok (v : β) (r : List α) :
    Extends short c (.ok (v, r)) (.ok (v, r ++ c)) := Or.inr rfl

theorem Extends.error (e : ε) : Extends short c (.error e : Except ε (β × List α)) (.error e) := Or.inr rfl

/-- Nothing more behind. -/
theorem Extends.refl (x : Except ε (β × List α)) : Extends short [] x x := by
  refine Or.inr ?_
  cases x with
  | error e => rfl
  | ok p => exact congrArg Except.ok (Prod.ext rfl (List.append_nil _).symm)

/-- One step after another. -/
theorem Extends.bind {x y : Except ε (β × List α)} {f g : β × List α → Except ε (γ × List α)}
    (h : Extends short c x y) (hf : ∀ v r, Extends short c (f (v, r)) (g (v, r ++ c))) :
    Extends short c (x >>= f) (y >>= g) := by
  rcases h with rfl | rfl
  · exact Or.inl rfl
  · cases x with
    | error e => exact Or.inr rfl
    | ok p => exact hf p.1 p.2

/-- A step that reads nothing. -/
theorem Extends.bind_const {δ : Type} (x : Except ε δ) {f g : δ → Except ε (γ × List α)}
    (hf : ∀ v, Extends short c (f v) (g v)) : Extends short c (x >>= f) (x >>= g) := by
  cases x with
  | error e => exact Or.inr rfl
  | ok v => exact hf v

theorem Extends.ite {p : Prop} [Decidable p] {x x' y y' : Except ε (β × List α)}
    (h : Extends short c x y) (h' : Extends short c x' y') :
    Extends short c (if p then x else x') (if p then y else y') := by
  split
  · exact h
  · exact h'

/-- A reader whose readings are those of any longer input, except where it is short of input. -/
def Stable (short : ε) (f : List α → Except ε (β × List α)) : Prop :=
  ∀ bs c, Extends short c (f bs) (f (bs ++ c))

end Extends

/-! ## Machines -/

section Machine

variable {σ ε α : Type} {feed : σ → List α → Except ε σ} {Inv : σ → Prop}

/-- **Any cut is as good as none**, for a machine that takes a chunk in two parts as it takes it at once. -/
theorem foldlM_cut (hkeep : ∀ {s s' a}, Inv s → a ≠ [] → feed s a = .ok s' → Inv s')
    (hcut : ∀ {s a}, Inv s → a ≠ [] → ∀ b, feed s (a ++ b) = feed s a >>= fun s' => feed s' b) {cs : List (List α)} :
    ∀ {s : σ}, Inv s → cs ≠ [] → (∀ c ∈ cs, c ≠ []) → cs.foldlM feed s = feed s cs.flatten := by
  induction cs with
  | nil => exact fun _ h => absurd rfl h
  | cons c cs ih =>
      intro s hs _ hne
      obtain ⟨hc, hcs⟩ := List.forall_mem_cons.mp hne
      rw [List.foldlM_cons, List.flatten_cons]
      by_cases hlast : cs = []
      · subst hlast
        rw [List.flatten_nil, List.append_nil]
        show (feed s c >>= fun s' => List.foldlM feed s' []) = feed s c
        cases feed s c <;> rfl
      · rw [hcut hs hc]
        cases hfeed : feed s c with
        | error e => rfl
        | ok s' => exact ih (hkeep hs hc hfeed) hlast hcs

end Machine

end Base

end DtnCustody
