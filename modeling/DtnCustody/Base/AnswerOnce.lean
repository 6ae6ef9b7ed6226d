/-
# DtnCustody.Base.AnswerOnce — work done once for a key, and answered the same ever after.

A server looks a request's key up among the answers it has given. It answers a known key from there,
and otherwise calls for the work and records the answer when the work is done. Looking up and recording
are two steps, and other requests may come in between.

`Run.once` is what holds of every run in which no request comes for a key that is being worked on
(`Apart`): one call for each key, and one answer. `overtaken` is what the next step does otherwise.

Nothing here names the work.
-/
import Mathlib.Data.List.Count
import Mathlib.Data.List.Nodup
import Mathlib.Logic.Function.Basic

namespace DtnCustody.Base.AnswerOnce

variable {κ ν : Type} [DecidableEq κ]

inductive Act (κ ν : Type) where
  | called (k : κ)
  | answered (k : κ) (v : ν)

/-- The answers given, the keys being worked on, and all that was done so far. -/
structure State (κ ν : Type) where
  done : κ → Option ν
  pending : List κ
  history : List (Act κ ν)

inductive Event (κ ν : Type) where
  | arrive (k : κ)
  /-- The work on the key at this place of `pending` is done. -/
  | finish (i : Nat) (v : ν)

def State.new : State κ ν := { done := fun _ => none, pending := [], history := [] }

def step (s : State κ ν) : Event κ ν → State κ ν
  | .arrive k =>
      match s.done k with
      | some v => { s with history := s.history ++ [.answered k v] }
      | none => { s with pending := s.pending ++ [k], history := s.history ++ [.called k] }
  | .finish i v =>
      match s.pending[i]? with
      | none => s
      | some k =>
          { done := Function.update s.done k (some v), pending := s.pending.eraseIdx i
            history := s.history ++ [.answered k v] }

def run (s : State κ ν) (events : List (Event κ ν)) : State κ ν := events.foldl step s

/-- The request is not for a key without an answer that is being worked on. -/
def Apart (s : State κ ν) : Event κ ν → Prop
  | .arrive k => s.done k = none → k ∉ s.pending
  | .finish .. => True

/-- Every step of the run is apart. -/
def Calm : State κ ν → List (Event κ ν) → Prop
  | _, [] => True
  | s, ev :: rest => Apart s ev ∧ Calm (step s ev) rest

/-- The calls made for a key. -/
def calls (s : State κ ν) (k : κ) : Nat :=
  s.history.countP fun a => match a with
    | .called k' => decide (k' = k)
    | .answered .. => false

/-- What runs keep: a key is called for once, on the way from neither pending nor done to pending, and
every answer is the one on record. -/
structure Inv (s : State κ ν) : Prop where
  nodup : s.pending.Nodup
  unanswered : ∀ k ∈ s.pending, s.done k = none
  once : ∀ k, calls s k ≤ 1
  started : ∀ k, 0 < calls s k → k ∈ s.pending ∨ (s.done k).isSome
  answers : ∀ k v, .answered k v ∈ s.history → s.done k = some v

theorem inv_new : Inv (State.new : State κ ν) where
  nodup := List.nodup_nil
  unanswered := fun _ h => absurd h List.not_mem_nil
  once := fun _ => Nat.zero_le 1
  started := fun _ h => absurd h (Nat.lt_irrefl 0)
  answers := fun _ _ h => absurd h List.not_mem_nil

theorem calls_called (s : State κ ν) (k k' : κ) (pending : List κ) :
    calls { s with pending, history := s.history ++ [.called k] } k' =
      calls s k' + if k = k' then 1 else 0 := by
  unfold calls
  rw [List.countP_append, List.countP_singleton]
  simp

theorem calls_answered (s : State κ ν) (k k' : κ) (v : ν) (done : κ → Option ν) (pending : List κ) :
    calls { done, pending, history := s.history ++ [.answered k v] } k' = calls s k' := by
  unfold calls
  rw [List.countP_append, List.countP_singleton]
  simp

/-- **A request that is apart keeps the record straight.** -/
theorem Inv.arrive {s : State κ ν} (h : Inv s) {k : κ} (hapart : s.done k = none → k ∉ s.pending) :
    Inv (step s (.arrive k)) := by
  unfold step
  dsimp only
  cases hdone : s.done k with
  | some v =>
      refine ⟨h.nodup, h.unanswered, ?_, ?_, ?_⟩
      · intro k'
        rw [calls_answered]
        exact h.once k'
      · intro k' hk'
        rw [calls_answered] at hk'
        exact h.started k' hk'
      · intro k' v' hmem
        rcases List.mem_append.mp hmem with hold | hnew
        · exact h.answers k' v' hold
        · cases List.mem_singleton.mp hnew
          exact hdone
  | none =>
      have hapart := hapart hdone
      have hnone : calls s k = 0 := by
        by_contra hcalls
        rcases h.started k (by omega) with hpending | hsome
        · exact hapart hpending
        · rw [hdone] at hsome
          cases hsome
      refine ⟨?_, ?_, ?_, ?_, ?_⟩
      · exact List.Nodup.append h.nodup (List.nodup_singleton k) (by simpa using hapart)
      · intro k' hk'
        rcases List.mem_append.mp hk' with hold | hnew
        · exact h.unanswered k' hold
        · rw [List.mem_singleton.mp hnew]
          exact hdone
      · intro k'
        rw [calls_called]
        split
        · rename_i heq
          have hzero : calls s k' = 0 := heq ▸ hnone
          omega
        · exact h.once k'
      · intro k' hk'
        rw [calls_called] at hk'
        split at hk'
        · rename_i heq
          exact Or.inl (heq ▸ List.mem_append_right _ (List.mem_singleton.mpr rfl))
        · rcases h.started k' hk' with hpending | hsome
          · exact Or.inl (List.mem_append_left _ hpending)
          · exact Or.inr hsome
      · intro k' v' hmem
        rcases List.mem_append.mp hmem with hold | hnew
        · exact h.answers k' v' hold
        · cases List.mem_singleton.mp hnew

/-- The answer to a key that was pending is its first. -/
theorem Inv.finish {s : State κ ν} (h : Inv s) (i : Nat) (v : ν) : Inv (step s (.finish i v)) := by
  unfold step
  dsimp only
  cases hi : s.pending[i]? with
  | none => exact h
  | some k =>
      dsimp only
      have hk : k ∈ s.pending := List.mem_of_getElem? hi
      have hnone : s.done k = none := h.unanswered k hk
      have hself : Function.update s.done k (some v) k = some v := Function.update_self ..
      have hother : ∀ {k'}, k' ≠ k → Function.update s.done k (some v) k' = s.done k' := fun hne =>
        Function.update_of_ne hne ..
      have hsplit : ∀ k' ∈ s.pending.eraseIdx i, k' ∈ s.pending ∧ k' ≠ k := by
        intro k' hk'
        refine ⟨List.mem_of_mem_eraseIdx hk', ?_⟩
        rintro rfl
        obtain ⟨hlt, hget⟩ := List.getElem?_eq_some_iff.mp hi
        rw [List.mem_eraseIdx_iff_getElem?] at hk'
        obtain ⟨j, hji, hj⟩ := hk'
        obtain ⟨hjlt, hjget⟩ := List.getElem?_eq_some_iff.mp hj
        exact hji ((List.Nodup.getElem_inj_iff h.nodup).mp (hjget.trans hget.symm))
      refine ⟨h.nodup.sublist (List.eraseIdx_sublist ..), ?_, ?_, ?_, ?_⟩
      · intro k' hk'
        obtain ⟨hold, hne⟩ := hsplit k' hk'
        exact (hother hne).trans (h.unanswered k' hold)
      · intro k'
        rw [calls_answered]
        exact h.once k'
      · intro k' hk'
        rw [calls_answered] at hk'
        by_cases heq : k' = k
        · refine Or.inr (Option.isSome_iff_exists.mpr ⟨v, ?_⟩)
          rw [heq]
          exact hself
        · dsimp only
          rw [hother heq]
          rcases h.started k' hk' with hpending | hsome
          · refine Or.inl ?_
            obtain ⟨j, hj⟩ := List.mem_iff_getElem?.mp hpending
            apply List.mem_eraseIdx_iff_getElem?.mpr
            refine ⟨j, ?_, hj⟩
            rintro rfl
            rw [hi] at hj
            exact heq (Option.some.inj hj).symm
          · exact Or.inr hsome
      · intro k' v' hmem
        rcases List.mem_append.mp hmem with hold | hnew
        · have hne : k' ≠ k := by
            rintro rfl
            rw [h.answers k' v' hold] at hnone
            cases hnone
          exact (hother hne).trans (h.answers k' v' hold)
        · cases List.mem_singleton.mp hnew
          exact hself

theorem Inv.step {s : State κ ν} (h : Inv s) {ev : Event κ ν} (hapart : Apart s ev) :
    Inv (step s ev) := by
  cases ev with
  | arrive k => exact h.arrive hapart
  | finish i v => exact h.finish i v

/-- **Apart, a run keeps the record straight.** -/
theorem Inv.run {s : State κ ν} (h : Inv s) {events : List (Event κ ν)} (hcalm : Calm s events) :
    Inv (run s events) := by
  induction events generalizing s with
  | nil => exact h
  | cons ev rest ih => exact ih (h.step hcalm.1) hcalm.2

theorem run_append (s : State κ ν) (front back : List (Event κ ν)) :
    run s (front ++ back) = run (run s front) back := List.foldl_append ..

theorem Calm.append {front back : List (Event κ ν)} : ∀ {s : State κ ν}, Calm s front →
    Calm (AnswerOnce.run s front) back → Calm s (front ++ back) := by
  induction front with
  | nil => intro s _ hback; exact hback
  | cons ev rest ih => intro s hfront hback; exact ⟨hfront.1, ih hfront.2 hback⟩

/-- Two answers for one key are the same. -/
theorem Inv.same {s : State κ ν} (h : Inv s) {k : κ} {v w : ν} (hv : .answered k v ∈ s.history)
    (hw : .answered k w ∈ s.history) : v = w :=
  Option.some.inj ((h.answers k v hv).symm.trans (h.answers k w hw))

/-- A request for a key that is being worked on calls for the work again. -/
theorem overtaken {s : State κ ν} (h : Inv s) {k : κ} (hk : k ∈ s.pending) :
    calls (step s (.arrive k)) k = calls s k + 1 := by
  unfold step
  dsimp only
  rw [h.unanswered k hk]
  dsimp only
  rw [calls_called, if_pos rfl]

end DtnCustody.Base.AnswerOnce
