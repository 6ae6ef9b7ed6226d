/-
# DtnCustody.Gateway.Refused — what a refused fragment leaves behind.

`_reassemble` drops the sets that have expired, looks up or opens the set of the fragment, and only
then compares the totals and the room. A fragment that is refused where its set was open already
changes nothing; one that is refused for want of room where no set was open leaves a new set behind,
which has no fragment and has this one's total (`storeFragment_refused`). So it leaves no trace exactly
when it is outside its total or its set was there (`refused_no_trace_iff`).
-/
import DtnCustody.Gateway.Shipment
import DtnCustody.Js.Sample

namespace DtnCustody

open Base Js

namespace Gateway

/-! ## Errors that are not refusals -/

/-- The computation throws no error with a text of its own. -/
def Wordless {α : Type} (x : Outcome α) : Prop := ∀ text, x ≠ .error (.error text)

section wordless

variable {α β : Type}

@[simp] theorem wordless_ok (a : α) : Wordless (.ok a : Outcome α) := fun _ h => by cases h

@[simp] theorem wordless_pure (a : α) : Wordless (pure a : Outcome α) := fun _ h => by cases h

@[simp] theorem wordless_typeError : Wordless (.error .typeError : Outcome α) := fun _ h => by cases h

@[simp] theorem wordless_rangeError : Wordless (.error .rangeError : Outcome α) := fun _ h => by cases h

theorem Wordless.ne {x : Outcome α} (hx : Wordless x) {err : Err} (herr : x = .error err)
    (text : String) : err ≠ .error text :=
  fun h => hx text (h ▸ herr)

theorem wordless_bind {x : Outcome α} {f : α → Outcome β} (hx : Wordless x)
    (hf : ∀ a, Wordless (f a)) : Wordless (x >>= f) := by
  cases x with
  | error err =>
      intro text h
      apply hx text
      cases h
      rfl
  | ok a => exact hf a

theorem wordless_ite {c : Prop} [Decidable c] {x y : Outcome α} (hx : Wordless x) (hy : Wordless y) :
    Wordless (if c then x else y) := by
  split
  · exact hx
  · exact hy

end wordless

variable {N : Node}

theorem wordless_toNumber (x : Prim) : Wordless (x.toNumber N) := by
  cases x <;> simp [Prim.toNumber]

/-- A binary operator converts its operands, in order. -/
theorem wordless_operands (x y : Prim) (f : JsNum → JsNum → Prim) :
    Wordless (do return f (← x.toNumber N) (← y.toNumber N)) := by
  apply wordless_bind (wordless_toNumber x)
  intro a
  apply wordless_bind (wordless_toNumber y)
  intro b
  apply wordless_pure

theorem wordless_add (x y : Prim) : Wordless (x.add N y) := by
  unfold Prim.add
  split
  · apply wordless_ok
  · apply wordless_ok
  · apply wordless_ok
  · apply wordless_operands

theorem wordless_sub (x y : Prim) : Wordless (x.sub N y) := by
  unfold Prim.sub
  split
  · apply wordless_ok
  · apply wordless_operands

theorem wordless_fragmentBit (flags : JsVal) : Wordless (Bundle.fragmentBit N flags) :=
  wordless_bind (wordless_toNumber _) fun _ => wordless_pure _

theorem wordless_payloadOf (b : Bundle) : Wordless b.payloadOf := by
  unfold Bundle.payloadOf
  split
  · apply wordless_ok
  · apply wordless_typeError

theorem wordless_outside (offset total : JsVal) (n : Nat) : Wordless (outside N offset total n) :=
  wordless_ite (wordless_ok _) (wordless_bind (wordless_add _ _) fun _ => wordless_pure _)

theorem wordless_insertPart (x : JsVal × Bytes) (ps : List (JsVal × Bytes)) :
    Wordless (insertPart N x ps) := by
  induction ps with
  | nil => apply wordless_ok
  | cons y ys ih =>
      apply wordless_bind
      · exact wordless_bind (wordless_sub _ _) fun _ => wordless_toNumber _
      · intro d
        exact wordless_ite (wordless_pure _) (wordless_bind ih fun _ => wordless_pure _)

theorem wordless_sortParts (ps : List (JsVal × Bytes)) : Wordless (sortParts N ps) := by
  have hfold : ∀ (ps sorted : List (JsVal × Bytes)),
      Wordless (ps.foldlM (fun sorted p => insertPart N p sorted) sorted) := by
    intro ps
    induction ps with
    | nil => exact fun sorted => wordless_pure sorted
    | cons p ps ih => exact fun sorted => wordless_bind (wordless_insertPart p sorted) ih
  exact hfold ps []

theorem wordless_sweepParts (ps : List (JsVal × Bytes)) :
    ∀ reach, Wordless (sweepParts N reach ps) := by
  induction ps with
  | nil => exact fun reach => wordless_ok _
  | cons p ps ih =>
      intro reach
      apply wordless_ite (wordless_ok _)
      apply wordless_bind (wordless_add _ _)
      intro stop
      exact wordless_bind (wordless_toNumber stop) fun stop => ih _

theorem wordless_copyStart (offset : JsVal) : Wordless (copyStart N offset) := by
  apply wordless_bind (wordless_toNumber _)
  intro x
  cases x with
  | nan => apply wordless_pure
  | inf negative => apply wordless_pure
  | fin q => exact wordless_ite (wordless_pure _) (wordless_ite wordless_rangeError (wordless_pure _))

theorem wordless_copyParts (ps : List (JsVal × Bytes)) : ∀ buf, Wordless (copyParts N buf ps) := by
  induction ps with
  | nil => exact fun buf => wordless_ok buf
  | cons p ps ih => exact fun buf => wordless_bind (wordless_copyStart _) fun _ => ih _

theorem wordless_allocLength (v : JsVal) : Wordless (allocLength v) := by
  unfold allocLength
  split
  · exact wordless_ite wordless_typeError (wordless_ite wordless_rangeError (wordless_ok _))
  · apply wordless_typeError

theorem wordless_ready (e : Entry) : Wordless (ready N e) := by
  apply wordless_bind (wordless_sortParts e.parts)
  intro sorted
  apply wordless_bind (wordless_sweepParts sorted _)
  intro reached
  cases reached with
  | none => apply wordless_pure
  | some stop => exact wordless_ite (wordless_pure _) (wordless_pure _)

theorem wordless_wholeBundle (first : Bundle) (payload : Bytes) :
    Wordless (wholeBundle N first payload) :=
  wordless_bind (wordless_bind (wordless_toNumber _) fun _ => wordless_ok _) fun _ => wordless_pure _

/-- Once a fragment is stored, it is not refused any more. -/
theorem wordless_finish (s : State) (key : JsString) (e : Entry) : Wordless (finish N s key e).2 := by
  unfold finish
  split
  · rename_i err herr
    exact fun text h => (wordless_ready e).ne herr text (Except.error.inj h)
  · apply wordless_ok
  · rename_i first sorted _
    have hcopy : Wordless (do copyParts N (List.replicate (← allocLength e.total) 0) sorted) :=
      wordless_bind (wordless_allocLength e.total) fun n => wordless_copyParts sorted _
    split
    · rename_i err herr
      exact fun text h => hcopy.ne herr text (Except.error.inj h)
    · exact wordless_bind (wordless_wholeBundle first _) fun _ => wordless_pure _

/-! ## Sets that expire -/

variable {cfg : Config} {now : Int} {s : State}

/-- The set has been waiting too long. -/
def Entry.expired (cfg : Config) (now : Int) (e : Entry) : Bool :=
  exceeds (now - e.since) cfg.lifetimeMs

theorem get?_expireAll (key : JsString) {es : List (JsString × Entry)} :
    ∀ {s : State}, (es.map Prod.fst).Nodup → (∀ p ∈ es, s.partials.get? p.1 = some p.2) →
      (es.foldl (fun s p =>
        if exceeds (now - p.2.since) cfg.lifetimeMs then
          { s with partials := s.partials.delete p.1, partialBytes := s.partialBytes - p.2.bytes }
        else s) s).partials.get? key =
      if key ∈ es.map Prod.fst then (s.partials.get? key).filter fun e => !e.expired cfg now
      else s.partials.get? key := by
  induction es with
  | nil => exact fun _ _ => rfl
  | cons p es ih =>
      intro s hkeys hget
      rw [List.map_cons, List.nodup_cons] at hkeys
      rw [List.forall_mem_cons] at hget
      -- the other keys are looked up after `p`'s set is dropped as before
      have hdropped : ∀ k, k ≠ p.1 → (s.partials.delete p.1).get? k = s.partials.get? k :=
        fun k hk => JsMap.get?_delete_ne _ hk
      have hne : ∀ q ∈ es, q.1 ≠ p.1 := fun q hq heq => hkeys.1 (heq ▸ List.mem_map_of_mem hq)
      rw [List.foldl_cons, List.map_cons]
      by_cases hkey : key = p.1
      · subst hkey
        rw [if_pos List.mem_cons_self, hget.1, Option.filter]
        by_cases hexp : exceeds (now - p.2.since) cfg.lifetimeMs = true
        · rw [if_pos hexp, ih hkeys.2 fun q hq => (hdropped q.1 (hne q hq)).trans (hget.2 q hq),
            if_neg hkeys.1]
          show (s.partials.delete p.1).get? p.1 = _
          rw [JsMap.get?_delete_self, Entry.expired, hexp]
          rfl
        · rw [if_neg hexp, ih hkeys.2 hget.2, if_neg hkeys.1, hget.1, Entry.expired,
            eq_false_of_ne_true hexp]
          rfl
      · simp only [List.mem_cons, hkey, false_or]
        split
        · rw [ih hkeys.2 fun q hq => (hdropped q.1 (hne q hq)).trans (hget.2 q hq)]
          dsimp only
          rw [hdropped key hkey]
        · exact ih hkeys.2 hget.2

/-- **What is left of the sets** is those that have not expired. -/
theorem get?_expire (key : JsString) : (expire cfg now s).partials.get? key =
    (s.partials.get? key).filter fun e => !e.expired cfg now := by
  rw [expire, get?_expireAll key s.partials.nodup fun _ hp => JsMap.mem_entries_iff.mp hp]
  split
  · rfl
  · rename_i hkey
    rw [JsMap.get?_eq_none_iff.mpr hkey]
    rfl

/-- A set is there and has not expired. -/
def Waiting (cfg : Config) (now : Int) (s : State) (key : JsString) : Prop :=
  ∃ e, s.partials.get? key = some e ∧ e.expired cfg now = false

theorem has_expire_iff {key : JsString} :
    (expire cfg now s).partials.has key = true ↔ Waiting cfg now s key := by
  rw [JsMap.has, get?_expire, Waiting, Option.isSome_filter, Option.any_eq_true]
  simp

/-! ## Refusals -/

variable {b : Bundle} {text : String}

/-- `p.fragmentOffset + part.length > p.totalAduLength`, with the length that the bundle has. -/
def outsideTotal (N : Node) (b : Bundle) : Outcome Bool := do
  outside N b.primary.fragmentOffset b.primary.totalAduLength (← b.payloadOf).length

/-- The state before, without the sets that a fragment inside its total finds expired. -/
def swept (N : Node) (cfg : Config) (now : Int) (s : State) (b : Bundle) : State :=
  match outsideTotal N b with
  | .ok true => s
  | _ => expire cfg now s

/-- A fragment that is refused after the sweep: its set is opened, and nothing else is done. -/
theorem storeFragment_refused {part : Bytes}
    (h : (storeFragment N cfg now s b part).2 = .error (.error text)) :
    (storeFragment N cfg now s b part).1 = opened s now b.primary := by
  unfold storeFragment at h ⊢
  dsimp only at h ⊢
  split
  · rfl
  · rename_i hagree
    rw [if_neg hagree] at h
    split
    · rfl
    · rename_i hfits
      rw [if_neg hfits] at h
      exact absurd h (wordless_finish _ _ _ text)

/-- **What a refusal does to the state**: the set of a fragment inside its total is opened. -/
theorem reassemble_refused (h : (reassemble N cfg now s b).2 = .error (.error text)) :
    outsideTotal N b = .ok true ∧ (reassemble N cfg now s b).1 = s ∨
      outsideTotal N b = .ok false ∧
        (reassemble N cfg now s b).1 = opened (expire cfg now s) now b.primary := by
  unfold reassemble at h ⊢
  cases hbit : Bundle.fragmentBit N (some b.primary.flags) with
  | error err =>
      rw [hbit] at h
      exact absurd (Except.error.inj h) ((wordless_fragmentBit _).ne hbit text)
  | ok frag =>
      rw [hbit] at h
      dsimp only at h ⊢
      split at h
      · cases h
      · rename_i hfrag
        rw [if_neg hfrag]
        cases hpart : b.payloadOf with
        | error err =>
            rw [hpart] at h
            exact absurd (Except.error.inj h) ((wordless_payloadOf b).ne hpart text)
        | ok part =>
            rw [hpart] at h
            dsimp only at h ⊢
            rw [outsideTotal, hpart, Outcome.ok_bind]
            cases hout : outside N b.primary.fragmentOffset b.primary.totalAduLength part.length with
            | error err =>
                rw [hout] at h
                exact absurd (Except.error.inj h) ((wordless_outside _ _ _).ne hout text)
            | ok out =>
                rw [hout] at h
                cases out with
                | true => exact Or.inl ⟨rfl, rfl⟩
                | false => exact Or.inr ⟨rfl, storeFragment_refused h⟩

/-! ## Traces -/

/-- What `_reassemble` answers to the fragments of later times. -/
def answers (N : Node) (cfg : Config) : State → List (Int × Bundle) → List (Outcome (Option Bundle))
  | _, [] => []
  | s, (now, b) :: later =>
      (reassemble N cfg now s b).2 :: answers N cfg (reassemble N cfg now s b).1 later

/-- **No trace**: the sets, with their fragments, totals and bytes, are the same, so are the bytes in
all, and whatever comes later is answered alike. -/
structure NoTrace (N : Node) (cfg : Config) (before after : State) : Prop where
  partials : after.partials = before.partials
  partialBytes : after.partialBytes = before.partialBytes
  later : ∀ later, answers N cfg after later = answers N cfg before later

/-- **A refused fragment leaves no trace** exactly when it lies outside its total or its set was
there. -/
theorem refused_no_trace_iff (N : Node) (cfg : Config) (now : Int) (s : State) (b : Bundle) (text : String)
    (h : (reassemble N cfg now s b).2 = .error (.error text)) :
    NoTrace N cfg (swept N cfg now s b) (reassemble N cfg now s b).1 ↔
      outsideTotal N b = .ok true ∨ Waiting cfg now s (keyOf b.primary) := by
  rcases reassemble_refused h with ⟨hout, hstate⟩ | ⟨hin, hstate⟩
  · rw [hstate, swept, hout]
    exact ⟨fun _ => Or.inl rfl, fun _ => ⟨rfl, rfl, fun _ => rfl⟩⟩
  · rw [hstate, swept, hin, ← has_expire_iff, opened]
    dsimp only
    constructor
    · intro hno
      right
      by_contra hhas
      have hpartials := hno.partials
      rw [if_neg hhas] at hpartials
      apply hhas
      rw [← hpartials, JsMap.has, JsMap.get?_set_self]
      rfl
    · intro hopen
      rw [if_pos (hopen.resolve_left fun hc => by cases hc)]
      exact ⟨rfl, rfl, fun _ => rfl⟩

/-- A gateway that holds 10 bytes at most. -/
def smallBuffer : Config where
  lifetimeMs := .fin 60000
  maxReassemblyBytes := .fin 10

/-- Fragments of one bundle. -/
def sampleFragment (offset total length : Nat) : Bundle where
  primary := { flags := .int 1, crcType := .int 2, dest := "ipn:2.1", source := "ipn:1.1",
               reportTo := "dtn:none", created := (.val (.int 1000), .val (.int 1)),
               lifetime := .int 60000, fragmentOffset := some (.int offset),
               totalAduLength := some (.int total) }
  blocks := [{ type := .int 1, number := .int 1, flags := .int 0, crcType := .int 2,
               data := List.replicate length 7 }]

/-- The first third of a bundle of 15 bytes is there. -/
def sampleState : State := (reassemble sampleNode smallBuffer 0 {} (sampleFragment 0 15 5)).1

/-- The rest does not fit, and is refused without a trace. -/
theorem refused_rest : NoTrace sampleNode smallBuffer
    (swept sampleNode smallBuffer 1 sampleState (sampleFragment 5 15 10))
    (reassemble sampleNode smallBuffer 1 sampleState (sampleFragment 5 15 10)).1 :=
  (refused_no_trace_iff sampleNode smallBuffer 1 sampleState (sampleFragment 5 15 10)
    "reassembly buffer full" (by decide +kernel)).mpr (Or.inr (has_expire_iff.mp (by decide +kernel)))

/-- **A forged total outlives its refusal.** A fragment of 100 bytes in all does not fit, and from then
on a bundle of 5 bytes, which fits, is refused for its total. -/
theorem refused_total_stays :
    (reassemble sampleNode smallBuffer 0 {} (sampleFragment 0 100 20)).2 =
      .error (.error "reassembly buffer full") ∧
    ¬ NoTrace sampleNode smallBuffer {}
      (reassemble sampleNode smallBuffer 0 {} (sampleFragment 0 100 20)).1 ∧
    (answers sampleNode smallBuffer {} [(1, sampleFragment 0 5 5)]).map
      (fun x => x.toOption.isSome) = [true] ∧
    answers sampleNode smallBuffer (reassemble sampleNode smallBuffer 0 {} (sampleFragment 0 100 20)).1
      [(1, sampleFragment 0 5 5)] = [.error (.error "fragments disagree on the total length")] := by
  refine ⟨by decide +kernel, fun h => ?_, by decide +kernel, by decide +kernel⟩
  have hsize : (reassemble sampleNode smallBuffer 0 {} (sampleFragment 0 100 20)).1.partials.size = 1 := by
    decide +kernel
  rw [h.partials] at hsize
  exact absurd hsize (by decide +kernel)

end Gateway

end DtnCustody
