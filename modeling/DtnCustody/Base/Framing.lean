/-
# DtnCustody.Base.Framing — receive loops, and messages cut out of a byte stream.

A receive loop takes one turn after another until there is none left. What one turn keeps, the loop
keeps (`drain_keeps`); a loop whose turns use something up comes to its end (`drain_settles`).

A reader is *framed* by an encoder when it finds one whole message at the front of its buffer and
waits on anything less. Then it does not matter where the stream is cut: what is in the buffer and what
is still in flight are, together, the messages that have not been read (`Framed.next`), and a reader
that waits while nothing is in flight has read them all (`Framed.settled`).
-/
import Mathlib.Logic.Relation
import Mathlib.Data.List.Infix

namespace DtnCustody

namespace Base

/-! ## Loops -/

section Loop

variable {σ : Type} (turn : σ → Option σ)

/-- At most that many turns. -/
def drain : Nat → σ → σ
  | 0, s => s
  | n + 1, s =>
      match turn s with
      | none => s
      | some s' => drain n s'

theorem drain_of_none {s : σ} (h : turn s = none) (n : Nat) : drain turn n s = s := by
  cases n with
  | zero => rfl
  | succ n => simp only [drain, h]

/-- The loop is made of turns. -/
theorem drain_reaches (n : Nat) (s : σ) :
    Relation.ReflTransGen (fun a b => turn a = some b) s (drain turn n s) := by
  induction n generalizing s with
  | zero => exact .refl
  | succ n ih =>
      cases h : turn s with
      | none =>
          rw [drain_of_none turn h]
      | some s' =>
          simp only [drain, h]
          exact .head h (ih s')

/-- **What each turn keeps, the loop keeps.** -/
theorem drain_keeps {P : σ → Prop} (hturn : ∀ s s', P s → turn s = some s' → P s') (n : Nat) {s : σ}
    (h : P s) : P (drain turn n s) := by
  have keeps : ∀ {a b}, Relation.ReflTransGen (fun a b => turn a = some b) a b → P a → P b := by
    intro a b hreach ha
    induction hreach with
    | refl => exact ha
    | tail _ hstep ih => exact hturn _ _ ih hstep
  exact keeps (drain_reaches turn n s) h

/-- **A loop whose turns use something up comes to its end.** -/
theorem drain_settles {μ : σ → Nat} (hturn : ∀ s s', turn s = some s' → μ s' < μ s) {n : Nat} {s : σ}
    (hn : μ s < n) : turn (drain turn n s) = none := by
  induction n generalizing s with
  | zero => omega
  | succ n ih =>
      cases h : turn s with
      | none =>
          rw [drain_of_none turn h]
          exact h
      | some s' =>
          have hless := hturn s s' h
          simp only [drain, h]
          exact ih (by omega)

end Loop

/-! ## What a loop reads -/

section Reads

variable {π μ : Type} (parse : π → Option (μ × π))

/-- The messages that a parser reads one after another, at most that many. -/
def readAll : Nat → π → List μ
  | 0, _ => []
  | n + 1, p =>
      match parse p with
      | none => []
      | some (m, q) => m :: readAll n q

theorem readAll_succ {p q : π} {m : μ} (h : parse p = some (m, q)) (n : Nat) :
    readAll parse (n + 1) p = m :: readAll parse n q := by
  simp only [readAll, h]

variable {σ : Type} {turn : σ → Option σ} {parser : σ → π} {Opened : σ → Prop} {Opens : μ → Prop}

/-- A turn that reads a message, and opens what was not open only with a message that opens; or one that
ends the loop. -/
def ReadsOn (parse : π → Option (μ × π)) (turn : σ → Option σ) (parser : σ → π) (Opened : σ → Prop)
    (Opens : μ → Prop) : Prop :=
  ∀ s s', turn s = some s' → turn s' = none ∨
    ∃ m, parse (parser s) = some (m, parser s') ∧ (Opened s' → Opened s ∨ Opens m)

/-- What a loop comes to read is among what its parser reads. -/
theorem mem_readAll {parse : π → Option (μ × π)} (hturn : ReadsOn parse turn parser Opened Opens)
    {n N : Nat} (hn : n < N) {s t t' : σ} (ht : drain turn n s = t) (hnext : turn t = some t') {m : μ}
    {q : π} (hread : parse (parser t) = some (m, q)) : m ∈ readAll parse N (parser s) := by
  induction n generalizing s N with
  | zero =>
      obtain ⟨N, rfl⟩ : ∃ k, N = k + 1 := ⟨N - 1, by omega⟩
      have hst : s = t := ht
      rw [hst, readAll_succ parse hread]
      exact List.mem_cons_self
  | succ n ih =>
      obtain ⟨N, rfl⟩ : ∃ k, N = k + 1 := ⟨N - 1, by omega⟩
      cases hs : turn s with
      | none =>
          rw [drain_of_none turn hs] at ht
          cases ht
          rw [hs] at hnext
          cases hnext
      | some s' =>
          simp only [drain, hs] at ht
          rcases hturn s s' hs with hend | ⟨m', hread', -⟩
          · rw [drain_of_none turn hend] at ht
            cases ht
            rw [hend] at hnext
            cases hnext
          · rw [readAll_succ parse hread']
            exact List.mem_cons_of_mem _ (ih (by omega) ht)

/-- **What a loop reads once it is open comes behind a message that opens**, unless it was open before. -/
theorem reads_behind {parse : π → Option (μ × π)} (hturn : ReadsOn parse turn parser Opened Opens)
    {n N : Nat} (hn : n < N) {s t t' : σ} (ht : drain turn n s = t) (hnext : turn t = some t') {m : μ}
    {q : π} (hread : parse (parser t) = some (m, q)) (hopened : Opened t) (hbefore : ¬ Opened s) :
    ∃ front opener back, readAll parse N (parser s) = front ++ opener :: back ∧ Opens opener ∧
      m ∈ back := by
  induction n generalizing s N with
  | zero =>
      cases ht
      exact absurd hopened hbefore
  | succ n ih =>
      obtain ⟨N, rfl⟩ : ∃ k, N = k + 1 := ⟨N - 1, by omega⟩
      cases hs : turn s with
      | none =>
          rw [drain_of_none turn hs] at ht
          cases ht
          exact absurd hopened hbefore
      | some s' =>
          simp only [drain, hs] at ht
          rcases hturn s s' hs with hend | ⟨opener, hread', hopens⟩
          · rw [drain_of_none turn hend] at ht
            cases ht
            rw [hend] at hnext
            cases hnext
          · rw [readAll_succ parse hread']
            by_cases hnow : Opened s'
            · refine ⟨[], opener, _, rfl, (hopens hnow).resolve_left hbefore, ?_⟩
              exact mem_readAll hturn (show n < N by omega) ht hnext hread
            · obtain ⟨front, later, back, hall, hlater, hm⟩ := ih (show n < N by omega) ht hnow
              exact ⟨opener :: front, later, back, by rw [hall]; rfl, hlater, hm⟩

end Reads

/-! ## Messages in a stream -/

variable {α μ : Type}

/-- `read` finds a whole message of `enc` at the front of a buffer, and waits on anything less. -/
structure Framed (Valid : μ → Prop) (enc : μ → List α) (read : List α → Option (μ × List α)) :
    Prop where
  nil : read [] = none
  whole : ∀ {m}, Valid m → ∀ rest, read (enc m ++ rest) = some (m, rest)
  short : ∀ {m}, Valid m → ∀ {p}, p <+: enc m → p.length < (enc m).length → read p = none

namespace Framed

variable {Valid : μ → Prop} {enc : μ → List α} {read : List α → Option (μ × List α)}

/-- What a framed reader takes is the message at the front. -/
theorem front (F : Framed Valid enc read) {m₀ m : μ} (hvalid : Valid m₀)
    {buf flight later rest : List α} (hstream : buf ++ flight = enc m₀ ++ later)
    (hread : read buf = some (m, rest)) : m = m₀ ∧ rest ++ flight = later := by
  rcases List.append_eq_append_iff.mp hstream with ⟨as, hm₀, hflight⟩ | ⟨bs, hbuf, hlater⟩
  · by_cases has : as = []
    · -- The buffer is this message and nothing else.
      subst has
      have hwhole := F.whole hvalid []
      rw [List.append_nil] at hm₀ hwhole
      rw [← hm₀, hwhole] at hread
      cases hread
      exact ⟨rfl, by simpa using hflight⟩
    · have hlen : buf.length < (enc m₀).length := by
        rw [hm₀, List.length_append]
        have := List.length_pos_of_ne_nil has
        omega
      rw [F.short hvalid ⟨as, hm₀.symm⟩ hlen] at hread
      cases hread
  · rw [hbuf, F.whole hvalid bs] at hread
    cases hread
    exact ⟨rfl, hlater.symm⟩

/-- **What a framed reader takes is the next message**, and the others are still to come. -/
theorem next (F : Framed Valid enc read) {ms : List μ} (hms : ∀ m ∈ ms, Valid m)
    {buf flight rest : List α} {m : μ} (hstream : buf ++ flight = ms.flatMap enc)
    (hread : read buf = some (m, rest)) :
    ∃ later, ms = m :: later ∧ rest ++ flight = later.flatMap enc := by
  cases ms with
  | nil =>
      have hbuf : buf = [] := (List.append_eq_nil_iff.mp hstream).1
      rw [hbuf, F.nil] at hread
      cases hread
  | cons m₀ later =>
      rw [List.flatMap_cons] at hstream
      obtain ⟨rfl, hrest⟩ := F.front (hms m₀ List.mem_cons_self) hstream hread
      exact ⟨later, rfl, hrest⟩

/-- **A framed reader that waits while nothing is in flight has read every message.** -/
theorem settled (F : Framed Valid enc read) {ms : List μ} (hms : ∀ m ∈ ms, Valid m)
    {buf : List α} (hstream : buf = ms.flatMap enc) (hread : read buf = none) : ms = [] := by
  cases ms with
  | nil => rfl
  | cons m later =>
      rw [hstream, List.flatMap_cons, F.whole (hms m List.mem_cons_self)] at hread
      cases hread

end Framed

/-! ## What has come in -/

/-- The messages that are whole in the first so many places of the stream. -/
def arrived (enc : μ → List α) : List μ → Nat → List μ
  | [], _ => []
  | m :: ms, n => if (enc m).length ≤ n then m :: arrived enc ms (n - (enc m).length) else []

theorem arrived_append (enc : μ → List α) (done later : List μ) (n : Nat) :
    arrived enc (done ++ later) ((done.flatMap enc).length + n) = done ++ arrived enc later n := by
  induction done with
  | nil => rw [List.nil_append, List.nil_append, List.flatMap_nil, List.length_nil, Nat.zero_add]
  | cons m done ih =>
      have hlen : ((m :: done).flatMap enc).length + n - (enc m).length =
          (done.flatMap enc).length + n := by
        rw [List.flatMap_cons, List.length_append]
        omega
      rw [List.cons_append, arrived, if_pos, hlen, ih, List.cons_append]
      rw [List.flatMap_cons, List.length_append]
      omega

/-- **What has been read is what has come in**, when no message is whole at the front of the buffer. -/
theorem arrived_eq {enc : μ → List α} {done later : List μ} {buf flight : List α}
    (hstream : buf ++ flight = later.flatMap enc) (hfront : ∀ m ∈ later, ¬ enc m <+: buf) :
    arrived enc (done ++ later) ((done.flatMap enc).length + buf.length) = done := by
  have hnone : arrived enc later buf.length = [] := by
    cases later with
    | nil => rfl
    | cons m later =>
        rw [arrived, if_neg]
        intro hle
        rw [List.flatMap_cons] at hstream
        exact hfront m List.mem_cons_self (List.prefix_of_prefix_length_le
          (hstream ▸ List.prefix_append (enc m) _) (List.prefix_append buf flight) hle)
  rw [arrived_append, hnone, List.append_nil]

/-! ## Fields -/

/-- A reader of one field finds what the encoder wrote, and more input does not change what it has read. -/
structure Field (Valid : μ → Prop) (enc : μ → List α) (take : List α → Option (μ × List α)) : Prop where
  whole : ∀ {m}, Valid m → ∀ rest, take (enc m ++ rest) = some (m, rest)
  longer : ∀ {b m rest}, take b = some (m, rest) → ∀ c, take (b ++ c) = some (m, rest ++ c)

/-- A field that is there only in some messages. -/
def ifNeeded (need : Bool) (take : List α → Option (μ × List α)) (b : List α) :
    Option (Option μ × List α) :=
  if need then (take b).map fun r => (some r.1, r.2) else some (none, b)

namespace Field

variable {Valid : μ → Prop} {enc : μ → List α} {take : List α → Option (μ × List α)}

/-- A message that is read like a field is read whole or waited for. -/
theorem framed (F : Field Valid enc take) (hnil : take [] = none) : Framed Valid enc take where
  nil := hnil
  whole := F.whole
  short := by
    intro m hm p hp hlen
    obtain ⟨c, hc⟩ := hp
    cases hread : take p with
    | none => rfl
    | some r =>
        have hwhole := F.whole hm []
        rw [List.append_nil, ← hc, F.longer hread c] at hwhole
        have hrest : r.2 ++ c = [] := congrArg Prod.snd (Option.some.inj hwhole)
        rw [← hc, (List.append_eq_nil_iff.mp hrest).2, List.append_nil] at hlen
        exact absurd hlen (Nat.lt_irrefl _)

theorem ifNeeded (F : Field Valid enc take) (need : Bool) :
    Field (fun o => o.isSome = need ∧ ∀ m, o = some m → Valid m) (fun o => o.elim [] enc)
      (ifNeeded need take) where
  whole := by
    rintro (_ | m) ⟨rfl, hvalid⟩ rest
    · rfl
    · show (take (enc m ++ rest)).map _ = _
      rw [F.whole (hvalid m rfl)]
      rfl
  longer := by
    intro b o rest h c
    cases need with
    | false =>
        cases h
        rfl
    | true =>
        obtain ⟨r, hr, heq⟩ := Option.map_eq_some_iff.mp h
        cases heq
        show (take (b ++ c)).map _ = _
        rw [F.longer hr c]
        rfl

end Field

end Base

end DtnCustody
