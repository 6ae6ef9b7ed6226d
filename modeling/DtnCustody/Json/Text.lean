/-
# DtnCustody.Json.Text — what a JSON text says.

A JSON text without white space is a tree of words (`null`, `true`, `false`, numbers), quoted strings,
arrays and objects. `write_inj`: one text, one tree. A string may be quoted in more than one way, but
every way spells one string (`Spells`), so nothing is said twice there either.

`stringify_eq_write` reads `JSON.stringify` as the writing of a tree.
-/
import DtnCustody.Json.Canonical

namespace DtnCustody

open Base Js

namespace Json

/-! ## Quoted strings -/

/-- The unit that four digits spell. -/
def hexUnit? (digits : JsString) : Option UInt16 :=
  match Hex.decode digits with
  | [hi, lo] => some (UInt16.ofNat (hi.toNat * 256 + lo.toNat))
  | _ => none

/-- The unit of a short escape. -/
def shortEscape (u : UInt16) : UInt16 :=
  if u = 0x62 then 0x08
  else if u = 0x74 then 0x09
  else if u = 0x6e then 0x0a
  else if u = 0x66 then 0x0c
  else if u = 0x72 then 0x0d
  else u

/-- What a backslash stands before. -/
def readEscape : JsString → Option (UInt16 × JsString)
  | [] => none
  | e :: rest =>
      if e = 0x75 then (hexUnit? (rest.take 4)).map fun u => (u, rest.drop 4)
      else some (shortEscape e, rest)

/-- The first unit of a string as it was quoted, and what follows. -/
def readUnit : JsString → Option (UInt16 × JsString)
  | [] => none
  | u :: rest => if u = 0x5c then readEscape rest else some (u, rest)

/-- `e` is a way to write the unit `u` inside quotes. -/
structure WritesUnit (e : JsString) (u : UInt16) : Prop where
  read : ∀ rest, readUnit (e ++ rest) = some (u, rest)
  open_ : ∀ rest, (e ++ rest).head? ≠ some 0x22

/-- `w` is a way to write `s` inside quotes. -/
inductive Spells : JsString → JsString → Prop
  | nil : Spells [] []
  | cons {e w s : JsString} {u : UInt16} : WritesUnit e u → Spells w s → Spells (e ++ w) (u :: s)

/-- **A quoted string is read in one way.** -/
theorem Spells.unique {w s : JsString} (h : Spells w s) :
    ∀ {w' s' r r' : JsString}, Spells w' s' → w ++ 0x22 :: r = w' ++ 0x22 :: r' →
      s = s' ∧ r = r' := by
  induction h with
  | nil =>
      intro w' s' r r' h' heq
      cases h' with
      | nil => exact ⟨rfl, (List.cons.inj heq).2⟩
      | @cons e' w' s' u' he' _ =>
          refine absurd ?_ (he'.open_ (w' ++ 0x22 :: r'))
          rw [← List.append_assoc, ← heq]
          rfl
  | @cons e w s u he _ ih =>
      intro w' s' r r' h' heq
      cases h' with
      | nil =>
          refine absurd ?_ (he.open_ (w ++ 0x22 :: r))
          rw [← List.append_assoc, heq]
          rfl
      | @cons e' w' s' u' he' hs' =>
          have hread := he.read (w ++ 0x22 :: r)
          rw [← List.append_assoc, heq, List.append_assoc, he'.read, Option.some.injEq,
            Prod.mk.injEq] at hread
          obtain ⟨rfl, hrest⟩ := hread
          obtain ⟨rfl, hr⟩ := ih hs' hrest.symm
          exact ⟨rfl, hr⟩

theorem writesUnit_self {u : UInt16} (hquote : u ≠ 0x22) (hslash : u ≠ 0x5c) : WritesUnit [u] u := by
  constructor
  · intro rest
    show readUnit (u :: rest) = _
    rw [readUnit, if_neg hslash]
  · intro rest h
    exact hquote (by simpa using h)

theorem hexUnit?_encode (u : UInt16) :
    hexUnit? (Hex.encode [UInt8.ofNat (u.toNat / 256), UInt8.ofNat (u.toNat % 256)]) = some u := by
  have hlt := u.toNat_lt
  rw [hexUnit?, Hex.decode_encode]
  dsimp only
  rw [UInt8.toNat_ofNat', UInt8.toNat_ofNat', Nat.mod_eq_of_lt (by omega),
    Nat.mod_eq_of_lt (by omega), Nat.div_add_mod', UInt16.ofNat_toNat]

theorem writesUnit_hex (u : UInt16) : WritesUnit (hexUnit u) u := by
  constructor
  · intro rest
    have hlen : (Hex.encode [UInt8.ofNat (u.toNat / 256), UInt8.ofNat (u.toNat % 256)]).length = 4 :=
      Hex.length_encode _
    show readUnit (0x5c :: 0x75 :: (Hex.encode _ ++ rest)) = _
    rw [readUnit, if_pos rfl, readEscape, if_pos rfl, List.take_append_of_le_length hlen.ge,
      List.drop_append_of_le_length hlen.ge, ← hlen, List.take_length, List.drop_length,
      hexUnit?_encode]
    rfl
  · intro rest h
    cases h

theorem writesUnit_short {e u : UInt16} (hu : e ≠ 0x75) (h : shortEscape e = u) :
    WritesUnit [0x5c, e] u := by
  constructor
  · intro rest
    show readUnit (0x5c :: e :: rest) = _
    rw [readUnit, if_pos rfl, readEscape, if_neg hu, h]
  · intro rest h
    cases h

theorem writesUnit_quoteUnit (u : UInt16) : WritesUnit (quoteUnit u) u := by
  unfold quoteUnit
  split
  · rename_i h; exact h ▸ writesUnit_short (by decide) (by decide)
  · rename_i hquote
    split
    · rename_i h; exact h ▸ writesUnit_short (by decide) (by decide)
    · rename_i hslash
      split
      · rename_i h; exact h ▸ writesUnit_short (by decide) (by decide)
      · split
        · rename_i h; exact h ▸ writesUnit_short (by decide) (by decide)
        · split
          · rename_i h; exact h ▸ writesUnit_short (by decide) (by decide)
          · split
            · rename_i h; exact h ▸ writesUnit_short (by decide) (by decide)
            · split
              · rename_i h; exact h ▸ writesUnit_short (by decide) (by decide)
              · split
                · exact writesUnit_hex u
                · exact writesUnit_self hquote hslash

theorem not_surrogate_of_quote {u : UInt16} (h : isHighSurrogate u = true ∨ isLowSurrogate u = true) :
    u ≠ 0x22 ∧ u ≠ 0x5c := by
  constructor <;> rintro rfl <;> revert h <;> decide

theorem spells_quoteUnits (s : JsString) : Spells (quoteUnits s) s := by
  induction s using quoteUnits.induct with
  | case1 => exact .nil
  | case2 u =>
      have h := Spells.cons (writesUnit_quoteUnit u) .nil
      rwa [List.append_nil] at h
  | case3 u v rest hpair ih =>
      rw [quoteUnits, if_pos hpair]
      rw [Bool.and_eq_true] at hpair
      have hu := not_surrogate_of_quote (Or.inl hpair.1)
      have hv := not_surrogate_of_quote (Or.inr hpair.2)
      exact .cons (writesUnit_self hu.1 hu.2) (.cons (writesUnit_self hv.1 hv.2) ih)
  | case4 u v rest hpair ih =>
      rw [quoteUnits, if_neg hpair]
      exact .cons (writesUnit_quoteUnit u) ih

/-- **A quoted string ends where it ends.** -/
theorem quote_append_inj {s t r r' : JsString} (h : quote s ++ r = quote t ++ r') :
    s = t ∧ r = r' := by
  have h' : quoteUnits s ++ 0x22 :: r = quoteUnits t ++ 0x22 :: r' := by
    simpa [quote] using h
  exact (spells_quoteUnits s).unique (spells_quoteUnits t) h'

theorem wellFormed_quoteUnit (u : UInt16) : WellFormed (quoteUnit u) := by
  unfold quoteUnit
  repeat' split
  all_goals first | exact wellFormed_js _ | skip
  · exact (wellFormed_js _).append (Hex.wellFormed_encode _)
  · rename_i hplain
    simp only [Bool.or_eq_true, not_or, Bool.not_eq_true] at hplain
    exact wellFormed_unit hplain.1.2 hplain.2

theorem wellFormed_quoteUnits (s : JsString) : WellFormed (quoteUnits s) := by
  induction s using quoteUnits.induct with
  | case1 => exact wellFormed_nil
  | case2 u => exact wellFormed_quoteUnit u
  | case3 u v rest hpair ih =>
      rw [quoteUnits, if_pos hpair]
      rw [Bool.and_eq_true] at hpair
      exact (wellFormed_pair hpair.1 hpair.2).append ih
  | case4 u v rest hpair ih =>
      rw [quoteUnits, if_neg hpair]
      exact (wellFormed_quoteUnit u).append ih

theorem wellFormed_quote (s : JsString) : WellFormed (quote s) :=
  ((wellFormed_js "\"").append (wellFormed_quoteUnits s)).append (wellFormed_js "\"")

end Json

/-! ## Texts as trees -/

inductive JsonText where
  | word (s : JsString)
  | str (s : JsString)
  | arr (xs : List JsonText)
  | obj (fields : List (JsString × JsonText))

namespace JsonText

/-- A property that a text has if its parts have it is a property of all texts. -/
@[elab_as_elim]
theorem induct {P : JsonText → Prop} (word : ∀ s, P (.word s)) (str : ∀ s, P (.str s))
    (arr : ∀ xs, (∀ x ∈ xs, P x) → P (.arr xs))
    (obj : ∀ fields, (∀ p ∈ fields, P p.2) → P (.obj fields)) (t : JsonText) : P t :=
  @JsonText.rec P (fun xs => ∀ x ∈ xs, P x) (fun fields => ∀ p ∈ fields, P p.2) (fun p => P p.2)
    word str arr obj (fun _ h => by cases h) (fun _ _ hx hxs => List.forall_mem_cons.mpr ⟨hx, hxs⟩)
    (fun _ h => by cases h) (fun _ _ hp hps => List.forall_mem_cons.mpr ⟨hp, hps⟩) (fun _ _ h => h) t

mutual

def write : JsonText → JsString
  | .word s => s
  | .str s => Json.quote s
  | .arr xs => js "[" ++ writeAll xs ++ js "]"
  | .obj fields => js "\x7b" ++ writeFields fields ++ js "\x7d"

def writeAll : List JsonText → JsString
  | [] => []
  | [x] => write x
  | x :: y :: rest => write x ++ js "," ++ writeAll (y :: rest)

def writeFields : List (JsString × JsonText) → JsString
  | [] => []
  | [p] => writeField p
  | p :: q :: rest => writeField p ++ js "," ++ writeFields (q :: rest)

def writeField : JsString × JsonText → JsString
  | (k, v) => Json.quote k ++ js ":" ++ write v

end

mutual

/-- The words of a text. -/
def words : JsonText → List JsString
  | .word s => [s]
  | .str _ => []
  | .arr xs => wordsAll xs
  | .obj fields => wordsFields fields

def wordsAll : List JsonText → List JsString
  | [] => []
  | x :: rest => words x ++ wordsAll rest

def wordsFields : List (JsString × JsonText) → List JsString
  | [] => []
  | p :: rest => wordsField p ++ wordsFields rest

def wordsField : JsString × JsonText → List JsString
  | (_, v) => words v

end

/-- Small letters, digits, signs and points. -/
def isWordUnit (u : UInt16) : Bool :=
  (97 ≤ u.toNat && u.toNat ≤ 122) || (48 ≤ u.toNat && u.toNat ≤ 57) || u = 43 || u = 45 || u = 46

def IsWord (s : JsString) : Prop := s ≠ [] ∧ ∀ u ∈ s, isWordUnit u = true

instance (s : JsString) : Decidable (IsWord s) :=
  decidable_of_iff (s ≠ [] ∧ s.all isWordUnit = true) (and_congr_right' List.all_eq_true)

/-- A text whose words are words. -/
def Tidy (t : JsonText) : Prop := ∀ s ∈ t.words, IsWord s

/-- What may follow a value inside a text: nothing, or a unit that is in no word. -/
def Ends (r : JsString) : Prop := ∀ u ∈ r.head?, isWordUnit u = false

/-- A value does not begin the way a list or a text ends. -/
theorem write_head {t : JsonText} (h : t.Tidy) : ∃ u rest, write t = u :: rest ∧
    u ≠ 0x5d ∧ (isWordUnit u = true ∧ (∃ s, t = .word s) ∨ u = 0x22 ∧ (∃ s, t = .str s) ∨
      u = 0x5b ∧ (∃ xs, t = .arr xs) ∨ u = 0x7b ∧ (∃ fields, t = .obj fields)) := by
  cases t with
  | word s =>
      obtain ⟨hne, hall⟩ := h s (by simp [words])
      obtain ⟨u, rest, rfl⟩ := List.exists_cons_of_ne_nil hne
      have hu := hall u List.mem_cons_self
      refine ⟨u, rest, by rw [write], ?_, Or.inl ⟨hu, _, rfl⟩⟩
      rintro rfl
      exact absurd hu (by decide)
  | str s => exact ⟨0x22, _, by rw [write]; rfl, by decide, Or.inr (Or.inl ⟨rfl, s, rfl⟩)⟩
  | arr xs =>
      exact ⟨0x5b, _, by rw [write]; rfl, by decide, Or.inr (Or.inr (Or.inl ⟨rfl, xs, rfl⟩))⟩
  | obj fields =>
      exact ⟨0x7b, _, by rw [write]; rfl, by decide, Or.inr (Or.inr (Or.inr ⟨rfl, fields, rfl⟩))⟩

theorem word_append_inj {s t r r' : JsString} (hs : IsWord s) (ht : IsWord t) (hr : Ends r)
    (hr' : Ends r') (h : s ++ r = t ++ r') : s = t ∧ r = r' := by
  have hspan : ∀ {s r : JsString}, IsWord s → Ends r → (s ++ r).takeWhile isWordUnit = s := by
    intro s r hs hr
    rw [List.takeWhile_append_of_pos hs.2]
    cases r with
    | nil => simp
    | cons u r => simp [hr u rfl]
  have heq : s = t := by rw [← hspan hs hr, h, hspan ht hr']
  exact ⟨heq, List.append_cancel_left (heq ▸ h)⟩

/-! ## One text, one tree -/

/-- Values written one after the other, with a comma between two. -/
def joined {α : Type} (f : α → JsString) : List α → JsString
  | [] => []
  | [x] => f x
  | x :: y :: rest => f x ++ js "," ++ joined f (y :: rest)

theorem writeAll_eq_joined : ∀ xs, writeAll xs = joined write xs
  | [] => by rw [writeAll, joined]
  | [x] => by rw [writeAll, joined]
  | x :: y :: rest => by rw [writeAll, joined, writeAll_eq_joined (y :: rest)]

theorem writeFields_eq_joined : ∀ fields, writeFields fields = joined writeField fields
  | [] => by rw [writeFields, joined]
  | [p] => by rw [writeFields, joined]
  | p :: q :: rest => by rw [writeFields, joined, writeFields_eq_joined (q :: rest)]

/-- What follows the first of some joined values, up to the closing bracket. -/
def following {α : Type} (f : α → JsString) (close : UInt16) (xs : List α) (r : JsString) : JsString :=
  match xs with
  | [] => close :: r
  | x :: rest => 0x2c :: (joined f (x :: rest) ++ close :: r)

theorem joined_cons {α : Type} {f : α → JsString} {close : UInt16} {x : α} {xs : List α}
    {r : JsString} : joined f (x :: xs) ++ close :: r = f x ++ following f close xs r := by
  cases xs with
  | nil => rfl
  | cons y rest =>
      have hcomma : js "," = [0x2c] := rfl
      rw [joined, following, hcomma, List.append_assoc, List.append_assoc, List.singleton_append]

theorem ends_following {α : Type} {f : α → JsString} {close : UInt16}
    (hclose : isWordUnit close = false) (xs : List α) (r : JsString) :
    Ends (following f close xs r) := by
  intro u hu
  cases xs with
  | nil => cases hu; exact hclose
  | cons x rest => cases hu; decide

/-- **Joined values are read in one way**, if each value is and none begins with the closing bracket. -/
theorem joined_append_inj {α : Type} {f : α → JsString} {close : UInt16}
    (hclose : isWordUnit close = false) (hcomma : close ≠ 0x2c) {xs ys : List α} {r r' : JsString}
    (hopen : ∀ x, x ∈ xs ∨ x ∈ ys → ∀ r, (f x ++ r).head? ≠ some close)
    (hval : ∀ x ∈ xs, ∀ y ∈ ys, ∀ r r', Ends r → Ends r' → f x ++ r = f y ++ r' → x = y ∧ r = r')
    (h : joined f xs ++ close :: r = joined f ys ++ close :: r') : xs = ys ∧ r = r' := by
  induction xs generalizing ys with
  | nil =>
      cases ys with
      | nil => exact ⟨rfl, (List.cons.inj h).2⟩
      | cons y ys =>
          rw [joined_cons] at h
          refine absurd ?_ (hopen y (Or.inr List.mem_cons_self) (following f close ys r'))
          rw [← h]
          rfl
  | cons x xs ih =>
      cases ys with
      | nil =>
          rw [joined_cons] at h
          refine absurd ?_ (hopen x (Or.inl List.mem_cons_self) (following f close xs r))
          rw [h]
          rfl
      | cons y ys =>
          rw [joined_cons, joined_cons] at h
          obtain ⟨rfl, hrest⟩ := hval x List.mem_cons_self y List.mem_cons_self _ _
            (ends_following hclose xs r) (ends_following hclose ys r') h
          cases xs with
          | nil =>
              cases ys with
              | nil => exact ⟨rfl, (List.cons.inj hrest).2⟩
              | cons y ys => exact absurd (List.cons.inj hrest).1 hcomma
          | cons x' xs =>
              cases ys with
              | nil => exact absurd (List.cons.inj hrest).1.symm hcomma
              | cons y ys =>
                  have hopen' : ∀ z, z ∈ x' :: xs ∨ z ∈ y :: ys → ∀ r, (f z ++ r).head? ≠ some close :=
                    fun z hz => hopen z (hz.imp (List.mem_cons_of_mem _) (List.mem_cons_of_mem _))
                  obtain ⟨heq, hr⟩ := ih hopen' (fun z hz w hw =>
                    hval z (List.mem_cons_of_mem _ hz) w (List.mem_cons_of_mem _ hw))
                    (List.cons.inj hrest).2
                  exact ⟨congrArg _ heq, hr⟩

theorem mem_wordsAll {xs : List JsonText} {s : JsString} :
    s ∈ wordsAll xs ↔ ∃ x ∈ xs, s ∈ words x := by
  induction xs with
  | nil => simp [wordsAll]
  | cons x xs ih => simp [wordsAll, ih]

theorem mem_wordsFields {fields : List (JsString × JsonText)} {s : JsString} :
    s ∈ wordsFields fields ↔ ∃ p ∈ fields, s ∈ words p.2 := by
  induction fields with
  | nil => simp [wordsFields]
  | cons p fields ih =>
      obtain ⟨k, v⟩ := p
      rw [wordsFields, List.mem_append, ih, List.exists_mem_cons_iff]
      rfl

theorem tidy_arr {xs : List JsonText} : (arr xs).Tidy ↔ ∀ x ∈ xs, x.Tidy := by
  simp only [Tidy, words, mem_wordsAll]
  exact ⟨fun h x hx s hs => h s ⟨x, hx, hs⟩, fun h s ⟨x, hx, hs⟩ => h x hx s hs⟩

theorem tidy_obj {fields : List (JsString × JsonText)} :
    (obj fields).Tidy ↔ ∀ p ∈ fields, p.2.Tidy := by
  simp only [Tidy, words, mem_wordsFields]
  exact ⟨fun h p hp s hs => h s ⟨p, hp, hs⟩, fun h s ⟨p, hp, hs⟩ => h p hp s hs⟩

/-- **A value ends where it ends**: what follows it cannot make it another value. -/
theorem write_append_inj (t : JsonText) : t.Tidy → ∀ {t' : JsonText} {r r' : JsString}, t'.Tidy →
    Ends r → Ends r' → write t ++ r = write t' ++ r' → t = t' ∧ r = r' := by
  induction t using induct with
  | word s =>
      intro ht t' r r' ht' hr hr' h
      have hs : IsWord s := ht s (by simp [words])
      obtain ⟨c, s', rfl⟩ := List.exists_cons_of_ne_nil hs.1
      have hc := hs.2 c List.mem_cons_self
      obtain ⟨u, rest, hw, _, hkind⟩ := write_head ht'
      rw [write] at h
      have hu : c = u := by
        rw [hw] at h
        exact (List.cons.inj h).1
      rcases hkind with ⟨_, s'', rfl⟩ | ⟨rfl, _⟩ | ⟨rfl, _⟩ | ⟨rfl, _⟩
      · rw [write] at h
        obtain ⟨heq, hrest⟩ := word_append_inj hs (ht' s'' (by simp [words])) hr hr' h
        exact ⟨congrArg word heq, hrest⟩
      all_goals exact absurd (hu ▸ hc) (by decide)
  | str s =>
      intro ht t' r r' ht' hr hr' h
      obtain ⟨u, rest, hw, _, hkind⟩ := write_head ht'
      rw [write] at h
      have hu : 0x22 = u := by
        rw [hw] at h
        exact (List.cons.inj h).1
      subst hu
      rcases hkind with ⟨hc, _⟩ | ⟨_, s', rfl⟩ | ⟨hc, _⟩ | ⟨hc, _⟩
      · exact absurd hc (by decide)
      · rw [write] at h
        obtain ⟨heq, hrest⟩ := Json.quote_append_inj h
        exact ⟨congrArg str heq, hrest⟩
      all_goals exact absurd hc (by decide)
  | arr xs ih =>
      intro ht t' r r' ht' hr hr' h
      obtain ⟨u, rest, hw, _, hkind⟩ := write_head ht'
      rw [write, List.append_assoc, List.append_assoc] at h
      have hu : 0x5b = u := by
        rw [hw] at h
        exact (List.cons.inj h).1
      subst hu
      rcases hkind with ⟨hc, _⟩ | ⟨hc, _⟩ | ⟨_, ys, rfl⟩ | ⟨hc, _⟩
      · exact absurd hc (by decide)
      · exact absurd hc (by decide)
      · rw [tidy_arr] at ht ht'
        rw [write, List.append_assoc, List.append_assoc, writeAll_eq_joined, writeAll_eq_joined] at h
        have hopen : ∀ x, x ∈ xs ∨ x ∈ ys → ∀ r, (write x ++ r).head? ≠ some 0x5d := by
          intro x hx r
          obtain ⟨u, rest, hw, hne, _⟩ := write_head (hx.elim (ht x) (ht' x))
          rw [hw]
          exact fun heq => hne (Option.some.inj heq)
        obtain ⟨heq, hrest⟩ := joined_append_inj (by decide) (by decide) hopen
          (fun x hx y hy _ _ hr hr' h => ih x hx (ht x hx) (ht' y hy) hr hr' h)
          (List.cons.inj h).2
        exact ⟨congrArg arr heq, hrest⟩
      · exact absurd hc (by decide)
  | obj fields ih =>
      intro ht t' r r' ht' hr hr' h
      obtain ⟨u, rest, hw, _, hkind⟩ := write_head ht'
      rw [write, List.append_assoc, List.append_assoc] at h
      have hu : 0x7b = u := by
        rw [hw] at h
        exact (List.cons.inj h).1
      subst hu
      rcases hkind with ⟨hc, _⟩ | ⟨hc, _⟩ | ⟨hc, _⟩ | ⟨_, fields', rfl⟩
      · exact absurd hc (by decide)
      · exact absurd hc (by decide)
      · exact absurd hc (by decide)
      · rw [tidy_obj] at ht ht'
        rw [write, List.append_assoc, List.append_assoc, writeFields_eq_joined,
          writeFields_eq_joined] at h
        have hopen : ∀ p, p ∈ fields ∨ p ∈ fields' → ∀ r, (writeField p ++ r).head? ≠ some 0x7d := by
          rintro ⟨k, v⟩ _ r heq
          rw [writeField] at heq
          cases heq
        have hval : ∀ p ∈ fields, ∀ q ∈ fields', ∀ r r', Ends r → Ends r' →
            writeField p ++ r = writeField q ++ r' → p = q ∧ r = r' := by
          intro p hp q hq r r' hr hr' h
          obtain ⟨k, v⟩ := p
          obtain ⟨k', v'⟩ := q
          rw [writeField, writeField, List.append_assoc, List.append_assoc, List.append_assoc,
            List.append_assoc] at h
          obtain ⟨rfl, hcolon⟩ := Json.quote_append_inj h
          obtain ⟨rfl, hrest⟩ := ih _ hp (ht _ hp) (ht' _ hq) hr hr' (List.cons.inj hcolon).2
          exact ⟨rfl, hrest⟩
        obtain ⟨heq, hrest⟩ := joined_append_inj (by decide) (by decide) hopen hval
          (List.cons.inj h).2
        exact ⟨congrArg obj heq, hrest⟩

/-- **One text, one tree.** -/
theorem write_inj {t t' : JsonText} (ht : t.Tidy) (ht' : t'.Tidy) (h : write t = write t') :
    t = t' := by
  have hends : Ends [] := fun u hu => by cases hu
  refine (write_append_inj t ht ht' hends hends ?_).1
  rw [List.append_nil, List.append_nil, h]

theorem wellFormed_word {s : JsString} (h : ∀ u ∈ s, isWordUnit u = true) : WellFormed s := by
  induction s with
  | nil => exact wellFormed_nil
  | cons u s ih =>
      rw [List.forall_mem_cons] at h
      have hu := h.1
      simp only [isWordUnit, Bool.or_eq_true, Bool.and_eq_true, decide_eq_true_eq] at hu
      have hlow : u.toNat < 128 := by
        rcases hu with (((hu | hu) | rfl) | rfl) | rfl
        · omega
        · omega
        all_goals decide
      have hunit : WellFormed [u] := by
        refine wellFormed_unit ?_ ?_
        · rw [isHighSurrogate, Bool.and_eq_false_iff, decide_eq_false_iff_not]
          exact Or.inl (by omega)
        · rw [isLowSurrogate, Bool.and_eq_false_iff, decide_eq_false_iff_not]
          exact Or.inl (by omega)
      exact hunit.append (ih h.2)

theorem wellFormed_joined {α : Type} {f : α → JsString} {xs : List α}
    (h : ∀ x ∈ xs, WellFormed (f x)) : WellFormed (joined f xs) := by
  induction xs with
  | nil => exact wellFormed_nil
  | cons x xs ih =>
      rw [List.forall_mem_cons] at h
      cases xs with
      | nil => exact h.1
      | cons y rest => exact (h.1.append (wellFormed_js ",")).append (ih h.2)

/-- What is written can be carried in UTF-8. -/
theorem wellFormed_write (t : JsonText) : t.Tidy → WellFormed (write t) := by
  induction t using induct with
  | word s =>
      intro ht
      rw [write]
      exact wellFormed_word (ht s (by simp [words])).2
  | str s =>
      intro _
      rw [write]
      exact Json.wellFormed_quote s
  | arr xs ih =>
      intro ht
      rw [tidy_arr] at ht
      rw [write, writeAll_eq_joined]
      exact ((wellFormed_js "[").append (wellFormed_joined fun x hx => ih x hx (ht x hx))).append
        (wellFormed_js "]")
  | obj fields ih =>
      intro ht
      rw [tidy_obj] at ht
      rw [write, writeFields_eq_joined]
      have hfields : ∀ p ∈ fields, WellFormed (writeField p) := by
        rintro ⟨k, v⟩ hp
        rw [writeField]
        exact ((Json.wellFormed_quote k).append (wellFormed_js ":")).append (ih _ hp (ht _ hp))
      exact ((wellFormed_js "\x7b").append (wellFormed_joined hfields)).append (wellFormed_js "\x7d")

end JsonText

/-! ## `JSON.stringify` writes a tree -/

namespace Json

/-- A property that a value has if its parts have it is a property of all values. -/
@[elab_as_elim]
theorem induct {P : Json → Prop} (null : P .null) (bool : ∀ b, P (.bool b)) (num : ∀ x, P (.num x))
    (str : ∀ s, P (.str s)) (arr : ∀ xs, (∀ x ∈ xs, P x) → P (.arr xs))
    (obj : ∀ fields, (∀ p ∈ fields, P p.2) → P (.obj fields)) (v : Json) : P v :=
  @Json.rec P (fun xs => ∀ x ∈ xs, P x) (fun fields => ∀ p ∈ fields, P p.2) (fun p => P p.2)
    null bool num str arr obj (fun _ h => by cases h)
    (fun _ _ hx hxs => List.forall_mem_cons.mpr ⟨hx, hxs⟩) (fun _ h => by cases h)
    (fun _ _ hp hps => List.forall_mem_cons.mpr ⟨hp, hps⟩) (fun _ _ h => h) v

mutual

/-- The values inside a value, itself among them. -/
def within : Json → List Json
  | .arr xs => .arr xs :: withinAll xs
  | .obj fields => .obj fields :: withinFields fields
  | v => [v]

def withinAll : List Json → List Json
  | [] => []
  | x :: rest => within x ++ withinAll rest

def withinFields : List (JsString × Json) → List Json
  | [] => []
  | p :: rest => withinField p ++ withinFields rest

def withinField : JsString × Json → List Json
  | (_, v) => within v

end

theorem mem_within_self (v : Json) : v ∈ v.within := by
  cases v <;> simp [within]

theorem mem_withinAll {xs : List Json} {u : Json} : u ∈ withinAll xs ↔ ∃ x ∈ xs, u ∈ x.within := by
  induction xs with
  | nil => simp [withinAll]
  | cons x xs ih => rw [withinAll, List.mem_append, ih, List.exists_mem_cons_iff]

theorem mem_withinFields {fields : List (JsString × Json)} {u : Json} :
    u ∈ withinFields fields ↔ ∃ p ∈ fields, u ∈ p.2.within := by
  induction fields with
  | nil => simp [withinFields]
  | cons p fields ih =>
      obtain ⟨k, v⟩ := p
      rw [withinFields, List.mem_append, ih, List.exists_mem_cons_iff]
      rfl

theorem mem_within_arr {xs : List Json} {x u : Json} (hx : x ∈ xs) (hu : u ∈ x.within) :
    u ∈ (arr xs).within := by
  rw [within]
  exact List.mem_cons_of_mem _ (mem_withinAll.mpr ⟨x, hx, hu⟩)

theorem mem_within_obj {fields : List (JsString × Json)} {p : JsString × Json} {u : Json}
    (hp : p ∈ fields) (hu : u ∈ p.2.within) : u ∈ (obj fields).within := by
  rw [within]
  exact List.mem_cons_of_mem _ (mem_withinFields.mpr ⟨p, hp, hu⟩)

variable (N : Node)

mutual

/-- The text of a value, as a tree. -/
def written : Json → JsonText
  | .null => .word (js "null")
  | .bool b => .word (if b then js "true" else js "false")
  | .num .nan => .word (js "null")
  | .num (.inf _) => .word (js "null")
  | .num x => .word (Prim.numToString N x)
  | .str s => .str s
  | .arr xs => .arr (writtenAll xs)
  | .obj fields => .obj (writtenFields fields)

def writtenAll : List Json → List JsonText
  | [] => []
  | x :: rest => written x :: writtenAll rest

def writtenFields : List (JsString × Json) → List (JsString × JsonText)
  | [] => []
  | p :: rest => writtenField p :: writtenFields rest

def writtenField : JsString × Json → JsString × JsonText
  | (k, v) => (k, written v)

end

theorem writtenAll_eq_map (xs : List Json) : writtenAll N xs = xs.map (written N) := by
  induction xs with
  | nil => rfl
  | cons x xs ih => rw [writtenAll, ih, List.map_cons]

theorem writtenFields_eq_map (fields : List (JsString × Json)) :
    writtenFields N fields = fields.map fun p => (p.1, written N p.2) := by
  induction fields with
  | nil => rfl
  | cons p fields ih =>
      obtain ⟨k, v⟩ := p
      rw [writtenFields, ih, List.map_cons, writtenField]

variable {N}

theorem stringifyAll_eq {xs : List Json} (h : ∀ x ∈ xs, stringify N x = (written N x).write) :
    stringifyAll N xs = JsonText.writeAll (writtenAll N xs) := by
  induction xs with
  | nil => rw [stringifyAll, writtenAll, JsonText.writeAll]
  | cons x xs ih =>
      rw [List.forall_mem_cons] at h
      cases xs with
      | nil => rw [stringifyAll, writtenAll, writtenAll, JsonText.writeAll, h.1]
      | cons y rest =>
          show _ = JsonText.writeAll (written N x :: written N y :: writtenAll N rest)
          rw [stringifyAll, ih h.2, h.1, JsonText.writeAll, writtenAll]

theorem stringifyFields_eq {fields : List (JsString × Json)}
    (h : ∀ p ∈ fields, stringify N p.2 = (written N p.2).write) :
    stringifyFields N fields = JsonText.writeFields (writtenFields N fields) := by
  have hfield : ∀ p ∈ fields, stringifyField N p = JsonText.writeField (writtenField N p) := by
    rintro ⟨k, v⟩ hp
    rw [stringifyField, writtenField, JsonText.writeField, h _ hp]
  clear h
  induction fields with
  | nil => rw [stringifyFields, writtenFields, JsonText.writeFields]
  | cons p fields ih =>
      rw [List.forall_mem_cons] at hfield
      cases fields with
      | nil => rw [stringifyFields, writtenFields, writtenFields, JsonText.writeFields, hfield.1]
      | cons q rest =>
          show _ = JsonText.writeFields (writtenField N p :: writtenField N q :: writtenFields N rest)
          rw [stringifyFields, ih hfield.2, hfield.1, JsonText.writeFields, writtenFields]

theorem stringify_eq_write (v : Json) : stringify N v = (written N v).write := by
  induction v using induct with
  | null => rw [stringify, written, JsonText.write]
  | bool b => rw [stringify, written, JsonText.write]
  | num x =>
      cases x with
      | nan => rw [stringify, written, JsonText.write]
      | inf m => rw [stringify, written, JsonText.write]
      | fin q => rw [stringify, written, JsonText.write] <;> simp
  | str s => rw [stringify, written, JsonText.write]
  | arr xs ih => rw [stringify, written, JsonText.write, stringifyAll_eq ih]
  | obj fields ih => rw [stringify, written, JsonText.write, stringifyFields_eq ih]

variable (N)

/-- The finite numbers in a value are written as words. -/
def NumbersPrint (v : Json) : Prop :=
  ∀ q, .num (.fin q) ∈ v.within → JsonText.IsWord (Prim.numToString N (.fin q))

variable {N}

theorem NumbersPrint.tidy (v : Json) : NumbersPrint N v → (written N v).Tidy := by
  induction v using induct with
  | null =>
      intro _ s hs
      rw [written, JsonText.words, List.mem_singleton] at hs
      exact hs ▸ (by decide)
  | bool b =>
      intro _ s hs
      rw [written, JsonText.words, List.mem_singleton] at hs
      cases b <;> exact hs ▸ (by decide)
  | num x =>
      intro h s hs
      cases x with
      | nan =>
          rw [written, JsonText.words, List.mem_singleton] at hs
          exact hs ▸ (by decide)
      | inf m =>
          rw [written, JsonText.words, List.mem_singleton] at hs
          exact hs ▸ (by decide)
      | fin q =>
          rw [written, JsonText.words, List.mem_singleton] at hs
          · exact hs ▸ h q (mem_within_self _)
          all_goals simp
  | str s =>
      intro _ s hs
      rw [written, JsonText.words] at hs
      cases hs
  | arr xs ih =>
      intro h
      rw [written, JsonText.tidy_arr, writtenAll_eq_map, List.forall_mem_map]
      exact fun x hx => ih x hx fun q hq => h q (mem_within_arr hx hq)
  | obj fields ih =>
      intro h
      rw [written, JsonText.tidy_obj, writtenFields_eq_map, List.forall_mem_map]
      exact fun p hp => ih p hp fun q hq => h q (mem_within_obj hp hq)

end Json

end DtnCustody
