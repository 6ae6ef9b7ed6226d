/-
# DtnCustody.Json.Parse — `JSON.parse`.

A text is read as a tree first (`JsonText.read`) and the tree as a value (`ofTree`): a word is one of
the three literals or a number, and of two properties with one key the later one sets the value. A
property that is named `__proto__` is one like any other here.

`parse_stringify`: what `JSON.stringify` wrote is read back, for a value whose objects enumerate their
properties in their own order and whose numbers read back.
-/
import DtnCustody.Base.JsMap
import DtnCustody.Json.KeyOrder

namespace DtnCustody

open Base Js

namespace Json

/-! ## Quoted strings -/

/-- What a letter behind a backslash stands for. -/
def escape? (e : UInt16) : Option UInt16 :=
  if e ∈ [0x22, 0x5c, 0x2f, 0x62, 0x66, 0x6e, 0x72, 0x74] then some (shortEscape e) else none

/-- A string up to the closing quote, and what follows. -/
def readQuoted : JsString → Option (JsString × JsString)
  | [] => none
  | u :: rest =>
      if u = 0x22 then some ([], rest)
      else if u = 0x5c then
        match rest with
        | 0x75 :: a :: b :: c :: d :: rest => do
            let v ← hexUnit? [a, b, c, d]
            let (s, r) ← readQuoted rest
            return (v :: s, r)
        | e :: rest => do
            let v ← escape? e
            let (s, r) ← readQuoted rest
            return (v :: s, r)
        | [] => none
      else if u < 0x20 then none
      else do
        let (s, r) ← readQuoted rest
        return (u :: s, r)

/-- What reading the rest gives, with one more unit before it. -/
def withUnit (u : UInt16) (rest : JsString) : Option (JsString × JsString) :=
  (readQuoted rest).map fun p => (u :: p.1, p.2)

theorem bind_readQuoted (u : UInt16) (rest : JsString) :
    ((readQuoted rest).bind fun p => some (u :: p.1, p.2)) = withUnit u rest := by
  rw [withUnit]
  cases readQuoted rest <;> rfl

theorem readQuoted_plain {u : UInt16} (hquote : u ≠ 0x22) (hslash : u ≠ 0x5c) (hctl : ¬ u < 0x20)
    (rest : JsString) : readQuoted (u :: rest) = withUnit u rest := by
  rw [readQuoted.eq_def]
  dsimp only
  rw [if_neg hquote, if_neg hslash, if_neg hctl]
  exact bind_readQuoted u rest

theorem readQuoted_close (rest : JsString) : readQuoted (0x22 :: rest) = some ([], rest) := by
  rw [readQuoted.eq_def]
  exact if_pos rfl

theorem readQuoted_short {e u : UInt16} (hu : e ≠ 0x75) (h : escape? e = some u) (rest : JsString) :
    readQuoted (0x5c :: e :: rest) = withUnit u rest := by
  rw [readQuoted.eq_def]
  dsimp only
  rw [if_neg (by decide), if_pos rfl]
  split
  · rename_i heq
    exact absurd (List.cons.inj heq).1 hu
  · rename_i heq
    obtain ⟨rfl, rfl⟩ := List.cons.inj heq
    rw [h]
    exact bind_readQuoted u rest
  · rename_i heq
    cases heq

theorem readQuoted_hex (u : UInt16) (rest : JsString) :
    readQuoted (hexUnit u ++ rest) = withUnit u rest := by
  show readQuoted (0x5c :: 0x75 :: (Hex.encode [UInt8.ofNat (u.toNat / 256),
    UInt8.ofNat (u.toNat % 256)] ++ rest)) = _
  have hread := hexUnit?_encode u
  obtain ⟨a, b, c, d, hdigits⟩ : ∃ a b c d, Hex.encode [UInt8.ofNat (u.toNat / 256),
      UInt8.ofNat (u.toNat % 256)] = [a, b, c, d] := ⟨_, _, _, _, rfl⟩
  rw [hdigits] at hread ⊢
  show readQuoted (0x5c :: 0x75 :: a :: b :: c :: d :: rest) = _
  rw [readQuoted.eq_def]
  dsimp only
  rw [if_neg (by decide), if_pos rfl]
  show (hexUnit? [a, b, c, d]).bind _ = _
  rw [hread]
  exact bind_readQuoted u rest

theorem readQuoted_quoteUnit (u : UInt16) (rest : JsString) :
    readQuoted (quoteUnit u ++ rest) = withUnit u rest := by
  unfold quoteUnit
  -- one case for each short escape, then the long escape and the unit itself
  split
  · rename_i h; exact h ▸ readQuoted_short (by decide) (by decide) rest
  · rename_i hquote
    split
    · rename_i h; exact h ▸ readQuoted_short (by decide) (by decide) rest
    · rename_i hslash
      split
      · rename_i h; exact h ▸ readQuoted_short (by decide) (by decide) rest
      · split
        · rename_i h; exact h ▸ readQuoted_short (by decide) (by decide) rest
        · split
          · rename_i h; exact h ▸ readQuoted_short (by decide) (by decide) rest
          · split
            · rename_i h; exact h ▸ readQuoted_short (by decide) (by decide) rest
            · split
              · rename_i h; exact h ▸ readQuoted_short (by decide) (by decide) rest
              · split
                · exact readQuoted_hex u rest
                · rename_i hplain
                  simp only [Bool.or_eq_true, decide_eq_true_eq, not_or] at hplain
                  exact readQuoted_plain hquote hslash hplain.1.1 rest

theorem readQuoted_surrogate {u : UInt16}
    (h : isHighSurrogate u = true ∨ isLowSurrogate u = true) (rest : JsString) :
    readQuoted (u :: rest) = withUnit u rest := by
  obtain ⟨hquote, hslash⟩ := not_surrogate_of_quote h
  refine readQuoted_plain hquote hslash (fun hctl => ?_) rest
  have hlt : u.toNat < 32 := hctl
  rcases h with h | h
  · simp only [isHighSurrogate, Bool.and_eq_true, decide_eq_true_eq] at h
    omega
  · simp only [isLowSurrogate, Bool.and_eq_true, decide_eq_true_eq] at h
    omega

/-- **A quoted string is read back.** -/
theorem readQuoted_quoteUnits (s r : JsString) :
    readQuoted (quoteUnits s ++ 0x22 :: r) = some (s, r) := by
  induction s using quoteUnits.induct with
  | case1 =>
      exact readQuoted_close r
  | case2 u =>
      rw [quoteUnits, readQuoted_quoteUnit, withUnit, readQuoted_close]
      rfl
  | case3 u v rest hpair ih =>
      rw [quoteUnits, if_pos hpair]
      rw [Bool.and_eq_true] at hpair
      rw [List.cons_append, List.cons_append, readQuoted_surrogate (Or.inl hpair.1), withUnit,
        readQuoted_surrogate (Or.inr hpair.2), withUnit, ih]
      rfl
  | case4 u v rest hpair ih =>
      rw [quoteUnits, if_neg hpair, List.append_assoc, readQuoted_quoteUnit, withUnit, ih]
      rfl

end Json

/-! ## Trees -/

namespace JsonText

def isSpace (u : UInt16) : Bool := u = 0x20 || u = 0x09 || u = 0x0a || u = 0x0d

def skip (s : JsString) : JsString := s.dropWhile isSpace

/-- What numbers and literals are made of; the letter of an exponent may be a capital. -/
def isTokenUnit (u : UInt16) : Bool := isWordUnit u || u = 0x45

section lists

variable {α : Type} (item : JsString → Option (α × JsString)) (close : UInt16)

/-- Items with commas between them, up to the closing bracket. -/
def readSome : (fuel : Nat) → JsString → Option (List α × JsString)
  | 0, _ => none
  | fuel + 1, s => do
      let (x, r) ← item s
      match skip r with
      | [] => none
      | u :: r =>
          if u = 0x2c then do
            let (xs, r) ← readSome fuel r
            return (x :: xs, r)
          else if u = close then some ([x], r)
          else none

/-- What stands between two brackets. Every item takes a unit, so the length is fuel enough. -/
def readList (s : JsString) : Option (List α × JsString) :=
  match skip s with
  | [] => none
  | u :: r => if u = close then some ([], r) else readSome item close s.length (u :: r)

end lists

/-- A key, a colon and a value. -/
def readMember (value : JsString → Option (JsonText × JsString)) (s : JsString) :
    Option ((JsString × JsonText) × JsString) :=
  match skip s with
  | [] => none
  | u :: rest =>
      if u = 0x22 then do
        let (k, r) ← Json.readQuoted rest
        match skip r with
        | [] => none
        | c :: r =>
            if c = 0x3a then do
              let (v, r) ← value r
              return ((k, v), r)
            else none
      else none

/-- A value, and what follows; `fuel` bounds its depth. -/
def read : (fuel : Nat) → JsString → Option (JsonText × JsString)
  | 0, _ => none
  | fuel + 1, s =>
      match skip s with
      | [] => none
      | u :: rest =>
          if u = 0x22 then (Json.readQuoted rest).map fun p => (.str p.1, p.2)
          else if u = 0x5b then (readList (read fuel) 0x5d rest).map fun p => (.arr p.1, p.2)
          else if u = 0x7b then
            (readList (readMember (read fuel)) 0x7d rest).map fun p => (.obj p.1, p.2)
          else if isTokenUnit u then
            some (.word ((u :: rest).takeWhile isTokenUnit), (u :: rest).dropWhile isTokenUnit)
          else none

/-! ## Written trees are read back -/

/-- What may follow a value that is read: nothing, or a unit that is in no token. -/
def Stops (r : JsString) : Prop := ∀ u ∈ r.head?, isTokenUnit u = false

instance (r : JsString) : Decidable (Stops r) :=
  decidable_of_iff (r.head?.all (fun u => !isTokenUnit u) = true) (by simp [Stops, Option.all_eq_true])

/-- A unit that a value may begin with. -/
def Opens (u : UInt16) : Prop := isSpace u = false ∧ u ≠ 0x5d ∧ u ≠ 0x7d

theorem skip_cons {u : UInt16} (h : isSpace u = false) (rest : JsString) :
    skip (u :: rest) = u :: rest := List.dropWhile_cons_of_neg (by simp [h])

theorem wordUnit_opens {u : UInt16} (h : isWordUnit u = true) :
    Opens u ∧ u ≠ 0x22 ∧ u ≠ 0x5b ∧ u ≠ 0x7b := by
  have hne : ∀ c : UInt16, isWordUnit c = false → u ≠ c := by
    rintro c hc rfl
    rw [hc] at h
    cases h
  refine ⟨⟨?_, hne _ (by decide), hne _ (by decide)⟩, hne _ (by decide), hne _ (by decide),
    hne _ (by decide)⟩
  simp [isSpace, hne 0x20 (by decide), hne 0x09 (by decide), hne 0x0a (by decide),
    hne 0x0d (by decide)]

theorem write_opens {t : JsonText} (h : t.Tidy) : ∃ u rest, write t = u :: rest ∧ Opens u := by
  obtain ⟨u, rest, hw, _, hu⟩ := write_head h
  refine ⟨u, rest, hw, ?_⟩
  rcases hu with ⟨hu, _⟩ | ⟨rfl, _⟩ | ⟨rfl, _⟩ | ⟨rfl, _⟩
  · exact (wordUnit_opens hu).1
  all_goals exact ⟨by decide, by decide, by decide⟩

theorem length_le_joined {α : Type} {f : α → JsString} {xs : List α} {x : α} (hx : x ∈ xs) :
    (f x).length ≤ (joined f xs).length := by
  induction xs with
  | nil => cases hx
  | cons y xs ih =>
      cases xs with
      | nil =>
          rw [List.mem_singleton.mp hx]
          exact le_refl _
      | cons z rest =>
          rw [joined, List.length_append, List.length_append]
          rcases List.mem_cons.mp hx with rfl | hx
          · omega
          · have := ih hx
            omega

section lists

variable {α : Type} {f : α → JsString} {item : JsString → Option (α × JsString)} {close : UInt16}

/-- Joined values are read one after the other. -/
theorem readSome_joined (hclose : Stops [close] ∧ isSpace close = false ∧ close ≠ 0x2c) {xs : List α}
    (hitem : ∀ x ∈ xs, ∀ r, Stops r → item (f x ++ r) = some (x, r)) (r : JsString) :
    xs ≠ [] → ∀ {fuel : Nat}, xs.length ≤ fuel →
      readSome item close fuel (joined f xs ++ close :: r) = some (xs, r) := by
  induction xs with
  | nil => exact fun h => absurd rfl h
  | cons x xs ih =>
      intro _ fuel hfuel
      rw [List.forall_mem_cons] at hitem
      obtain ⟨k, rfl⟩ := Nat.exists_eq_succ_of_ne_zero (n := fuel) (by
        rintro rfl
        cases hfuel)
      rw [List.length_cons] at hfuel
      have hstops : Stops (following f close xs r) := by
        intro u hu
        cases xs with
        | nil => cases hu; exact hclose.1 _ rfl
        | cons y rest => cases hu; decide
      rw [joined_cons, readSome, hitem.1 _ hstops]
      rw [Option.bind_eq_bind, Option.bind_some]
      dsimp only
      cases xs with
      | nil =>
          rw [following, skip_cons hclose.2.1]
          dsimp only
          rw [if_neg hclose.2.2, if_pos rfl]
      | cons y rest =>
          rw [following, skip_cons (by decide)]
          dsimp only
          rw [if_pos rfl, ih hitem.2 (by simp) (by omega)]
          rfl

theorem length_le_length_joined {xs : List α} (h : ∀ x ∈ xs, f x ≠ []) :
    xs.length ≤ (joined f xs).length := by
  induction xs with
  | nil => exact le_refl _
  | cons x xs ih =>
      rw [List.forall_mem_cons] at h
      have hx := List.length_pos_iff.mpr h.1
      cases xs with
      | nil => exact hx
      | cons y rest =>
          have := ih h.2
          rw [joined, List.length_append, List.length_append, List.length_cons]
          omega

theorem readList_joined (hclose : Stops [close] ∧ isSpace close = false ∧ close ≠ 0x2c) {xs : List α}
    (hopens : ∀ x ∈ xs, ∃ u rest, f x = u :: rest ∧ isSpace u = false ∧ u ≠ close)
    (hitem : ∀ x ∈ xs, ∀ r, Stops r → item (f x ++ r) = some (x, r)) (r : JsString) :
    readList item close (joined f xs ++ close :: r) = some (xs, r) := by
  cases xs with
  | nil =>
      show (match skip (close :: r) with | [] => _ | u :: r => _) = _
      rw [skip_cons hclose.2.1]
      exact if_pos rfl
  | cons x xs =>
      have hne : ∀ y ∈ x :: xs, f y ≠ [] := by
        intro y hy hnil
        obtain ⟨u, rest, hf, _⟩ := hopens y hy
        rw [hf] at hnil
        cases hnil
      have hlen := length_le_length_joined hne
      obtain ⟨u, rest, hf, hspace, hu⟩ := hopens x List.mem_cons_self
      have hhead : ∃ rest, joined f (x :: xs) ++ close :: r = u :: rest := by
        rw [joined_cons, hf]
        exact ⟨_, rfl⟩
      obtain ⟨rest', hhead⟩ := hhead
      have hread := @readSome_joined _ f item close hclose _ hitem r (by simp)
        (joined f (x :: xs) ++ close :: r).length (by rw [List.length_append]; omega)
      rw [readList, hhead, skip_cons hspace]
      dsimp only
      rw [if_neg hu, ← hhead]
      exact hread

end lists

theorem takeWhile_token {s r : JsString} (hs : IsWord s) (hr : Stops r) :
    (s ++ r).takeWhile isTokenUnit = s ∧ (s ++ r).dropWhile isTokenUnit = r := by
  have hall : ∀ u ∈ s, isTokenUnit u = true := fun u hu => by simp [isTokenUnit, hs.2 u hu]
  rw [List.takeWhile_append_of_pos hall, List.dropWhile_append_of_pos hall]
  cases r with
  | nil => simp
  | cons u r => simp [hr u rfl]

theorem readMember_write {value : JsString → Option (JsonText × JsString)} {p : JsString × JsonText}
    {r : JsString} (h : value (write p.2 ++ r) = some (p.2, r)) :
    readMember value (writeField p ++ r) = some (p, r) := by
  obtain ⟨k, v⟩ := p
  have hw : writeField (k, v) ++ r =
      0x22 :: (Json.quoteUnits k ++ 0x22 :: 0x3a :: (write v ++ r)) := by
    rw [writeField]
    simp [Json.quote, show js ":" = [0x3a] from rfl]
  rw [hw, readMember, skip_cons (by decide)]
  dsimp only
  rw [if_pos rfl, Json.readQuoted_quoteUnits, Option.bind_eq_bind, Option.bind_some]
  dsimp only
  rw [skip_cons (by decide)]
  dsimp only at h ⊢
  rw [if_pos rfl, h]
  rfl

/-- **A written tree is read back**, whatever follows it. -/
theorem read_write (t : JsonText) : t.Tidy → ∀ {fuel : Nat}, (write t).length < fuel →
    ∀ {r : JsString}, Stops r → read fuel (write t ++ r) = some (t, r) := by
  induction t using induct with
  | word s =>
      intro h fuel hfuel r hr
      obtain ⟨k, rfl⟩ := Nat.exists_eq_succ_of_ne_zero (Nat.ne_of_gt (Nat.zero_lt_of_lt hfuel))
      have hs := h s (by simp [words])
      obtain ⟨htake, hdrop⟩ := takeWhile_token hs hr
      obtain ⟨u, rest, rfl⟩ := List.exists_cons_of_ne_nil hs.1
      have hu := hs.2 u List.mem_cons_self
      obtain ⟨hopens, hquote, hbracket, hbrace⟩ := wordUnit_opens hu
      have htoken : isTokenUnit u = true := by simp [isTokenUnit, hu]
      rw [write, List.cons_append, read, skip_cons hopens.1]
      dsimp only
      rw [if_neg hquote, if_neg hbracket, if_neg hbrace, if_pos htoken, ← List.cons_append, htake,
        hdrop]
  | str s =>
      intro _ fuel hfuel r _
      obtain ⟨k, rfl⟩ := Nat.exists_eq_succ_of_ne_zero (Nat.ne_of_gt (Nat.zero_lt_of_lt hfuel))
      have hw : write (.str s) ++ r = 0x22 :: (Json.quoteUnits s ++ 0x22 :: r) := by
        rw [write]
        simp [Json.quote]
      rw [hw, read, skip_cons (by decide)]
      dsimp only
      rw [if_pos rfl, Json.readQuoted_quoteUnits]
      rfl
  | arr xs ih =>
      intro h fuel hfuel r _
      obtain ⟨k, rfl⟩ := Nat.exists_eq_succ_of_ne_zero (Nat.ne_of_gt (Nat.zero_lt_of_lt hfuel))
      rw [tidy_arr] at h
      have hw : ∀ r, write (.arr xs) ++ r = 0x5b :: (joined write xs ++ 0x5d :: r) := by
        intro r
        rw [write, writeAll_eq_joined]
        simp [show js "[" = [0x5b] from rfl, show js "]" = [0x5d] from rfl]
      have hlen := congrArg List.length (hw [])
      rw [List.append_nil, List.length_cons, List.length_append, List.length_singleton] at hlen
      rw [hw, read, skip_cons (by decide)]
      dsimp only
      rw [if_neg (by decide), if_pos rfl, readList_joined ⟨by decide, by decide, by decide⟩]
      · rfl
      · intro x hx
        obtain ⟨u, rest, hx, hu⟩ := write_opens (h x hx)
        exact ⟨u, rest, hx, hu.1, hu.2.1⟩
      · intro x hx r hr
        have := @length_le_joined _ write xs x hx
        exact ih x hx (h x hx) (by omega) hr
  | obj fields ih =>
      intro h fuel hfuel r _
      obtain ⟨k, rfl⟩ := Nat.exists_eq_succ_of_ne_zero (Nat.ne_of_gt (Nat.zero_lt_of_lt hfuel))
      rw [tidy_obj] at h
      have hw : ∀ r, write (.obj fields) ++ r = 0x7b :: (joined writeField fields ++ 0x7d :: r) := by
        intro r
        rw [write, writeFields_eq_joined]
        simp [show js "\x7b" = [0x7b] from rfl, show js "\x7d" = [0x7d] from rfl]
      have hlen := congrArg List.length (hw [])
      rw [List.append_nil, List.length_cons, List.length_append, List.length_singleton] at hlen
      rw [hw, read, skip_cons (by decide)]
      dsimp only
      rw [if_neg (by decide), if_neg (by decide), if_pos rfl,
        readList_joined ⟨by decide, by decide, by decide⟩]
      · rfl
      · rintro ⟨key, v⟩ _
        rw [writeField]
        exact ⟨0x22, _, rfl, by decide, by decide⟩
      · intro p hp r hr
        apply readMember_write
        have hle := @length_le_joined _ writeField fields p hp
        have hshort : (write p.2).length ≤ (writeField p).length := by
          obtain ⟨key, v⟩ := p
          rw [writeField, List.length_append]
          exact Nat.le_add_left _ _
        exact ih p hp (h p hp) (by omega) hr

end JsonText

/-! ## Values -/

namespace Json

def isExponent : List Char → Bool
  | [] => true
  | e :: cs =>
      let ds := match cs with
        | '+' :: ds => ds
        | '-' :: ds => ds
        | ds => ds
      (e = 'e' || e = 'E') && ds ≠ [] && ds.all Char.isDigit

def isFraction : List Char → Bool
  | '.' :: cs => cs.takeWhile Char.isDigit ≠ [] && isExponent (cs.dropWhile Char.isDigit)
  | cs => isExponent cs

/-- A numeral without its sign. -/
def magnitude : List Char → List Char
  | '-' :: cs => cs
  | cs => cs

/-- The numerals of JSON: no leading zeros, and digits on both sides of a point. -/
def isNumeral (cs : List Char) : Bool :=
  let whole := (magnitude cs).takeWhile Char.isDigit
  (whole = ['0'] || (whole ≠ [] && whole.head? ≠ some '0')) &&
    isFraction ((magnitude cs).dropWhile Char.isDigit)

variable (N : Node)

/-- The Number that a numeral spells. -/
def numeralValue (s : JsString) : JsNum :=
  let cs := scalars s
  let n := Nat.ofDigitChars 10 (magnitude cs) 0
  if (magnitude cs).all Char.isDigit ∧ n ≤ 2 ^ 53 then .fin (if magnitude cs = cs then n else -n)
  else N.stringToNumber s

def ofWord (s : JsString) : Option Json :=
  if s = js "null" then some .null
  else if s = js "true" then some (.bool true)
  else if s = js "false" then some (.bool false)
  else if isNumeral (scalars s) then some (.num (numeralValue N s))
  else none

mutual

def ofTree : JsonText → Option Json
  | .word s => ofWord N s
  | .str s => some (.str s)
  | .arr xs => (ofTrees xs).map .arr
  | .obj fields => (ofMembers fields).map fun ps => .obj (ownOrder (JsMap.ofList ps).entries)

def ofTrees : List JsonText → Option (List Json)
  | [] => some []
  | x :: xs => do return (← ofTree x) :: (← ofTrees xs)

def ofMembers : List (JsString × JsonText) → Option (List (JsString × Json))
  | [] => some []
  | p :: ps => do return (← ofMember p) :: (← ofMembers ps)

def ofMember : JsString × JsonText → Option (JsString × Json)
  | (k, v) => do return (k, ← ofTree v)

end

/-- `JSON.parse(s)`; `none` is a throw. -/
def parse (s : JsString) : Option Json :=
  match JsonText.read (s.length + 1) s with
  | some (t, r) => if JsonText.skip r = [] then ofTree N t else none
  | none => none

/-! ## Numbers -/

theorem magnitude_digits {cs : List Char} (h : ∀ c ∈ cs, c.isDigit = true) : magnitude cs = cs := by
  cases cs with
  | nil => rfl
  | cons c cs =>
      have hc := h c List.mem_cons_self
      unfold magnitude
      split
      · rename_i heq
        rw [(List.cons.inj heq).1] at hc
        cases hc
      · rfl

/-- The first digit of a positive number is not zero. -/
theorem head_toDigits {n : Nat} (hn : 0 < n) : (Nat.toDigits 10 n).head? ≠ some '0' := by
  induction n using Nat.strongRecOn with
  | ind n ih =>
      by_cases hlt : n < 10
      · rw [Nat.toDigits_of_lt_base hlt]
        have hdigits : ∀ d < 10, 0 < d → [d.digitChar].head? ≠ some '0' := by decide
        exact hdigits n hlt hn
      · rw [Nat.toDigits_of_base_le (by decide) (by omega), List.head?_append]
        have hhead := ih (n / 10) (by omega) (by omega)
        cases h : (Nat.toDigits 10 (n / 10)).head? with
        | none => exact absurd (List.head?_eq_none_iff.mp h) Nat.toDigits_ne_nil
        | some c =>
            rw [h] at hhead
            exact hhead

theorem toDigits_isDigit {n : Nat} : ∀ c ∈ Nat.toDigits 10 n, c.isDigit = true := fun _ hc =>
  Nat.isDigit_of_mem_toDigits (b := 10) (by decide) (by decide) hc

theorem isNumeral_digits {n : Nat} {cs : List Char} (h : magnitude cs = Nat.toDigits 10 n) :
    isNumeral cs = true := by
  have hdigits := @toDigits_isDigit n
  have htake : (Nat.toDigits 10 n).takeWhile Char.isDigit = Nat.toDigits 10 n := by
    have h := @List.takeWhile_append_of_pos _ _ _ [] hdigits
    simpa using h
  have hdrop : (Nat.toDigits 10 n).dropWhile Char.isDigit = [] := by
    have h := @List.dropWhile_append_of_pos _ _ _ [] hdigits
    simpa using h
  unfold isNumeral
  rw [h, htake, hdrop]
  rcases Nat.eq_zero_or_pos n with rfl | hn
  · rfl
  · simp [head_toDigits hn, isFraction, isExponent, Nat.toDigits_ne_nil]

/-- The characters of an integer. -/
theorem toList_int (z : Int) :
    (0 ≤ z ∧ (toString z).toList = Nat.toDigits 10 z.natAbs) ∨
      (z < 0 ∧ (toString z).toList = '-' :: Nat.toDigits 10 z.natAbs) := by
  have hdigits : ∀ n : Nat, (toString n).toList = Nat.toDigits 10 n := fun n => Nat.toList_repr
  cases z with
  | ofNat n => exact Or.inl ⟨Int.natCast_nonneg n, hdigits n⟩
  | negSucc n =>
      refine Or.inr ⟨Int.negSucc_lt_zero n, ?_⟩
      show ("-" ++ toString (n + 1)).toList = _
      rw [String.toList_append, hdigits]
      rfl

/-- An integer is written with digits and a minus sign. -/
theorem not_mem_int {c : Char} (hdigit : c.isDigit = false) (hminus : c ≠ '-') (z : Int) :
    c ∉ (toString z).toList := by
  intro h
  have hdigits : c ∉ Nat.toDigits 10 z.natAbs := by
    intro hc
    rw [toDigits_isDigit _ hc] at hdigit
    cases hdigit
  rcases toList_int z with ⟨_, hlist⟩ | ⟨_, hlist⟩
  · exact hdigits (hlist ▸ h)
  · rw [hlist, List.mem_cons] at h
    rcases h with h | h
    · exact hminus h
    · exact hdigits h

theorem toList_int_inj {z z' : Int} (h : (toString z).toList = (toString z').toList) : z = z' := by
  have hnat : ∀ {n n' : Nat}, Nat.toDigits 10 n = Nat.toDigits 10 n' → n = n' := by
    intro n n' hn
    have hvalue := congrArg (fun cs => Nat.ofDigitChars 10 cs 0) hn
    simpa using hvalue
  have hminus : ∀ n : Nat, '-' ∉ Nat.toDigits 10 n := fun n hc =>
    absurd (toDigits_isDigit _ hc) (by decide)
  rcases toList_int z with ⟨hz, hlist⟩ | ⟨hz, hlist⟩ <;>
    rcases toList_int z' with ⟨hz', hlist'⟩ | ⟨hz', hlist'⟩ <;> rw [hlist, hlist'] at h
  · have habs := hnat h
    omega
  · exact absurd (h ▸ List.mem_cons_self) (hminus z.natAbs)
  · exact absurd (h ▸ List.mem_cons_self) (hminus z'.natAbs)
  · have habs := hnat (List.cons.inj h).2
    omega

/-- The numeral of an integer has its magnitude, and its sign. -/
theorem numeral_int (z : Int) : magnitude (toString z).toList = Nat.toDigits 10 z.natAbs ∧
    (if magnitude (toString z).toList = (toString z).toList then (z.natAbs : ℚ)
      else -(z.natAbs : ℚ)) = z := by
  rcases toList_int z with ⟨hz, hchars⟩ | ⟨hz, hchars⟩
  · rw [hchars, magnitude_digits toDigits_isDigit, if_pos rfl]
    refine ⟨rfl, ?_⟩
    have habs : (z.natAbs : Int) = z := Int.natAbs_of_nonneg hz
    rw [← Int.cast_natCast, habs]
  · have hne : ¬ Nat.toDigits 10 z.natAbs = '-' :: Nat.toDigits 10 z.natAbs := by
      intro heq
      have := congrArg List.length heq
      simp at this
    rw [hchars]
    refine ⟨rfl, (if_neg hne).trans ?_⟩
    have habs : -(z.natAbs : Int) = z := by omega
    rw [← Int.cast_natCast, ← Int.cast_neg, habs]

variable {N}

theorem numToString_int {z : Int} (h : z.natAbs ≤ 2 ^ 53) :
    Prim.numToString N (.fin z) = js (toString z) := by
  rw [Prim.numToString, if_pos ⟨by simp, by simpa using h⟩, Rat.num_intCast]

/-- **An integer that is written exactly is read back.** -/
theorem ofWord_int {z : Int} (h : z.natAbs ≤ 2 ^ 53) :
    ofWord N (Prim.numToString N (.fin z)) = some (.num (.fin z)) := by
  obtain ⟨hmag, hval⟩ := numeral_int z
  have hnumeral := isNumeral_digits hmag
  have hne : ∀ w : String, isNumeral w.toList = false → js (toString z) ≠ js w := by
    intro w hw heq
    rw [js_inj] at heq
    rw [← heq, hnumeral] at hw
    cases hw
  rw [numToString_int h, ofWord, if_neg (hne _ (by decide)), if_neg (hne _ (by decide)),
    if_neg (hne _ (by decide)), js, scalars_utf16, if_pos hnumeral, numeralValue, scalars_utf16,
    hmag, Nat.ofDigitChars_toDigits (by decide) (by decide),
    if_pos ⟨List.all_eq_true.mpr toDigits_isDigit, h⟩, ← hmag, hval]

/-- The text of such an integer is a word. -/
theorem isWord_int {z : Int} (h : z.natAbs ≤ 2 ^ 53) :
    JsonText.IsWord (Prim.numToString N (.fin z)) := by
  have hdigit : ∀ c : Char, c.isDigit = true → ∀ u ∈ utf16Char c, JsonText.isWordUnit u = true := by
    intro c hc u hu
    have hrange : 48 ≤ c.toNat ∧ c.toNat ≤ 57 := by
      simpa [Char.isDigit, UInt32.le_iff_toNat_le] using hc
    rw [utf16Char, if_pos (by omega), List.mem_singleton] at hu
    subst hu
    have htoNat : (UInt16.ofNat c.toNat).toNat = c.toNat := by
      rw [UInt16.toNat_ofNat']
      exact Nat.mod_eq_of_lt (by omega)
    simp only [JsonText.isWordUnit, htoNat, Bool.or_eq_true, Bool.and_eq_true, decide_eq_true_eq]
    omega
  rw [numToString_int h]
  refine ⟨fun hnil => ?_, fun u hu => ?_⟩
  · have hchars := congrArg scalars hnil
    rw [js, scalars_utf16] at hchars
    rcases toList_int z with ⟨_, hlist⟩ | ⟨_, hlist⟩
    · exact Nat.toDigits_ne_nil (hlist ▸ hchars)
    · rw [hlist] at hchars
      cases hchars
  · obtain ⟨c, hc, hu⟩ := List.mem_flatMap.mp hu
    rcases toList_int z with ⟨_, hlist⟩ | ⟨_, hlist⟩
    · rw [hlist] at hc
      exact hdigit c (toDigits_isDigit c hc) u hu
    · rw [hlist, List.mem_cons] at hc
      rcases hc with rfl | hc
      · have hminus : (utf16Char '-').all JsonText.isWordUnit = true := by decide
        exact List.all_eq_true.mp hminus u hu
      · exact hdigit c (toDigits_isDigit c hc) u hu

/-! ## Values are read back -/

variable (N) in
/-- Every number in the value is read back from its text. -/
def NumbersParse (v : Json) : Prop :=
  ∀ x, .num x ∈ v.within → ∃ q, x = .fin q ∧ JsonText.IsWord (Prim.numToString N x) ∧
    ofWord N (Prim.numToString N x) = some (.num x)

/-- The properties of every object are those of an object: distinct, and in their own order. -/
def Enumerated (v : Json) : Prop :=
  ∀ fields, .obj fields ∈ v.within → DistinctKeys fields ∧ ownOrder fields = fields

theorem ofMembers_written {fields : List (JsString × Json)}
    (h : ∀ p ∈ fields, ofTree N (written N p.2) = some p.2) :
    ofMembers N (writtenFields N fields) = some fields := by
  induction fields with
  | nil => rfl
  | cons p fields ih =>
      obtain ⟨k, v⟩ := p
      rw [List.forall_mem_cons] at h
      have hv : ofTree N (written N v) = some v := h.1
      rw [writtenFields, writtenField, ofMembers, ofMember, hv, ih h.2]
      rfl

theorem ofTrees_written {xs : List Json} (h : ∀ x ∈ xs, ofTree N (written N x) = some x) :
    ofTrees N (writtenAll N xs) = some xs := by
  induction xs with
  | nil => rfl
  | cons x xs ih =>
      rw [List.forall_mem_cons] at h
      rw [writtenAll, ofTrees, h.1, ih h.2]
      rfl

/-- The tree of a value is read as the value. -/
theorem ofTree_written (v : Json) :
    NumbersParse N v → Enumerated v → ofTree N (written N v) = some v := by
  induction v using induct with
  | null =>
      intro _ _
      rw [written, ofTree]
      rfl
  | bool b =>
      intro _ _
      rw [written, ofTree]
      cases b <;> simp [ofWord, js_inj]
  | num x =>
      intro hnum _
      obtain ⟨q, rfl, _, hread⟩ := hnum x (mem_within_self _)
      rw [written, ofTree]
      · exact hread
      all_goals simp
  | str s =>
      intro _ _
      rw [written, ofTree]
  | arr xs ih =>
      intro hnum hobj
      rw [written, ofTree, ofTrees_written]
      · rfl
      · intro x hx
        exact ih x hx (fun y hy => hnum y (mem_within_arr hx hy))
          (fun fields hf => hobj fields (mem_within_arr hx hf))
  | obj fields ih =>
      intro hnum hobj
      obtain ⟨hkeys, hown⟩ := hobj fields (mem_within_self _)
      rw [written, ofTree, ofMembers_written]
      · show some (obj (ownOrder (JsMap.ofList fields).entries)) = _
        rw [JsMap.entries_ofList hkeys, hown]
      · intro p hp
        exact ih p hp (fun y hy => hnum y (mem_within_obj hp hy))
          (fun fields' hf => hobj fields' (mem_within_obj hp hf))

theorem NumbersParse.print {v : Json} (h : NumbersParse N v) : NumbersPrint N v := by
  intro q hq
  obtain ⟨_, _, hword, _⟩ := h _ hq
  exact hword

/-- **What `JSON.stringify` wrote is read back.** -/
theorem parse_stringify {v : Json} (hnum : NumbersParse N v) (hobj : Enumerated v) :
    parse N (stringify N v) = some v := by
  have hread := JsonText.read_write (written N v) (hnum.print.tidy v) (Nat.lt_succ_self _)
    (r := []) (fun u hu => by cases hu)
  rw [List.append_nil] at hread
  rw [parse, stringify_eq_write, hread]
  exact (if_pos rfl).trans (ofTree_written v hnum hobj)

/-! ## Canonical texts -/

/-- A copy enumerates its properties in their own order. -/
theorem enumerated_copied (v : Json) :
    (∀ fields, .obj fields ∈ v.within → DistinctKeys fields) → Enumerated (copied v) := by
  induction v using induct with
  | arr xs ih =>
      intro hkeys fields hf
      rw [copied, mapObjects, mapAll_eq_map, within, List.mem_cons, mem_withinAll] at hf
      rcases hf with hf | ⟨y, hy, hf⟩
      · cases hf
      · obtain ⟨x, hx, rfl⟩ := List.mem_map.mp hy
        exact ih x hx (fun fields hf => hkeys fields (mem_within_arr hx hf)) fields hf
  | obj fields ih =>
      intro hkeys fields' hf
      rw [copied, mapObjects, within, List.mem_cons, mem_withinFields] at hf
      rcases hf with hf | ⟨q, hq, hf⟩
      · cases hf
        refine ⟨?_, ownOrder_eq (pairwise_ownOrder _)⟩
        have hkeep : DistinctKeys (sortFields (mapFields
            (fun fields => assign (sortFields fields)) fields)) := by
          rw [DistinctKeys, ((sortFields_perm _).map Prod.fst).nodup_iff, mapFields_eq_map,
            List.map_map]
          exact hkeys fields (mem_within_self _)
        rw [DistinctKeys, assign, ((ownOrder_perm _).map Prod.fst).nodup_iff]
        exact hkeep.sublist (List.filter_sublist.map _)
      · have hq := mem_of_mem_copy q hq
        rw [mapFields_eq_map] at hq
        obtain ⟨p, hp, rfl⟩ := List.mem_map.mp hq
        exact ih p hp (fun fields hf => hkeys fields (mem_within_obj hp hf)) fields' hf
  | _ =>
      intro _ fields hf
      simp [copied, mapObjects, within] at hf

theorem NumbersParse.copied {v : Json} (h : NumbersParse N v) : NumbersParse N (copied v) :=
  fun x hx => h x (num_mem_within_mapObjects (fun _ => mem_of_mem_copy) v hx)

/-- **A canonical text is read as the copy** that it was written from. -/
theorem parse_canonicalize {v : Json} {s : JsString} (h : canonicalize N v = .ok s)
    (hkeys : ∀ fields, .obj fields ∈ v.within → DistinctKeys fields) (hnum : NumbersParse N v) :
    parse N s = some (copied v) := by
  rw [canonicalize_ok h, ← stringify_eq_write]
  exact parse_stringify hnum.copied (enumerated_copied v hkeys)

/-- A canonical text has no unpaired surrogate, so UTF-8 carries it. -/
theorem wellFormed_canonicalize {v : Json} {s : JsString} (h : canonicalize N v = .ok s)
    (hnum : NumbersParse N v) : WellFormed s := by
  rw [canonicalize_ok h]
  exact JsonText.wellFormed_write _ (hnum.copied.print.tidy _)

end Json

end DtnCustody
