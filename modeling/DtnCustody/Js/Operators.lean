/-
# DtnCustody.Js.Operators — the operators of the language on primitive values.

Untrusted records reach the code as values of any type, and what `<`, `-`, `&` and `!x` do on the
wrong type decides several of its answers. This module states them once, on `Prim`. A value that is
not a primitive is first turned into one (`ToPrimitive`) by the module that owns its type.

Numbers are exact rationals with the infinities and `NaN`: every number the code computes with is
an integer of milliseconds, bytes or bits far below 2^53, where the two agree. How a string reads
as a number is the engine's business, so it is taken from `Node`, with no assumption on it. A product or a
quotient of finite numbers is exact.
-/
import DtnCustody.Base.Text
import Mathlib.Data.Rat.Floor

namespace DtnCustody.Js

open Base

/-- What an operation can throw. -/
inductive Err where
  | error (message : String)
  | typeError
  | rangeError
  deriving DecidableEq, Repr

/-- A computation that returns or throws. -/
abbrev Outcome (α : Type) := Except Err α

/-- A sequence of two steps returns when both do. -/
theorem Outcome.bind_eq_ok {α β : Type} {x : Outcome α} {f : α → Outcome β} {r : β} :
    x >>= f = .ok r ↔ ∃ a, x = .ok a ∧ f a = .ok r := by
  cases x with
  | error e =>
      constructor
      · intro h; cases h
      · rintro ⟨_, h, _⟩; cases h
  | ok a =>
      constructor
      · intro h; exact ⟨a, rfl, h⟩
      · rintro ⟨_, h, hf⟩; cases h; exact hf

@[simp] theorem Outcome.ok_bind {α β : Type} (a : α) (f : α → Outcome β) :
    (Except.ok a >>= f : Outcome β) = f a := rfl

@[simp] theorem Outcome.error_bind {α β : Type} (e : Err) (f : α → Outcome β) :
    (Except.error e >>= f : Outcome β) = .error e := rfl

@[simp] theorem Outcome.pure_eq_ok {α : Type} (a : α) : (pure a : Outcome α) = .ok a := rfl

theorem Outcome.ok_of_toOption {α : Type} {x : Outcome α} {a : α} (h : x.toOption = some a) :
    x = .ok a := by
  cases x with
  | error e => cases h
  | ok a' =>
      cases h
      rfl

theorem Outcome.exists_ok {α : Type} {x : Outcome α} (h : x.toOption.isSome = true) :
    ∃ a, x = .ok a := by
  obtain ⟨a, ha⟩ := Option.isSome_iff_exists.mp h
  exact ⟨a, Outcome.ok_of_toOption ha⟩

/-- A loop over a list returns when every step does. -/
theorem Outcome.mapM_eq_ok {α β : Type} {f : α → Outcome β} {xs : List α} :
    ∀ {ys : List β}, xs.mapM f = .ok ys → List.Forall₂ (fun x y => f x = .ok y) xs ys := by
  induction xs with
  | nil => intro ys h; cases h; exact .nil
  | cons x xs ih =>
      intro ys h
      rw [List.mapM_cons] at h
      obtain ⟨y, hy, h⟩ := Outcome.bind_eq_ok.mp h
      obtain ⟨rest, hrest, h⟩ := Outcome.bind_eq_ok.mp h
      cases h
      exact .cons hy (ih hrest)

/-- A loop that only checks has checked every element. -/
theorem Outcome.forM_eq_ok {α : Type} {f : α → Outcome Unit} {xs : List α} :
    xs.forM f = .ok () → ∀ x ∈ xs, f x = .ok () := by
  induction xs with
  | nil => exact fun _ x hx => absurd hx List.not_mem_nil
  | cons x xs ih =>
      intro h
      obtain ⟨⟨⟩, hx, h⟩ := Outcome.bind_eq_ok.mp
        (show (f x >>= fun _ => xs.forM f) = .ok () from h)
      exact List.forall_mem_cons.mpr ⟨hx, ih h⟩

/-- What a loop returns for an element stands where the element does. -/
theorem Outcome.getElem?_of_mapM {α β : Type} {f : α → Outcome β} {xs : List α} {ys : List β}
    (h : xs.mapM f = .ok ys) {i : Nat} {x : α} (hx : xs[i]? = some x) :
    ∃ y, ys[i]? = some y ∧ f x = .ok y := by
  have hall := Outcome.mapM_eq_ok h
  obtain ⟨hi, rfl⟩ := List.getElem?_eq_some_iff.mp hx
  have hi' : i < ys.length := hall.length_eq ▸ hi
  exact ⟨ys[i], List.getElem?_eq_getElem hi', hall.get hi hi'⟩

/-- What a loop returns comes from its turns. -/
theorem Outcome.mem_of_mapM {α β : Type} {f : α → Outcome β} {xs : List α} {ys : List β}
    (h : xs.mapM f = .ok ys) {y : β} (hy : y ∈ ys) : ∃ x ∈ xs, f x = .ok y := by
  have hall := Outcome.mapM_eq_ok h
  clear h
  induction hall with
  | nil => cases hy
  | @cons x y' xs ys hx _ ih =>
      rcases List.mem_cons.mp hy with rfl | hy
      · exact ⟨x, List.mem_cons_self, hx⟩
      · obtain ⟨x', hx', hf⟩ := ih hy
        exact ⟨x', List.mem_cons_of_mem _ hx', hf⟩

/-- Every turn of a loop that returns adds what it returns. -/
theorem Outcome.exists_of_mapM {α β : Type} {f : α → Outcome β} {xs : List α} {ys : List β}
    (h : xs.mapM f = .ok ys) {x : α} (hx : x ∈ xs) : ∃ y ∈ ys, f x = .ok y := by
  have hall := Outcome.mapM_eq_ok h
  clear h
  induction hall with
  | nil => cases hx
  | @cons x' y xs ys hf _ ih =>
      rcases List.mem_cons.mp hx with rfl | hx
      · exact ⟨y, List.mem_cons_self, hf⟩
      · obtain ⟨y', hy', hf'⟩ := ih hx
        exact ⟨y', List.mem_cons_of_mem _ hy', hf'⟩

/-- A Number. -/
inductive JsNum where
  | nan
  | inf (negative : Bool)
  | fin (q : ℚ)
  deriving DecidableEq

/-- What the code takes from the runtime: hashing and signatures (node:crypto), and the reading of
a string as a number. Key and signature bytes are opaque; `ed25519Verify` answers `false` where the
real call throws on a malformed key, as every caller catches that. -/
structure Node where
  sha256 : Bytes → Bytes
  /-- SPKI DER of the public key, message, signature. -/
  ed25519Verify : Bytes → Bytes → Bytes → Bool
  /-- Private key, message. -/
  ed25519Sign : Bytes → Bytes → Bytes
  stringToNumber : JsString → JsNum
  stringToBigInt : JsString → Option Int
  /-- `Number.prototype.toString` away from the integers up to 2^53, whose digits it writes. -/
  numberToString : ℚ → JsString

inductive Prim where
  | undef
  | null
  | bool (b : Bool)
  | num (x : JsNum)
  | big (z : Int)
  | str (s : JsString)
  deriving DecidableEq

namespace JsNum

/-- `x < y` on numbers; `none` is the `undefined` answer when either is `NaN`. -/
def lt : JsNum → JsNum → Option Bool
  | .nan, _ => none
  | _, .nan => none
  | .inf a, .inf b => some (a && !b)
  | .inf a, .fin _ => some a
  | .fin _, .inf b => some (!b)
  | .fin p, .fin q => some (decide (p < q))

def neg : JsNum → JsNum
  | .nan => .nan
  | .inf a => .inf (!a)
  | .fin q => .fin (-q)

def add : JsNum → JsNum → JsNum
  | .nan, _ => .nan
  | _, .nan => .nan
  | .inf a, .inf b => if a = b then .inf a else .nan
  | .inf a, .fin _ => .inf a
  | .fin _, .inf b => .inf b
  | .fin p, .fin q => .fin (p + q)

def sub (x y : JsNum) : JsNum := x.add y.neg

/-- `x >= y`. -/
def ge (x y : JsNum) : Bool := (x.lt y).any (! ·)

/-- `Math.max(x, y)`. -/
def larger (x y : JsNum) : JsNum :=
  match x.lt y with
  | none => .nan
  | some true => y
  | some false => x

/-- Whether `(a, b) => x - y` leaves `a` before `b`: a difference that is no number counts as none. -/
def inOrder (x y : JsNum) : Bool := (lt (.fin 0) (x.sub y)) != some true

/-- `ToUint32`: truncate towards zero, then modulo 2^32. -/
def toUint32 : JsNum → Nat
  | .fin q => ((if q < 0 then -⌊-q⌋ else ⌊q⌋) % 4294967296).toNat
  | _ => 0

@[simp] theorem lt_fin (p q : ℚ) : lt (.fin p) (.fin q) = some (decide (p < q)) := rfl

@[simp] theorem toUint32_natCast (n : Nat) (h : n < 4294967296) :
    toUint32 (.fin (n : ℚ)) = n := by
  have h0 : ¬ ((n : ℚ) < 0) := not_lt.mpr (Nat.cast_nonneg n)
  simp only [toUint32, h0, if_false, Int.floor_natCast]
  omega

end JsNum

namespace Prim

variable (N : Node)

/-- `Number(x)` for an operator: a BigInt does not convert. -/
def toNumber : Prim → Outcome JsNum
  | .undef => .ok .nan
  | .null => .ok (.fin 0)
  | .bool b => .ok (.fin (if b then 1 else 0))
  | .num x => .ok x
  | .big _ => .error .typeError
  | .str s => .ok (N.stringToNumber s)

/-- The mathematical value a relational operator compares: a BigInt is compared by value. -/
def toComparable : Prim → JsNum
  | .undef => .nan
  | .null => .fin 0
  | .bool b => .fin (if b then 1 else 0)
  | .num x => x
  | .big z => .fin z
  | .str s => N.stringToNumber s

/-- `x < y`; `none` is the `undefined` answer. Two strings compare by code units. -/
def lt? : Prim → Prim → Option Bool
  | .str s, .str t => some (decide (s < t))
  | .big z, .str t => (N.stringToBigInt t).map fun w => decide (z < w)
  | .str s, .big w => (N.stringToBigInt s).map fun z => decide (z < w)
  | x, y => (x.toComparable N).lt (y.toComparable N)

/-- `x < y` as a condition: `undefined` counts as false. -/
def lt (x y : Prim) : Bool := (lt? N x y).getD false

/-- `x >= y` is the negation of `x < y` unless that is `undefined`. -/
def ge (x y : Prim) : Bool := (lt? N x y).any (! ·)

/-- `x <= y`, in the same way from `y < x`. -/
def le (x y : Prim) : Bool := (lt? N y x).any (! ·)

/-- `x - y`: a BigInt and a Number do not mix. -/
def sub : Prim → Prim → Outcome Prim
  | .big z, .big w => .ok (.big (z - w))
  | x, y => do return .num ((← x.toNumber N).sub (← y.toNumber N))

def numToString : JsNum → JsString
  | .nan => js "NaN"
  | .inf neg => if neg then js "-Infinity" else js "Infinity"
  | .fin q => if q.den = 1 ∧ q.num.natAbs ≤ 2 ^ 53 then js (toString q.num) else N.numberToString q

/-- `String(x)`. -/
def toJsString : Prim → JsString
  | .undef => js "undefined"
  | .null => js "null"
  | .bool b => if b then js "true" else js "false"
  | .num x => numToString N x
  | .big z => js (toString z)
  | .str s => s

/-- `x + y`: concatenation as soon as one side is a string. -/
def add : Prim → Prim → Outcome Prim
  | .str s, y => .ok (.str (s ++ y.toJsString N))
  | x, .str t => .ok (.str (x.toJsString N ++ t))
  | .big z, .big w => .ok (.big (z + w))
  | x, y => do return .num ((← x.toNumber N).add (← y.toNumber N))

/-- `x & mask` for a small constant mask, as a bit pattern; a BigInt operand throws. -/
def bitAnd (x : Prim) (mask : Nat) : Outcome Nat := do
  return (← x.toNumber N).toUint32 &&& mask

/-- `!!x`. -/
def truthy : Prim → Bool
  | .undef => false
  | .null => false
  | .bool b => b
  | .num x => decide (x ≠ .fin 0) && decide (x ≠ .nan)
  | .big z => decide (z ≠ 0)
  | .str s => decide (s ≠ [])

/-- A Number holding an integer. -/
abbrev int (z : Int) : Prim := .num (.fin z)

@[simp] theorem lt_int (a b : Int) : lt N (int a) (int b) = decide (a < b) := by
  simp [lt, lt?, toComparable]

@[simp] theorem ge_int (a b : Int) : ge N (int a) (int b) = decide (b ≤ a) := by
  by_cases h : a < b
  · simp [ge, lt?, toComparable, h]
  · simp [ge, lt?, toComparable, h, not_lt.mp h]

@[simp] theorem le_int (a b : Int) : le N (int a) (int b) = decide (a ≤ b) := by
  by_cases h : b < a
  · simp [le, lt?, toComparable, h]
  · simp [le, lt?, toComparable, h, not_lt.mp h]

@[simp] theorem sub_int (a b : Int) : sub N (int a) (int b) = .ok (int (a - b)) := by
  simp [sub, toNumber, JsNum.sub, JsNum.neg, JsNum.add, sub_eq_add_neg]

@[simp] theorem add_int (a b : Int) : add N (int a) (int b) = .ok (int (a + b)) := by
  simp [add, toNumber, JsNum.add]

end Prim

end DtnCustody.Js

namespace DtnCustody.Js.JsNum

/-! ## Rounding, product and quotient of numbers -/

/-- `Math.floor(x)`. -/
def floor : JsNum → JsNum
  | .fin q => .fin ⌊q⌋
  | x => x

/-- `Math.ceil(x)`. -/
def ceil : JsNum → JsNum
  | .fin q => .fin ⌈q⌉
  | x => x

/-- `x * y`. -/
def mul : JsNum → JsNum → JsNum
  | .nan, _ => .nan
  | _, .nan => .nan
  | .inf a, .inf b => .inf (a != b)
  | .inf a, .fin q => if q = 0 then .nan else .inf (a != decide (q < 0))
  | .fin p, .inf b => if p = 0 then .nan else .inf (b != decide (p < 0))
  | .fin p, .fin q => .fin (p * q)

/-- `x / y`. -/
def div : JsNum → JsNum → JsNum
  | .nan, _ => .nan
  | _, .nan => .nan
  | .inf _, .inf _ => .nan
  | .inf a, .fin q => .inf (a != decide (q < 0))
  | .fin _, .inf _ => .fin 0
  | .fin p, .fin q => if q = 0 then (if p = 0 then .nan else .inf (decide (p < 0))) else .fin (p / q)

/-- A number from 1 to a bound that was rounded down. -/
theorem floor_between {x : JsNum} {m : Nat} (hone : x.floor.ge (.fin 1) = true)
    (hmax : JsNum.lt (.fin m) x.floor ≠ some true) : ∃ n : Nat, 1 ≤ n ∧ n ≤ m ∧ x.floor = .fin n := by
  cases x with
  | nan => simp [floor, ge, lt] at hone
  | inf a => cases a <;> simp [floor, ge, lt] at hone hmax
  | fin q =>
      have hlow : (1 : ℚ) ≤ ⌊q⌋ := by simpa [floor, ge] using hone
      have hhigh : (⌊q⌋ : ℚ) ≤ m := by simpa [floor] using hmax
      have hlow' : 1 ≤ ⌊q⌋ := by exact_mod_cast hlow
      have hhigh' : ⌊q⌋ ≤ m := by exact_mod_cast hhigh
      refine ⟨⌊q⌋.toNat, by omega, by omega, ?_⟩
      have hcast : ((⌊q⌋.toNat : Int) : ℚ) = (⌊q⌋ : ℚ) := by
        rw [Int.toNat_of_nonneg (by omega)]
      rw [floor, ← hcast]
      rfl

/-- A number above zero that was rounded down. -/
theorem floor_pos {x : JsNum} (h : JsNum.lt (.fin 0) x.floor = some true) :
    (∃ n : Nat, 0 < n ∧ x.floor = .fin n) ∨ x.floor = .inf false := by
  cases x with
  | nan => cases h
  | inf a =>
      cases a with
      | false => exact .inr rfl
      | true => cases h
  | fin q =>
      have hpos : (0 : ℚ) < ⌊q⌋ := by simpa [floor] using h
      have hpos' : 0 < ⌊q⌋ := by exact_mod_cast hpos
      refine .inl ⟨⌊q⌋.toNat, by omega, ?_⟩
      have hcast : ((⌊q⌋.toNat : Int) : ℚ) = (⌊q⌋ : ℚ) := by
        rw [Int.toNat_of_nonneg (by omega)]
      rw [floor, ← hcast]
      rfl

end DtnCustody.Js.JsNum
