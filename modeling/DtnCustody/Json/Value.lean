/-
# DtnCustody.Json.Value — the values the record code handles, and what the language does with them.

The records of `agent/` and `relief/` come from `JSON.parse`, so a value is one of six kinds and an
object is a list of own properties in enumeration order. A property that is not there reads as
`undefined` (`JsonVal`); reading one of `null` or `undefined` throws.

No property holds a function. That is what an object with an own `toString` runs into when it is
turned into a string (`toStr`), and why comparing or printing an untrusted field can throw. Arrays
and objects are compared by identity, and parsing makes all of them different.
-/
import DtnCustody.Js.Operators

namespace DtnCustody

open Base Js

inductive Json where
  | null
  | bool (b : Bool)
  | num (x : JsNum)
  | str (s : JsString)
  | arr (xs : List Json)
  | obj (fields : List (JsString × Json))

/-- A value, or `undefined`. -/
abbrev JsonVal := Option Json

/-- The runtime, with the one library call that takes a value of any type: `Buffer.from` of
something that is not a string. `none` is a throw. -/
structure Host extends Node where
  bufferOf : Json → Option Bytes

namespace Json

def int (z : Int) : Json := .num (.fin z)

/-- A string literal. -/
def text (s : String) : Json := .str (js s)

/-- `v.name`, for a value that has properties; none of the names the code reads is inherited. -/
def get (v : Json) (name : String) : JsonVal :=
  match v with
  | .obj fields => (fields.find? fun p => p.1 = js name).map Prod.snd
  | _ => none

/-- `typeof v === "object"`, apart from `null`. -/
def isObject : Json → Bool
  | .arr _ => true
  | .obj _ => true
  | _ => false

/-- `!!v`. -/
def truthy : Json → Bool
  | .null => false
  | .bool b => b
  | .num x => decide (x ≠ .fin 0) && decide (x ≠ .nan)
  | .str s => decide (s ≠ [])
  | _ => true

/-! ## Strings and primitives -/

variable (N : Node)

def isNull : Json → Bool
  | .null => true
  | _ => false

mutual

/-- `String(v)`. -/
def toStr : Json → Outcome JsString
  | .null => .ok (js "null")
  | .bool b => .ok (if b then js "true" else js "false")
  | .num x => .ok (Prim.numToString N x)
  | .str s => .ok s
  | .arr xs => joinStr xs
  | .obj fields =>
      if fields.any fun p => p.1 = js "toString" then .error .typeError
      else .ok (js "[object Object]")

/-- `Array.prototype.join`: `null` prints as nothing. -/
def joinStr : List Json → Outcome JsString
  | [] => .ok []
  | [x] => if x.isNull then .ok [] else toStr x
  | x :: y :: rest => do
      let s ← if x.isNull then .ok [] else toStr x
      let t ← joinStr (y :: rest)
      return s ++ js "," ++ t

end

/-- `ToPrimitive`. -/
def toPrim : Json → Outcome Prim
  | .null => .ok .null
  | .bool b => .ok (.bool b)
  | .num x => .ok (.num x)
  | .str s => .ok (.str s)
  | v => do return .str (← v.toStr N)

/-- What a `Map` or `Set` finds a key by: the primitive it is. An array or object is only ever found
through itself. -/
def key? : Json → Option Prim
  | .null => some .null
  | .bool b => some (.bool b)
  | .num x => some (.num x)
  | .str s => some (.str s)
  | _ => none

end Json

namespace JsonVal

def truthy : JsonVal → Bool
  | none => false
  | some v => v.truthy

/-- `v.name`. -/
def get (v : JsonVal) (name : String) : Outcome JsonVal :=
  match v with
  | none => .error .typeError
  | some .null => .error .typeError
  | some v => .ok (v.get name)

theorem get_of_get {v : Json} {name : String} {x : Json} (h : v.get name = some x) :
    get (some v) name = .ok (some x) := by
  cases v with
  | null => cases h
  | _ => exact congrArg Except.ok h

/-- `v?.name`. -/
def get? (v : JsonVal) (name : String) : JsonVal :=
  match v with
  | none => none
  | some v => v.get name

/-- `v ?? w`. -/
def orElse (v w : JsonVal) : JsonVal :=
  match v with
  | none => w
  | some .null => w
  | some v => some v

/-- `v === w`: arrays and objects are never the same one. -/
def strictEq : JsonVal → JsonVal → Bool
  | none, none => true
  | some .null, some .null => true
  | some (.bool a), some (.bool b) => a == b
  | some (.num x), some (.num y) => x == y && x != .nan
  | some (.str s), some (.str t) => s == t
  | _, _ => false

/-- Values that are equal by `===` are the same; an object is not equal to a copy of it. -/
theorem eq_of_strictEq {v w : JsonVal} (h : strictEq v w = true) : v = w := by
  unfold strictEq at h
  split at h <;> simp_all

theorem eq_of_strictEq_int {v : JsonVal} {z : Int} (h : strictEq v (some (.int z)) = true) :
    v = some (.int z) := eq_of_strictEq h

def isText (v : JsonVal) (s : String) : Bool := strictEq v (some (.text s))

def key? : JsonVal → Option Prim
  | none => some .undef
  | some v => v.key?

variable (N : Node)

def toStr : JsonVal → Outcome JsString
  | none => .ok (js "undefined")
  | some v => v.toStr N

def toPrim : JsonVal → Outcome Prim
  | none => .ok .undef
  | some v => v.toPrim N

/-- `Number(v)`, as an operator does it. -/
def toNumber (v : JsonVal) : Outcome JsNum := do (← toPrim N v).toNumber N

/-- `v < w`. -/
def lt (v w : JsonVal) : Outcome Bool := do return Prim.lt N (← toPrim N v) (← toPrim N w)

/-- `v >= w`. -/
def ge (v w : JsonVal) : Outcome Bool := do return Prim.ge N (← toPrim N v) (← toPrim N w)

variable (H : Host)

/-- `Buffer.from(v, encoding)`, with the decoder of strings for that encoding. -/
def toBuffer (decode : JsString → Bytes) : JsonVal → Outcome Bytes
  | some (.str s) => .ok (decode s)
  | some v =>
      match H.bufferOf v with
      | some b => .ok b
      | none => .error .typeError
  | none => .error .typeError

end JsonVal

end DtnCustody
