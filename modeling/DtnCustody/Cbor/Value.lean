/-
# DtnCustody.Cbor.Value — the values `transport/bpv7/cbor.mjs` decodes, and what the language does
with them.

`Cbor` is the type of everything `decode` can return. A text string is a `String`, so it is
well formed by its type; an integer within ±2^53 is a Number and any other a BigInt (`isNumber`),
exactly as `decodeAt` chooses. A field that a map does not hold reads as `undefined`, so fields have
type `JsVal`.

The operators are those of `Js.Prim` after `ToPrimitive` (`toPrim`). `bufferFrom` is `Buffer.from`
on a decoded value: it throws on every type that is not a string, a buffer or an array, which is
what lookups over unchecked records run into.
-/
import DtnCustody.Js.Operators

namespace DtnCustody

open Base Js

inductive Cbor where
  | null
  | bool (b : Bool)
  | int (z : Int)
  | text (s : String)
  | bytes (b : Bytes)
  | array (xs : List Cbor)
  | map (kvs : List (Cbor × Cbor))
  /-- An indefinite-length array (`Indef`). -/
  | indef (xs : List Cbor)
  deriving Repr

/-- A value, or `undefined`. -/
abbrev JsVal := Option Cbor

namespace Cbor

/-- Induction with one hypothesis for every element of an array and every entry of a map. -/
theorem induct {P : Cbor → Prop} (null : P .null) (bool : ∀ b, P (.bool b)) (int : ∀ z, P (.int z))
    (text : ∀ s, P (.text s)) (bytes : ∀ b, P (.bytes b))
    (array : ∀ xs, (∀ x ∈ xs, P x) → P (.array xs))
    (map : ∀ kvs, (∀ p ∈ kvs, P p.1 ∧ P p.2) → P (.map kvs))
    (indef : ∀ xs, (∀ x ∈ xs, P x) → P (.indef xs)) (v : Cbor) : P v := by
  refine Cbor.rec (motive_1 := P) (motive_2 := fun xs => ∀ x ∈ xs, P x)
    (motive_3 := fun kvs => ∀ p ∈ kvs, P p.1 ∧ P p.2) (motive_4 := fun p => P p.1 ∧ P p.2)
    null bool int text bytes (fun xs ih => array xs ih) (fun kvs ih => map kvs ih)
    (fun xs ih => indef xs ih) ?_ ?_ ?_ ?_ ?_ v
  · intro x hx; cases hx
  · intro x xs hx hxs y hy
    rcases List.mem_cons.mp hy with rfl | hy
    · exact hx
    · exact hxs y hy
  · intro p hp; cases hp
  · intro p ps hp hps q hq
    rcases List.mem_cons.mp hq with rfl | hq
    · exact hp
    · exact hps q hq
  · intro k v hk hv; exact ⟨hk, hv⟩

/-! ## Equality -/

mutual

def beq : Cbor → Cbor → Bool
  | .null, .null => true
  | .bool a, .bool b => a == b
  | .int a, .int b => a == b
  | .text a, .text b => a == b
  | .bytes a, .bytes b => a == b
  | .array xs, .array ys => beqAll xs ys
  | .map kvs, .map lws => beqPairs kvs lws
  | .indef xs, .indef ys => beqAll xs ys
  | _, _ => false

def beqAll : List Cbor → List Cbor → Bool
  | [], [] => true
  | x :: xs, y :: ys => beq x y && beqAll xs ys
  | _, _ => false

def beqPairs : List (Cbor × Cbor) → List (Cbor × Cbor) → Bool
  | [], [] => true
  | p :: ps, q :: qs => beqPair p q && beqPairs ps qs
  | _, _ => false

def beqPair : Cbor × Cbor → Cbor × Cbor → Bool
  | (k, v), (l, w) => beq k l && beq v w

end

private theorem beqAll_iff {xs : List Cbor} (h : ∀ x ∈ xs, ∀ y, beq x y = true ↔ x = y)
    (ys : List Cbor) : beqAll xs ys = true ↔ xs = ys := by
  induction xs generalizing ys with
  | nil => cases ys <;> simp [beqAll]
  | cons x xs ih =>
      rw [List.forall_mem_cons] at h
      cases ys with
      | nil => simp [beqAll]
      | cons y ys => simp [beqAll, h.1 y, ih h.2 ys]

private theorem beqPairs_iff {kvs : List (Cbor × Cbor)}
    (h : ∀ p ∈ kvs, (∀ k, beq p.1 k = true ↔ p.1 = k) ∧ ∀ v, beq p.2 v = true ↔ p.2 = v)
    (lws : List (Cbor × Cbor)) : beqPairs kvs lws = true ↔ kvs = lws := by
  induction kvs generalizing lws with
  | nil => cases lws <;> simp [beqPairs]
  | cons p ps ih =>
      rw [List.forall_mem_cons] at h
      cases lws with
      | nil => simp [beqPairs]
      | cons q qs =>
          obtain ⟨k, v⟩ := p
          obtain ⟨l, w⟩ := q
          simp [beqPairs, beqPair, h.1.1 l, h.1.2 w, ih h.2 qs]

theorem beq_iff (v w : Cbor) : beq v w = true ↔ v = w := by
  induction v using Cbor.induct generalizing w with
  | null => cases w <;> simp [beq]
  | bool b => cases w <;> simp [beq]
  | int z => cases w <;> simp [beq]
  | text s => cases w <;> simp [beq]
  | bytes b => cases w <;> simp [beq]
  | array xs ih => cases w <;> simp [beq, beqAll_iff ih]
  | map kvs ih => cases w <;> simp [beq, beqPairs_iff ih]
  | indef xs ih => cases w <;> simp [beq, beqAll_iff ih]

instance : DecidableEq Cbor := fun v w => decidable_of_iff (beq v w = true) (beq_iff v w)

/-! ## Map keys -/

/-- `SameValueZero` on decoded values: scalars by value, while two separately decoded buffers,
arrays or maps are different objects. -/
def sameKey : Cbor → Cbor → Bool
  | .null, .null => true
  | .bool a, .bool b => a == b
  | .int a, .int b => a == b
  | .text s, .text t => s == t
  | _, _ => false

/-- `m.set(k, v)`: an existing key keeps its place. -/
def mapSet : List (Cbor × Cbor) → Cbor → Cbor → List (Cbor × Cbor)
  | [], k, v => [(k, v)]
  | (k', v') :: rest, k, v =>
      if sameKey k' k then (k', v) :: rest else (k', v') :: mapSet rest k v

/-- `m.get(k)`. -/
def mapGet (kvs : List (Cbor × Cbor)) (k : Cbor) : JsVal :=
  (kvs.find? fun p => sameKey p.1 k).map Prod.snd

/-- Keys that `mapSet` keeps apart. -/
def DistinctKeys (kvs : List (Cbor × Cbor)) : Prop :=
  kvs.Pairwise fun p q => sameKey p.1 q.1 = false

theorem mapSet_eq_append {kvs : List (Cbor × Cbor)} {k v : Cbor}
    (h : ∀ p ∈ kvs, sameKey p.1 k = false) : mapSet kvs k v = kvs ++ [(k, v)] := by
  induction kvs with
  | nil => rfl
  | cons p kvs ih =>
      rw [List.forall_mem_cons] at h
      simp only [mapSet, h.1, Bool.false_eq_true, if_false, List.cons_append, ih h.2]

theorem sameKey_eq {a b : Cbor} (h : sameKey a b = true) : a = b := by
  cases a <;> cases b <;> simp_all [sameKey]

theorem mem_mapSet {kvs : List (Cbor × Cbor)} {k v : Cbor} {p : Cbor × Cbor}
    (h : p ∈ mapSet kvs k v) : p ∈ kvs ∨ p = (k, v) := by
  induction kvs with
  | nil => exact Or.inr (List.mem_singleton.mp h)
  | cons q kvs ih =>
      rw [mapSet] at h
      split at h
      · rename_i hk
        rcases List.mem_cons.mp h with rfl | h
        · exact Or.inr (by rw [sameKey_eq hk])
        · exact Or.inl (List.mem_cons_of_mem _ h)
      · rcases List.mem_cons.mp h with rfl | h
        · exact Or.inl List.mem_cons_self
        · exact (ih h).imp_left (List.mem_cons_of_mem _)

theorem distinctKeys_mapSet {kvs : List (Cbor × Cbor)} {k v : Cbor} (h : DistinctKeys kvs) :
    DistinctKeys (mapSet kvs k v) := by
  induction kvs with
  | nil => exact List.pairwise_singleton _ _
  | cons q kvs ih =>
      obtain ⟨hq, hkvs⟩ := List.pairwise_cons.mp h
      rw [mapSet]
      split
      · exact List.pairwise_cons.mpr ⟨hq, hkvs⟩
      · rename_i hk
        refine List.pairwise_cons.mpr ⟨fun p hp => ?_, ih hkvs⟩
        rcases mem_mapSet hp with hp | rfl
        · exact hq p hp
        · simpa using hk

theorem length_mapSet_le (kvs : List (Cbor × Cbor)) (k v : Cbor) :
    (mapSet kvs k v).length ≤ kvs.length + 1 := by
  induction kvs with
  | nil => simp [mapSet]
  | cons q kvs ih =>
      rw [mapSet]
      split
      · simp
      · simpa using ih

/-! ## `ToPrimitive`, `String(v)` and truth -/

def isNull : Cbor → Bool
  | .null => true
  | _ => false

mutual

/-- `String(v)`. -/
def toText : Cbor → String
  | .null => "null"
  | .bool b => if b then "true" else "false"
  | .int z => toString z
  | .text s => s
  | .bytes b => String.ofList (utf8Decode b)
  | .array xs => joinText xs
  | .map _ => "[object Map]"
  | .indef _ => "[object Object]"

/-- `Array.prototype.join`: `null` prints as nothing. -/
def joinText : List Cbor → String
  | [] => ""
  | [x] => if x.isNull then "" else toText x
  | x :: y :: rest => (if x.isNull then "" else toText x) ++ "," ++ joinText (y :: rest)

end

/-- The integers that `decodeAt` returns as a Number; all others are BigInts. -/
def isNumber (z : Int) : Bool := -9007199254740992 ≤ z && z ≤ 9007199254740991

def toPrim : Cbor → Prim
  | .null => .null
  | .bool b => .bool b
  | .int z => if isNumber z then .int z else .big z
  | .text s => .str (js s)
  | v => .str (js (toText v))

/-- `!!v`: every object is true, an empty buffer or array included. -/
def truthy : Cbor → Bool
  | .null => false
  | .bool b => b
  | .int z => decide (z ≠ 0)
  | .text s => decide (s ≠ "")
  | _ => true

theorem toPrim_int {z : Int} (h : isNumber z = true) : toPrim (.int z) = .int z := by
  simp [toPrim, h]

/-- `v[i]` as an array element; anything that is not an array has none here. -/
def items? : Cbor → Option (List Cbor)
  | .array xs => some xs
  | _ => none

end Cbor

namespace JsVal

def toPrim : JsVal → Prim
  | none => .undef
  | some v => v.toPrim

def truthy : JsVal → Bool
  | none => false
  | some v => v.truthy

/-- `v ?? d`. -/
def orElse (v : JsVal) (d : Cbor) : Cbor :=
  match v with
  | none => d
  | some .null => d
  | some v => v

/-- `v === s` for a string `s`. -/
def isText (v : JsVal) (s : String) : Bool :=
  match v with
  | some (.text t) => t == s
  | _ => false

/-- `v === z` for a Number `z`. -/
def isInt (v : JsVal) (z : Int) : Bool :=
  match v with
  | some (.int w) => w == z
  | _ => false

theorem isInt_iff {v : JsVal} {z : Int} : v.isInt z = true ↔ v = some (.int z) := by
  cases v with
  | none => simp [isInt]
  | some w => cases w <;> simp [isInt]

variable (N : Node)

/-- One element of an array-like source of `Buffer.from`: `ToNumber`, then modulo 256. -/
def toUint8 (v : Cbor) : Outcome UInt8 := do
  return UInt8.ofNat (← v.toPrim.toNumber N).toUint32

/-- `Buffer.from(v)`. -/
def bufferFrom : JsVal → Outcome Bytes
  | some (.bytes b) => .ok b
  | some (.text s) => .ok (utf8Encode s.toList)
  | some (.array xs) => xs.mapM (toUint8 N)
  | _ => .error .typeError

end JsVal

end DtnCustody
