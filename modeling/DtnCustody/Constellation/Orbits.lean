/-
# DtnCustody.Constellation.Orbits — `constellation/orbits.mjs`: the links that `topology` chooses from orbits.

Positions are exact numbers of some ordered field, and one is missing where the propagator gave none. A distance is
a square root, which need not be in the field, so a `Length` is kept by its square: it is only ever compared, with a
number or with another length.

The candidates are found with a grid of cells as wide as a link may be long (`grid`, `pairs`). They are then taken
from the shortest on, in two passes that share the degrees of the satellites, bytes that wrap around, and the set of
links: first those that were links before, then all.
-/
import DtnCustody.Base.Gather
import DtnCustody.Base.Space
import Mathlib.Analysis.Real.Sqrt
import Mathlib.Data.List.Sort
import Mathlib.Data.Rat.Floor

namespace DtnCustody.Constellation

open Space
open Base (JsMap)

/-! ## Lengths -/

/-- What `Math.hypot` returns. -/
structure Length (K : Type) where
  sq : K

variable {K : Type} [Field K]

def hypot (x y z : K) : Length K := ⟨x * x + y * y + z * z⟩

section Compared

variable [LinearOrder K]

/-- `l <= r`. -/
def Length.le (l : Length K) (r : K) : Bool := decide (0 ≤ r ∧ l.sq ≤ r * r)

/-- `l > r`. -/
def Length.gt (l : Length K) (r : K) : Bool := decide (r < 0 ∨ r * r < l.sq)

/-- `x - y <= 0`. -/
def Length.inOrder (x y : Length K) : Bool := decide (x.sq ≤ y.sq)

end Compared

/-! Of real numbers the comparisons are those of the square roots. -/

theorem Length.le_iff_sqrt {l : Length ℝ} {r : ℝ} : l.le r = true ↔ Real.sqrt l.sq ≤ r := by
  rw [Real.sqrt_le_iff, pow_two]
  exact decide_eq_true_iff

theorem Length.gt_iff_sqrt {l : Length ℝ} {r : ℝ} : l.gt r = true ↔ r < Real.sqrt l.sq := by
  rw [← not_le, Real.sqrt_le_iff, pow_two, not_and_or, not_le, not_le]
  exact decide_eq_true_iff

theorem Length.inOrder_iff_sqrt {x y : Length ℝ} (hy : 0 ≤ y.sq) :
    x.inOrder y = true ↔ Real.sqrt x.sq - Real.sqrt y.sq ≤ 0 := by
  rw [sub_nonpos, Real.sqrt_le_sqrt_iff hy]
  exact decide_eq_true_iff

/-! ## The grid -/

/-- What `Math.floor(x / cell)` can be; division by zero gives no integer. -/
inductive Coord where
  | fin (z : Int)
  | inf (negative : Bool)
  | nan
  deriving DecidableEq

/-- `c + a` for an integer `a`. -/
def Coord.add : Coord → Int → Coord
  | .fin z, a => .fin (z + a)
  | .inf negative, _ => .inf negative
  | .nan, _ => .nan

/-- Three coordinates in a template string. -/
abbrev Key := Coord × Coord × Coord

variable [LinearOrder K] [FloorRing K]

def coord (cell x : K) : Coord :=
  if cell = 0 then if x = 0 then .nan else .inf (decide (x < 0))
  else .fin ⌊x / cell⌋

def key (cell : K) (p : Vec K) : Key := (coord cell p.x, coord cell p.y, coord cell p.z)

/-- `pos[3 * i]` and the two behind it: an array of zeros where nothing was put. -/
def place (pos : List (Option (Vec K))) (i : Nat) : Vec K := ((pos[i]?).join).getD ⟨0, 0, 0⟩

/-- The satellites with `ok[i]`. -/
def placed (pos : List (Option (Vec K))) : List Nat :=
  (List.range pos.length).filter fun i => ((pos[i]?).join).isSome

def grid (cell : K) (pos : List (Option (Vec K))) : JsMap Key (List Nat) :=
  Base.Gather.gather (fun i => key cell (place pos i)) (fun _ => []) (fun l i => l ++ [i]) (placed pos)

/-- The keys of a cell and of those around it, in the order of the loops. -/
def around (k : Key) : List Key :=
  [-1, 0, 1].flatMap fun a => [-1, 0, 1].flatMap fun b => [-1, 0, 1].map fun d =>
    (k.1.add a, k.2.1.add b, k.2.2.add d)

/-! ## Candidates -/

/-- `RE + 80`. -/
def clearance : K := 6378137 / 1000 + 80

def clearsEarth (p q : Vec K) : Bool :=
  let dx := q.x - p.x
  let dy := q.y - p.y
  let dz := q.z - p.z
  -- two satellites at one place: 0 / 0 is NaN, and so is what comes of it
  if dx * dx + dy * dy + dz * dz = 0 then false
  else
    let tt := max 0 (min 1 (-(p.x * dx + p.y * dy + p.z * dz) / (dx * dx + dy * dy + dz * dz)))
    (hypot (p.x + tt * dx) (p.y + tt * dy) (p.z + tt * dz)).gt clearance

/-- `pairs`, before they are sorted. -/
def pairs (maxIslKm : K) (pos : List (Option (Vec K))) : List (Length K × Nat × Nat) :=
  (placed pos).flatMap fun i =>
    (around (key maxIslKm (place pos i))).flatMap fun k =>
      (((grid maxIslKm pos).get? k).getD []).filterMap fun j =>
        if j ≤ i then none
        else
          let p := place pos i
          let q := place pos j
          let dist := hypot (p.x - q.x) (p.y - q.y) (p.z - q.z)
          if dist.le maxIslKm && clearsEarth p q then some (dist, i, j) else none

/-- `pairs.sort`, which is stable. -/
def sortedPairs (maxIslKm : K) (pos : List (Option (Vec K))) : List (Length K × Nat × Nat) :=
  (pairs maxIslKm pos).insertionSort fun x y => x.1.inOrder y.1

/-! ## The selection -/

/-- The degrees, the neighbours and the set of links, with the end of the lower number first. -/
structure Selection where
  deg : List UInt8
  adj : List (List Nat)
  edges : List (Nat × Nat)
  deriving DecidableEq

namespace Selection

def new (n : Nat) : Selection :=
  { deg := List.replicate n 0, adj := List.replicate n [], edges := [] }

/-- `deg[i] >= maxIsl`. -/
def full (s : Selection) (maxIsl i : Nat) : Bool := decide (maxIsl ≤ ((s.deg[i]?).getD 0).toNat)

/-- One link more. -/
def link (s : Selection) (i j : Nat) : Selection :=
  { deg := (s.deg.modify i (· + 1)).modify j (· + 1)
    adj := (s.adj.modify i (· ++ [j])).modify j (· ++ [i])
    edges := if s.edges.contains (i, j) then s.edges else s.edges ++ [(i, j)] }

/-- The first pass, for one candidate. -/
def keep (prevEdges : List (Nat × Nat)) (maxIsl : Nat) (s : Selection) (x : Length K × Nat × Nat) : Selection :=
  if !prevEdges.contains (x.2.1, x.2.2) ∨ s.full maxIsl x.2.1 ∨ s.full maxIsl x.2.2 then s
  else s.link x.2.1 x.2.2

/-- The second. -/
def fill (maxIsl : Nat) (s : Selection) (x : Length K × Nat × Nat) : Selection :=
  if s.edges.contains (x.2.1, x.2.2) then s
  else if s.full maxIsl x.2.1 ∨ s.full maxIsl x.2.2 then s
  else s.link x.2.1 x.2.2

end Selection

/-- **The inter-satellite links of an epoch**, from the positions of the satellites and the links of the epoch
before. -/
def topology (maxIslKm : K) (maxIsl : Nat) (prevEdges : Option (List (Nat × Nat)))
    (pos : List (Option (Vec K))) : Selection :=
  let candidates := sortedPairs maxIslKm pos
  let kept := match prevEdges with
    | some prev => candidates.foldl (Selection.keep prev maxIsl) (Selection.new pos.length)
    | none => Selection.new pos.length
  candidates.foldl (Selection.fill maxIsl) kept

example : (topology (K := ℚ) 2500 1 none
    [some ⟨7000, 0, 0⟩, some ⟨7000, 1000, 0⟩, none, some ⟨7000, -500, 0⟩]).adj = [[3], [], [], [0]] := by
  decide +kernel

end DtnCustody.Constellation
