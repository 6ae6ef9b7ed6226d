/-
# DtnCustody.Base.Space — points of space over an ordered field: segments and the cells of a grid.

The point of a segment that is nearest to the origin stands where a parabola is least, or at an end where that is
beyond it (`normSq_nearest_le`). Two points no farther apart than the side of the cells of a grid stand in the same
cell or in neighbouring ones (`floor_div_le`).
-/
import Mathlib.Algebra.Order.Floor.Ring
import Mathlib.Algebra.Order.Ring.Abs
import Mathlib.Tactic.FieldSimp
import Mathlib.Tactic.Linarith
import Mathlib.Tactic.Ring

namespace DtnCustody.Space

@[ext] structure Vec (K : Type) where
  x : K
  y : K
  z : K
  deriving DecidableEq

namespace Vec

variable {K : Type} [Field K]

def sub (p q : Vec K) : Vec K := ⟨p.x - q.x, p.y - q.y, p.z - q.z⟩

def dot (p q : Vec K) : K := p.x * q.x + p.y * q.y + p.z * q.z

def normSq (p : Vec K) : K := p.dot p

/-- The point of a segment at `t`, which is its first end at 0 and its second at 1. -/
def along (p q : Vec K) (t : K) : Vec K :=
  ⟨p.x + t * (q.x - p.x), p.y + t * (q.y - p.y), p.z + t * (q.z - p.z)⟩

@[simp] theorem along_self (p : Vec K) (t : K) : p.along p t = p := by
  simp [along]

/-- The segment from its other end. -/
theorem along_swap (p q : Vec K) (t : K) : q.along p t = p.along q (1 - t) := by
  unfold along
  ext
  · show q.x + t * (p.x - q.x) = p.x + (1 - t) * (q.x - p.x)
    ring
  · show q.y + t * (p.y - q.y) = p.y + (1 - t) * (q.y - p.y)
    ring
  · show q.z + t * (p.z - q.z) = p.z + (1 - t) * (q.z - p.z)
    ring

theorem normSq_along (p q : Vec K) (t : K) : (p.along q t).normSq =
    p.normSq + 2 * p.dot (q.sub p) * t + (q.sub p).normSq * (t * t) := by
  simp only [normSq, dot, along, sub]
  ring

theorem normSq_sub_comm (p q : Vec K) : (p.sub q).normSq = (q.sub p).normSq := by
  simp only [normSq, dot, sub]
  ring

variable [LinearOrder K] [IsStrictOrderedRing K]

theorem normSq_nonneg (p : Vec K) : 0 ≤ p.normSq :=
  add_nonneg (add_nonneg (mul_self_nonneg _) (mul_self_nonneg _)) (mul_self_nonneg _)

/-- No coordinate is greater than the point is far. -/
theorem mul_self_le_normSq (p : Vec K) :
    p.x * p.x ≤ p.normSq ∧ p.y * p.y ≤ p.normSq ∧ p.z * p.z ≤ p.normSq := by
  have hx := mul_self_nonneg p.x
  have hy := mul_self_nonneg p.y
  have hz := mul_self_nonneg p.z
  unfold normSq dot
  exact ⟨by linarith, by linarith, by linarith⟩

theorem abs_le_of_normSq_le {p : Vec K} {r : K} (hr : 0 ≤ r) (h : p.normSq ≤ r * r) :
    |p.x| ≤ r ∧ |p.y| ≤ r ∧ |p.z| ≤ r := by
  obtain ⟨hx, hy, hz⟩ := mul_self_le_normSq p
  have habs : ∀ {a : K}, a * a ≤ p.normSq → |a| ≤ r := fun ha =>
    (abs_le_iff_mul_self_le.mpr (ha.trans h)).trans_eq (abs_of_nonneg hr)
  exact ⟨habs hx, habs hy, habs hz⟩

theorem sub_eq_zero_iff (p q : Vec K) : (q.sub p).normSq = 0 ↔ p = q := by
  constructor
  · intro h
    obtain ⟨hx, hy, hz⟩ := mul_self_le_normSq (q.sub p)
    rw [h] at hx hy hz
    have hzero : ∀ {a : K}, a * a ≤ 0 → a = 0 := fun ha => mul_self_eq_zero.mp (le_antisymm ha (mul_self_nonneg _))
    exact Vec.ext (sub_eq_zero.mp (hzero hx)).symm (sub_eq_zero.mp (hzero hy)).symm
      (sub_eq_zero.mp (hzero hz)).symm
  · rintro rfl
    simp [normSq, dot, sub]

/-! ## The nearest point of a segment -/

/-- Where the point of a segment that is nearest to the origin stands. -/
def nearest (p q : Vec K) : K := max 0 (min 1 (-p.dot (q.sub p) / (q.sub p).normSq))

theorem nearest_mem (p q : Vec K) : 0 ≤ p.nearest q ∧ p.nearest q ≤ 1 :=
  ⟨le_max_left _ _, max_le zero_le_one (min_le_left _ _)⟩

/-- A parabola that opens upwards is least between 0 and 1 where its lowest point is moved there. -/
theorem parabola_le {b c t : K} (hc : 0 < c) (h0 : 0 ≤ t) (h1 : t ≤ 1) :
    2 * b * max 0 (min 1 (-b / c)) + c * (max 0 (min 1 (-b / c)) * max 0 (min 1 (-b / c))) ≤
      2 * b * t + c * (t * t) := by
  have hct : 0 ≤ c * t := mul_nonneg hc.le h0
  rcases le_or_gt 0 b with hb | hb
  · have hlow : max 0 (min 1 (-b / c)) = 0 :=
      max_eq_left ((min_le_right _ _).trans (div_nonpos_of_nonpos_of_nonneg (by linarith) hc.le))
    rw [hlow]
    have hsum := add_nonneg (mul_nonneg (mul_nonneg zero_le_two hb) h0) (mul_nonneg hct h0)
    linarith
  · rcases le_or_gt c (-b) with hfar | hnear
    · have hhigh : max 0 (min 1 (-b / c)) = 1 := by
        rw [min_eq_left ((one_le_div hc).mpr hfar), max_eq_right zero_le_one]
      rw [hhigh]
      have hprod : 0 ≤ (1 - t) * (-(2 * b) - c * (1 + t)) := by
        refine mul_nonneg (by linarith) ?_
        have hle : c * (1 + t) ≤ c * 2 := mul_le_mul_of_nonneg_left (by linarith) hc.le
        linarith
      linarith
    · have hinside : max 0 (min 1 (-b / c)) = -b / c := by
        rw [min_eq_right ((div_le_one hc).mpr hnear.le), max_eq_right (div_nonneg (by linarith) hc.le)]
      have hs : c * (-b / c) = -b := mul_div_cancel₀ _ hc.ne'
      rw [hinside]
      generalize -b / c = s at hs
      have hsquare := mul_nonneg hc.le (mul_self_nonneg (t - s))
      have hb' : b = -(c * s) := by linarith
      rw [hb']
      linarith

/-- **No point of the segment is nearer to the origin.** -/
theorem normSq_nearest_le {p q : Vec K} (hne : p ≠ q) {t : K} (h0 : 0 ≤ t) (h1 : t ≤ 1) :
    (p.along q (p.nearest q)).normSq ≤ (p.along q t).normSq := by
  have hpos : 0 < (q.sub p).normSq :=
    lt_of_le_of_ne (normSq_nonneg _) fun h => hne ((sub_eq_zero_iff p q).mp h.symm)
  have hleast := parabola_le (b := p.dot (q.sub p)) hpos h0 h1
  rw [normSq_along, normSq_along]
  unfold nearest
  linarith

end Vec

/-! ## Cells -/

variable {K : Type} [Field K] [LinearOrder K] [IsStrictOrderedRing K] [FloorRing K]

/-- The cells of two numbers that are no farther apart than a cell is wide. -/
theorem floor_div_le {r a b : K} (hr : 0 < r) (h : |a - b| ≤ r) : ⌊a / r⌋ ≤ ⌊b / r⌋ + 1 := by
  have hle : a / r ≤ b / r + 1 := by
    rw [← div_self hr.ne', ← add_div]
    exact div_le_div_of_nonneg_right (by linarith [le_abs_self (a - b)]) hr.le
  calc ⌊a / r⌋ ≤ ⌊b / r + 1⌋ := Int.floor_mono hle
    _ = ⌊b / r⌋ + 1 := Int.floor_add_one _

end DtnCustody.Space
