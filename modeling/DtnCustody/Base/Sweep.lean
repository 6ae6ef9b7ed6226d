/-
# DtnCustody.Base.Sweep — pieces of a byte string, put together again.

A piece is an offset with the bytes that start there. `sweep` walks pieces in the order of their
offsets and keeps how far they reach without a hole; it gets to the end exactly when every position
lies in some piece (`sweep_reaches_iff`). `blit` copies a piece into a buffer, and pieces that agree
with one byte string and cover it make that byte string (`assemble_eq`). Pieces may overlap. The slices
of a byte string are the pieces it is cut into, all of one length but the last.
-/
import DtnCustody.Base.Text
import Mathlib.Algebra.BigOperators.Intervals
import Mathlib.Algebra.Order.BigOperators.Group.Finset

namespace DtnCustody.Base

/-- An offset and the bytes from there on. -/
abbrev Piece := Nat × Bytes

namespace Piece

/-- The position lies in the piece. -/
def Contains (p : Piece) (x : Nat) : Prop := p.1 ≤ x ∧ x < p.1 + p.2.length

instance (p : Piece) (x : Nat) : Decidable (p.Contains x) := inferInstanceAs (Decidable (_ ∧ _))

/-- Every position from `start` up to `stop` lies in a piece. -/
def Cover (ps : List Piece) (start stop : Nat) : Prop :=
  ∀ x, start ≤ x → x < stop → ∃ p ∈ ps, p.Contains x

/-! ## The sweep -/

/-- How far pieces reach from `reach` on, unless there is a hole. -/
def sweep (reach : Nat) : List Piece → Option Nat
  | [] => some reach
  | p :: ps => if reach < p.1 then none else sweep (max reach (p.1 + p.2.length)) ps

theorem cover_of_sweep {ps : List Piece} {reach stop : Nat} (h : sweep reach ps = some stop) :
    Cover ps reach stop := by
  induction ps generalizing reach with
  | nil =>
      intro x hlo hhi
      rw [sweep, Option.some.injEq] at h
      omega
  | cons p ps ih =>
      intro x hlo hhi
      rw [sweep] at h
      split at h
      · cases h
      · rename_i hhole
        by_cases hx : x < p.1 + p.2.length
        · exact ⟨p, List.mem_cons_self, by omega, hx⟩
        · obtain ⟨q, hq, hqx⟩ := ih h x (by omega) hhi
          exact ⟨q, List.mem_cons_of_mem _ hq, hqx⟩

/-- Without a hole, the pieces of a cover are walked to the end of it. -/
theorem sweep_of_cover {ps : List Piece} {reach stop : Nat}
    (hsorted : ps.Pairwise fun p q => p.1 ≤ q.1) (hin : ∀ p ∈ ps, p.1 ≤ stop)
    (h : Cover ps reach stop) : ∃ e, sweep reach ps = some e ∧ stop ≤ e := by
  induction ps generalizing reach with
  | nil =>
      refine ⟨reach, rfl, ?_⟩
      by_contra hlt
      obtain ⟨p, hp, _⟩ := h reach (le_refl _) (by omega)
      cases hp
  | cons p ps ih =>
      obtain ⟨hp, hsorted⟩ := List.pairwise_cons.mp hsorted
      rw [List.forall_mem_cons] at hin
      -- a hole before the first piece is before all of them
      have hhole : ¬ reach < p.1 := by
        intro hlt
        obtain ⟨q, hq, hqx⟩ := h reach (le_refl _) (by omega)
        rcases List.mem_cons.mp hq with rfl | hq
        · exact absurd hqx.1 (by omega)
        · have hle := hp q hq
          exact absurd hqx.1 (by omega)
      rw [sweep, if_neg hhole]
      apply ih hsorted hin.2
      intro x hlo hhi
      obtain ⟨q, hq, hqx⟩ := h x (by omega) hhi
      rcases List.mem_cons.mp hq with rfl | hq
      · exact absurd hqx.2 (by omega)
      · exact ⟨q, hq, hqx⟩

/-- **The sweep reaches the end exactly when nothing is missing.** -/
theorem sweep_reaches_iff {ps : List Piece} {stop : Nat}
    (hsorted : ps.Pairwise fun p q => p.1 ≤ q.1) (hin : ∀ p ∈ ps, p.1 ≤ stop) :
    (∃ e, sweep 0 ps = some e ∧ stop ≤ e) ↔ Cover ps 0 stop := by
  constructor
  · rintro ⟨e, he, hle⟩ x hlo hhi
    exact cover_of_sweep he x hlo (by omega)
  · exact sweep_of_cover hsorted hin

/-! ## Copying -/

/-- `p.copy(buf, o)`: what does not fit is left out. -/
def blit (buf : Bytes) (p : Piece) : Bytes :=
  buf.take p.1 ++ (p.2.take (buf.length - p.1) ++ buf.drop (p.1 + p.2.length))

def assemble (buf : Bytes) (ps : List Piece) : Bytes := ps.foldl blit buf

@[simp] theorem length_blit (buf : Bytes) (p : Piece) : (blit buf p).length = buf.length := by
  simp only [blit, List.length_append, List.length_take, List.length_drop]
  omega

/-- The piece lies in the data, and has its bytes. -/
def Agrees (data : Bytes) (p : Piece) : Prop :=
  p.1 + p.2.length ≤ data.length ∧ p.2 = (data.drop p.1).take p.2.length

instance (data : Bytes) (p : Piece) : Decidable (Agrees data p) := inferInstanceAs (Decidable (_ ∧ _))

theorem Agrees.getElem? {data : Bytes} {p : Piece} (h : Agrees data p) {i : Nat}
    (hi : i < p.2.length) : p.2[i]? = data[p.1 + i]? := by
  rw [h.2, List.getElem?_take_of_lt hi, List.getElem?_drop]

theorem getElem?_blit {data buf : Bytes} {p : Piece} (h : Agrees data p)
    (hlen : buf.length = data.length) (x : Nat) :
    (blit buf p)[x]? = if p.Contains x then data[x]? else buf[x]? := by
  have hfit : p.2.take (buf.length - p.1) = p.2 := by
    rw [List.take_of_length_le]
    have := h.1
    omega
  have hstart : (buf.take p.1).length = p.1 := by
    have := h.1
    rw [List.length_take]
    omega
  rw [blit, hfit]
  by_cases hlow : x < p.1
  · rw [if_neg (fun hc => absurd hc.1 (by omega)), List.getElem?_append_left (by omega),
      List.getElem?_take_of_lt hlow]
  · rw [List.getElem?_append_right (by omega), hstart]
    by_cases hin : x < p.1 + p.2.length
    · rw [if_pos ⟨by omega, hin⟩, List.getElem?_append_left (by omega), h.getElem? (by omega)]
      congr 1
      omega
    · rw [if_neg (fun hc => hin hc.2), List.getElem?_append_right (by omega), List.getElem?_drop]
      congr 1
      omega

/-- What has been copied stays: a position is right once it was right or lies in a piece. -/
theorem getElem?_assemble {data : Bytes} {ps : List Piece} (h : ∀ p ∈ ps, Agrees data p) :
    ∀ {buf : Bytes}, buf.length = data.length → ∀ x,
      (buf[x]? = data[x]? ∨ ∃ p ∈ ps, p.Contains x) → (assemble buf ps)[x]? = data[x]? := by
  induction ps with
  | nil =>
      intro buf _ x hx
      rcases hx with hx | ⟨p, hp, _⟩
      · exact hx
      · cases hp
  | cons p ps ih =>
      intro buf hlen x hx
      rw [List.forall_mem_cons] at h
      show (assemble (blit buf p) ps)[x]? = _
      refine ih h.2 (by rw [length_blit, hlen]) x ?_
      rw [getElem?_blit h.1 hlen]
      rcases hx with hx | ⟨q, hq, hqx⟩
      · left
        split
        · rfl
        · exact hx
      · rcases List.mem_cons.mp hq with rfl | hq
        · exact Or.inl (if_pos hqx)
        · exact Or.inr ⟨q, hq, hqx⟩

theorem length_assemble (ps : List Piece) : ∀ buf : Bytes, (assemble buf ps).length = buf.length := by
  induction ps with
  | nil => exact fun _ => rfl
  | cons p ps ih => exact fun buf => (ih (blit buf p)).trans (length_blit buf p)

/-- **Pieces that agree with the data and cover it make the data**, whatever the buffer held. -/
theorem assemble_eq {data buf : Bytes} {ps : List Piece} (hlen : buf.length = data.length)
    (hagree : ∀ p ∈ ps, Agrees data p) (hcover : Cover ps 0 data.length) :
    assemble buf ps = data := by
  apply List.ext_getElem?
  intro x
  by_cases hx : x < data.length
  · exact getElem?_assemble hagree hlen x (Or.inr (hcover x (Nat.zero_le _) hx))
  · rw [List.getElem?_eq_none (by rw [length_assemble]; omega), List.getElem?_eq_none (by omega)]

/-! ## Slices -/

/-- The `i`-th piece of `m` bytes. -/
def slice (data : Bytes) (m i : Nat) : Piece := (i * m, (data.drop (i * m)).take m)

@[simp] theorem length_slice (data : Bytes) (m i : Nat) :
    (slice data m i).2.length = min m (data.length - i * m) := by
  rw [slice, List.length_take, List.length_drop]

theorem agrees_slice {data : Bytes} {m i : Nat} (h : i * m ≤ data.length) :
    Agrees data (slice data m i) := by
  refine ⟨?_, ?_⟩
  · rw [length_slice]
    show i * m + _ ≤ _
    omega
  · show (data.drop (i * m)).take m = (data.drop (i * m)).take _
    rw [length_slice, List.take_eq_take_iff, List.length_drop]
    omega

/-- A position lies in the slice of its quotient, and in no other. -/
theorem contains_slice_iff {data : Bytes} {m i x : Nat} (hm : 1 ≤ m) (hx : x < data.length) :
    (slice data m i).Contains x ↔ x / m = i := by
  rw [Contains, length_slice, Nat.div_eq_iff hm]
  show i * m ≤ x ∧ x < i * m + _ ↔ _
  omega

/-- **Slices cover the data when every one that has a byte is among them.** -/
theorem cover_slices_iff {data : Bytes} {m n : Nat} (hm : 1 ≤ m) (hreach : data.length ≤ n * m)
    (hstart : ∀ i, i < n → i * m < data.length) {l : List Nat} :
    Cover (l.map (slice data m)) 0 data.length ↔ ∀ i, i < n → i ∈ l := by
  constructor
  · intro h i hi
    obtain ⟨p, hp, hcontains⟩ := h (i * m) (Nat.zero_le _) (hstart i hi)
    obtain ⟨k, hk, rfl⟩ := List.mem_map.mp hp
    rw [contains_slice_iff hm (hstart i hi), Nat.mul_div_cancel i hm] at hcontains
    rwa [hcontains]
  · intro h x _ hx
    have hlt : x / m < n := (Nat.div_lt_iff_lt_mul hm).mpr (hx.trans_le hreach)
    exact ⟨_, List.mem_map_of_mem (h _ hlt), (contains_slice_iff hm hx).mpr rfl⟩

theorem sum_slices (data : Bytes) (m n : Nat) :
    ∑ i ∈ Finset.range n, (slice data m i).2.length = min (n * m) data.length := by
  induction n with
  | zero => simp
  | succ n ih =>
      rw [Finset.sum_range_succ, ih, length_slice, Nat.succ_mul]
      omega

/-- Different slices are together no longer than the data. -/
theorem sum_slices_le (data : Bytes) (m : Nat) {l : List Nat} (h : l.Nodup) :
    (l.map fun i => (slice data m i).2.length).sum ≤ data.length := by
  obtain ⟨n, hn⟩ : ∃ n, ∀ i ∈ l, i < n :=
    ⟨l.sum + 1, fun i hi => Nat.lt_succ_of_le (List.single_le_sum (fun _ _ => Nat.zero_le _) i hi)⟩
  have hsubset : l.toFinset ⊆ Finset.range n := by
    intro i hi
    rw [List.mem_toFinset] at hi
    exact Finset.mem_range.mpr (hn i hi)
  rw [← List.sum_toFinset _ h]
  calc ∑ i ∈ l.toFinset, (slice data m i).2.length
      ≤ ∑ i ∈ Finset.range n, (slice data m i).2.length := Finset.sum_le_sum_of_subset hsubset
    _ = min (n * m) data.length := sum_slices data m n
    _ ≤ data.length := Nat.min_le_right _ _

end Piece

end DtnCustody.Base
