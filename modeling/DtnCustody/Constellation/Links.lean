/-
# DtnCustody.Constellation.Links — what the links chosen from orbits are.

`Sound` says it of a selection. Its links are symmetric, none is there twice, and each is between two satellites in
range and in sight of each other (`Linkable`). No satellite has more links than terminals. Two satellites that could
be linked are, unless one has no terminal left; and a link of the epoch before that could be kept is, unless one of
its ends has filled its terminals with other such links.

The candidates are the pairs that could be linked, but for satellites at one place (`mem_candidates`): the grid
misses no pair, for what is in range is in a neighbouring cell. The two passes are two runs of one greedy choice
(`topology_eq_run`), as long as the degrees do not wrap around.
-/
import DtnCustody.Base.Greedy
import DtnCustody.Constellation.Orbits
import Mathlib.Tactic.IntervalCases
import Mathlib.Tactic.NormNum

namespace DtnCustody.Constellation

open Space

variable {K : Type} [Field K] [LinearOrder K]

/-! ## Links that may be -/

/-- The distance of two places is at most `r`. -/
def InRange (r : K) (p q : Vec K) : Prop := 0 ≤ r ∧ (p.sub q).normSq ≤ r * r

/-- Every point of the segment is far enough from Earth's centre. -/
def InSight (p q : Vec K) : Prop := ∀ t : K, 0 ≤ t → t ≤ 1 → clearance * clearance < (p.along q t).normSq

def Linkable (pos : List (Option (Vec K))) (r : K) (i j : Nat) : Prop :=
  i ≠ j ∧ ∃ p q, pos[i]? = some (some p) ∧ pos[j]? = some (some q) ∧ InRange r p q ∧ InSight p q

/-- There was a link between the two in the epoch before. -/
def wasLinked (prevEdges : Option (List (Nat × Nat))) (i j : Nat) : Bool :=
  (prevEdges.getD []).contains (min i j, max i j)

/-- `adj[i]`. -/
def Selection.neighbours (s : Selection) (i : Nat) : List Nat := (s.adj[i]?).getD []

/-- A selection as it should be. -/
structure Sound (pos : List (Option (Vec K))) (r : K) (maxIsl : Nat) (prevEdges : Option (List (Nat × Nat)))
    (s : Selection) : Prop where
  symmetric : ∀ i j, j ∈ s.neighbours i → i ∈ s.neighbours j
  nodup : ∀ i, (s.neighbours i).Nodup
  edges_nodup : s.edges.Nodup
  mem_edges : ∀ i j, (i, j) ∈ s.edges ↔ i < j ∧ j ∈ s.neighbours i
  linkable : ∀ i j, j ∈ s.neighbours i → Linkable pos r i j
  bounded : ∀ i, (s.neighbours i).length ≤ maxIsl
  maximal : ∀ i j, Linkable pos r i j → j ∈ s.neighbours i ∨
    maxIsl ≤ (s.neighbours i).length ∨ maxIsl ≤ (s.neighbours j).length
  kept : ∀ i j, Linkable pos r i j → wasLinked prevEdges i j = true → j ∈ s.neighbours i ∨
    maxIsl ≤ ((s.neighbours i).filter (wasLinked prevEdges i)).length ∨
    maxIsl ≤ ((s.neighbours j).filter (wasLinked prevEdges j)).length

theorem InRange.symm {r : K} {p q : Vec K} (h : InRange r p q) : InRange r q p :=
  ⟨h.1, Vec.normSq_sub_comm p q ▸ h.2⟩

section Candidates

variable [IsStrictOrderedRing K]

theorem InSight.symm {p q : Vec K} (h : InSight p q) : InSight q p := by
  intro t h0 h1
  rw [Vec.along_swap]
  exact h (1 - t) (sub_nonneg.mpr h1) (sub_le_self 1 h0)

theorem Linkable.symm {pos : List (Option (Vec K))} {r : K} {i j : Nat} (h : Linkable pos r i j) :
    Linkable pos r j i := by
  obtain ⟨hne, p, q, hp, hq, hrange, hsight⟩ := h
  exact ⟨hne.symm, q, p, hq, hp, hrange.symm, hsight.symm⟩

/-- Two places are not 0 apart. -/
theorem InRange.pos_of_ne {r : K} {p q : Vec K} (h : InRange r p q) (hne : p ≠ q) : 0 < r := by
  refine lt_of_le_of_ne h.1 fun h0 => hne ?_
  have hzero := h.2
  rw [← h0, mul_zero, Vec.normSq_sub_comm] at hzero
  exact (Vec.sub_eq_zero_iff p q).mp (le_antisymm hzero (Vec.normSq_nonneg _))

/-! ## What the code asks of a pair -/

omit [IsStrictOrderedRing K] in
theorem le_hypot_iff {r : K} {p q : Vec K} :
    (hypot (p.x - q.x) (p.y - q.y) (p.z - q.z)).le r = true ↔ InRange r p q := decide_eq_true_iff

theorem clearance_pos : (0 : K) < clearance := by
  unfold clearance
  positivity

/-- **The line of sight** is that of the segment's nearest point, unless the segment is a point. -/
theorem clearsEarth_iff {p q : Vec K} : clearsEarth p q = true ↔ p ≠ q ∧ InSight p q := by
  have hcode : clearsEarth p q =
      if (q.sub p).normSq = 0 then false
      else decide ((clearance : K) < 0 ∨ clearance * clearance < (p.along q (p.nearest q)).normSq) := rfl
  rw [hcode]
  by_cases heq : p = q
  · rw [if_pos ((Vec.sub_eq_zero_iff p q).mpr heq)]
    exact ⟨fun h => absurd h Bool.false_ne_true, fun h => absurd heq h.1⟩
  · rw [if_neg fun h => heq ((Vec.sub_eq_zero_iff p q).mp h), decide_eq_true_iff,
      or_iff_right (not_lt_of_gt clearance_pos)]
    constructor
    · exact fun hclear => ⟨heq, fun t h0 h1 => hclear.trans_le (Vec.normSq_nearest_le heq h0 h1)⟩
    · exact fun ⟨_, hsight⟩ => hsight _ (Vec.nearest_mem p q).1 (Vec.nearest_mem p q).2

/-! ## The grid -/

variable [FloorRing K]

omit [IsStrictOrderedRing K] in
/-- A cell has the satellites that stand in it. -/
theorem get?_grid (cell : K) (pos : List (Option (Vec K))) (k : Key) :
    ((grid cell pos).get? k).getD [] = (placed pos).filter fun i => key cell (place pos i) = k := by
  rw [grid, Base.Gather.get?_gather]
  exact (Base.Gather.value_push (f := fun i => i) _).trans (List.map_id _)

/-- The steps to the cells around. -/
def steps : List (Int × Int × Int) :=
  [-1, 0, 1].flatMap fun a => [-1, 0, 1].flatMap fun b => [-1, 0, 1].map fun d => (a, b, d)

theorem around_eq_map (k : Key) :
    around k = steps.map fun o => (k.1.add o.1, k.2.1.add o.2.1, k.2.2.add o.2.2) := rfl

theorem mem_steps {a b d : Int} (ha : -1 ≤ a ∧ a ≤ 1) (hb : -1 ≤ b ∧ b ≤ 1) (hd : -1 ≤ d ∧ d ≤ 1) :
    (a, b, d) ∈ steps := by
  have hone : ∀ {c : Int}, -1 ≤ c ∧ c ≤ 1 → c ∈ ([-1, 0, 1] : List Int) := by
    intro c hc
    simp only [List.mem_cons, List.not_mem_nil, or_false]
    omega
  refine List.mem_flatMap.mpr ⟨a, hone ha, List.mem_flatMap.mpr ⟨b, hone hb, ?_⟩⟩
  exact List.mem_map.mpr ⟨d, hone hd, rfl⟩

omit [IsStrictOrderedRing K] in
/-- No cell is looked at twice. -/
theorem nodup_around {cell : K} (hcell : cell ≠ 0) (p : Vec K) : (around (key cell p)).Nodup := by
  rw [around_eq_map]
  refine List.Nodup.map ?_ (by decide : steps.Nodup)
  rintro ⟨a, b, d⟩ ⟨a', b', d'⟩ h
  simp only [key, coord, if_neg hcell, Coord.add, Prod.mk.injEq, Coord.fin.injEq, add_right_inj] at h
  simp only [Prod.mk.injEq]
  exact h

/-- **What is in range is around.** -/
theorem mem_around {r : K} (hr : 0 < r) {p q : Vec K} (h : InRange r p q) : key r q ∈ around (key r p) := by
  obtain ⟨hx, hy, hz⟩ := Vec.abs_le_of_normSq_le h.1 h.2
  have hone : ∀ {a b : K}, |a - b| ≤ r → -1 ≤ ⌊b / r⌋ - ⌊a / r⌋ ∧ ⌊b / r⌋ - ⌊a / r⌋ ≤ 1 := by
    intro a b hab
    have hle := floor_div_le hr hab
    have hge := floor_div_le hr (abs_sub_comm a b ▸ hab)
    omega
  rw [around_eq_map]
  refine List.mem_map.mpr ⟨_, mem_steps (hone hx) (hone hy) (hone hz), ?_⟩
  simp only [key, coord, if_neg hr.ne', Coord.add, add_sub_cancel]

/-! ## The candidates -/

omit [LinearOrder K] [IsStrictOrderedRing K] [FloorRing K] in
theorem mem_placed {pos : List (Option (Vec K))} {i : Nat} :
    i ∈ placed pos ↔ pos[i]? = some (some (place pos i)) := by
  unfold placed place
  rw [List.mem_filter, List.mem_range]
  cases hi : pos[i]? with
  | none => simp
  | some o =>
      obtain ⟨hlt, -⟩ := List.getElem?_eq_some_iff.mp hi
      cases o with
      | none => simp
      | some p => simpa using hlt

/-- The entry that `pairs` makes of two numbers, if it makes one. -/
def entry (r : K) (pos : List (Option (Vec K))) (i j : Nat) : Option (Length K × Nat × Nat) :=
  if j ≤ i then none
  else
    let p := place pos i
    let q := place pos j
    let dist := hypot (p.x - q.x) (p.y - q.y) (p.z - q.z)
    if dist.le r && clearsEarth p q then some (dist, i, j) else none

omit [IsStrictOrderedRing K] [FloorRing K] in
theorem entry_eq_some {r : K} {pos : List (Option (Vec K))} {i j : Nat} {x : Length K × Nat × Nat}
    (h : entry r pos i j = some x) :
    i < j ∧ x.2 = (i, j) ∧ InRange r (place pos i) (place pos j) ∧
      clearsEarth (place pos i) (place pos j) = true := by
  unfold entry at h
  split at h
  · cases h
  · next hlt =>
    dsimp only at h
    split at h
    · next hboth =>
      obtain ⟨hrange, hclear⟩ := Bool.and_eq_true_iff.mp hboth
      cases h
      exact ⟨Nat.lt_of_not_le hlt, rfl, le_hypot_iff.mp hrange, hclear⟩
    · cases h

omit [IsStrictOrderedRing K] [FloorRing K] in
theorem entry_inj {r : K} {pos : List (Option (Vec K))} {i j i' j' : Nat} {x y : Length K × Nat × Nat}
    (h : entry r pos i j = some x) (h' : entry r pos i' j' = some y) (hxy : x.2 = y.2) : i = i' ∧ j = j' := by
  have hsame := (entry_eq_some h).2.1.symm.trans (hxy.trans (entry_eq_some h').2.1)
  exact Prod.mk.inj hsame

omit [IsStrictOrderedRing K] in
theorem pairs_eq (r : K) (pos : List (Option (Vec K))) : pairs r pos =
    (placed pos).flatMap fun i => (around (key r (place pos i))).flatMap fun k =>
      ((placed pos).filter fun j => key r (place pos j) = k).filterMap (entry r pos i) := by
  unfold pairs
  simp only [get?_grid]
  rfl

omit [IsStrictOrderedRing K] in
theorem mem_pairs {r : K} {pos : List (Option (Vec K))} {x : Length K × Nat × Nat} :
    x ∈ pairs r pos ↔ ∃ i ∈ placed pos, ∃ k ∈ around (key r (place pos i)), ∃ j ∈ placed pos,
      key r (place pos j) = k ∧ entry r pos i j = some x := by
  rw [pairs_eq]
  simp only [List.mem_flatMap, List.mem_filterMap, List.mem_filter, decide_eq_true_iff, and_assoc]

/-- The pairs in the order in which they are offered. -/
def candidates (r : K) (pos : List (Option (Vec K))) : List (Nat × Nat) := (sortedPairs r pos).map (·.2)

/-- **The candidates** are the pairs that could be linked, if they are not at one place. -/
theorem mem_candidates {r : K} {pos : List (Option (Vec K))} {i j : Nat} :
    (i, j) ∈ candidates r pos ↔ i < j ∧ Linkable pos r i j ∧ pos[i]? ≠ pos[j]? := by
  have hsorted : (i, j) ∈ candidates r pos ↔ ∃ x ∈ pairs r pos, x.2 = (i, j) := by
    unfold candidates sortedPairs
    simp only [List.mem_map, List.mem_insertionSort]
  rw [hsorted]
  constructor
  · rintro ⟨x, hx, hij⟩
    obtain ⟨i', hi, k, hk, j', hj, -, hentry⟩ := mem_pairs.mp hx
    obtain ⟨hlt, hij', hrange, hclear⟩ := entry_eq_some hentry
    obtain ⟨rfl, rfl⟩ := Prod.mk.inj (hij.symm.trans hij')
    rw [mem_placed] at hi hj
    obtain ⟨hne, hsight⟩ := clearsEarth_iff.mp hclear
    refine ⟨hlt, ⟨hlt.ne, _, _, hi, hj, hrange, hsight⟩, ?_⟩
    rw [hi, hj]
    exact fun h => hne (Option.some.inj (Option.some.inj h))
  · rintro ⟨hlt, ⟨-, p, q, hp, hq, hrange, hsight⟩, hne⟩
    have hplace : ∀ {l : Nat} {v : Vec K}, pos[l]? = some (some v) → l ∈ placed pos ∧ place pos l = v := by
      intro l v hl
      have hv : place pos l = v := by
        unfold place
        rw [hl]
        rfl
      exact ⟨mem_placed.mpr (by rw [hv, hl]), hv⟩
    obtain ⟨hi, hpi⟩ := hplace hp
    obtain ⟨hj, hqj⟩ := hplace hq
    have hpq : p ≠ q := fun h => hne (by rw [hp, hq, h])
    refine ⟨(hypot (p.x - q.x) (p.y - q.y) (p.z - q.z), i, j), mem_pairs.mpr
      ⟨i, hi, _, hpi.symm ▸ mem_around (hrange.pos_of_ne hpq) hrange, j, hj, by rw [hqj], ?_⟩, rfl⟩
    unfold entry
    rw [if_neg (Nat.not_le_of_lt hlt), hpi, hqj]
    exact if_pos (Bool.and_eq_true_iff.mpr ⟨le_hypot_iff.mpr hrange, clearsEarth_iff.mpr ⟨hpq, hsight⟩⟩)

omit [IsStrictOrderedRing K] in
theorem nodup_pairs {r : K} (hr : r ≠ 0) (pos : List (Option (Vec K))) : (pairs r pos).Nodup := by
  have hplaced : (placed pos).Nodup := List.nodup_range.filter _
  rw [pairs_eq]
  refine List.nodup_flatMap.mpr ⟨fun i _ => List.nodup_flatMap.mpr ⟨fun k _ => ?_, ?_⟩, ?_⟩
  · exact List.Nodup.filterMap (fun j j' x hj hj' => (entry_inj hj hj' rfl).2) (hplaced.filter _)
  · -- what is found in two cells stands in both
    refine (nodup_around hr (place pos i)).imp fun {k k'} hne x hx hx' => ?_
    obtain ⟨j, hj, hentry⟩ := List.mem_filterMap.mp hx
    obtain ⟨j', hj', hentry'⟩ := List.mem_filterMap.mp hx'
    obtain ⟨-, rfl⟩ := entry_inj hentry hentry' rfl
    exact hne ((of_decide_eq_true (List.mem_filter.mp hj).2).symm.trans
      (of_decide_eq_true (List.mem_filter.mp hj').2))
  · refine hplaced.imp fun {i i'} hne x hx hx' => ?_
    obtain ⟨k, -, hx⟩ := List.mem_flatMap.mp hx
    obtain ⟨j, -, hentry⟩ := List.mem_filterMap.mp hx
    obtain ⟨k', -, hx'⟩ := List.mem_flatMap.mp hx'
    obtain ⟨j', -, hentry'⟩ := List.mem_filterMap.mp hx'
    exact hne (entry_inj hentry hentry' rfl).1

/-- No pair is offered twice. -/
theorem nodup_candidates (r : K) (pos : List (Option (Vec K))) : (candidates r pos).Nodup := by
  by_cases hr : r = 0
  · -- nothing is 0 apart
    have hnil : candidates r pos = [] := by
      refine List.eq_nil_iff_forall_not_mem.mpr fun e he => ?_
      obtain ⟨-, ⟨-, p, q, hp, hq, hrange, -⟩, hne⟩ := mem_candidates.mp he
      exact (hrange.pos_of_ne fun h => hne (by rw [hp, hq, h])).ne' hr
    rw [hnil]
    exact List.nodup_nil
  · have hperm : (sortedPairs r pos).Perm (pairs r pos) := List.perm_insertionSort _ _
    refine List.Nodup.map_on ?_ (hperm.nodup_iff.mpr (nodup_pairs hr pos))
    intro x hx y hy hxy
    obtain ⟨i, -, _, -, j, -, -, hentry⟩ := mem_pairs.mp (hperm.mem_iff.mp hx)
    obtain ⟨i', -, _, -, j', -, -, hentry'⟩ := mem_pairs.mp (hperm.mem_iff.mp hy)
    obtain ⟨rfl, rfl⟩ := entry_inj hentry hentry' hxy
    exact Option.some.inj (hentry.symm.trans hentry')

end Candidates

/-! ## The two passes -/

/-- A satellite with `d` links gets no more. A degree that wraps around is never high enough. -/
def noRoom (maxIsl d : Nat) : Bool := decide (maxIsl ≤ d ∧ maxIsl < 256)

theorem noRoom_mono {maxIsl : Nat} (d d' : Nat) (hle : d ≤ d') (h : noRoom maxIsl d = true) :
    noRoom maxIsl d' = true := by
  obtain ⟨hd, hsmall⟩ := of_decide_eq_true h
  exact decide_eq_true ⟨hd.trans hle, hsmall⟩

/-- The degrees do not wrap around. -/
def Fits (maxIsl : Nat) (E : List (Nat × Nat)) : Prop := maxIsl < 256 → ∀ v, Base.Greedy.degree E v ≤ maxIsl

theorem fits_run {maxIsl : Nat} {E : List (Nat × Nat)} (h : Fits maxIsl E) (xs : List (Nat × Nat)) :
    Fits maxIsl (Base.Greedy.run (noRoom maxIsl) E xs) := fun hsmall =>
  Base.Greedy.degree_run_le (fun _ hd => decide_eq_true ⟨hd, hsmall⟩) (h hsmall)

namespace Selection

/-- The selection of some links. -/
def ofLinks (n : Nat) (E : List (Nat × Nat)) : Selection :=
  { deg := (List.range n).map fun i => UInt8.ofNat (Base.Greedy.degree E i)
    adj := (List.range n).map (Base.Greedy.links E)
    edges := E }

theorem new_eq_ofLinks (n : Nat) : new n = ofLinks n [] := by
  have hconst : ∀ {α : Type} (a : α), List.replicate n a = (List.range n).map fun _ => a := by
    intro α a
    rw [List.map_const', List.length_range]
  unfold new ofLinks
  rw [hconst, hconst]
  rfl

theorem map_range_modify {α : Type} {n i : Nat} {f g : Nat → α} {u : α → α}
    (h : ∀ v, g v = if v = i then u (f v) else f v) :
    ((List.range n).map f).modify i u = (List.range n).map g := by
  refine List.ext_getElem? fun v => ?_
  rw [List.getElem?_modify, List.getElem?_map, List.getElem?_map]
  by_cases hv : v < n
  · rw [List.getElem?_range hv]
    simp only [Option.map_some, Option.map_eq_map, h v, eq_comm]
  · rw [List.getElem?_eq_none_iff.mpr (by simpa using hv)]
    rfl

/-- One link more. -/
theorem link_ofLinks {n i j : Nat} {E : List (Nat × Nat)} (hne : i ≠ j) (hnew : (i, j) ∉ E) :
    (ofLinks n E).link i j = ofLinks n (E ++ [(i, j)]) := by
  have hadj : ((((List.range n).map (Base.Greedy.links E)).modify i (· ++ [j])).modify j (· ++ [i])) =
      (List.range n).map (Base.Greedy.links (E ++ [(i, j)])) := by
    rw [map_range_modify
      (g := fun v => if v = i then Base.Greedy.links E v ++ [j] else Base.Greedy.links E v) fun v => rfl]
    refine map_range_modify fun v => ?_
    rw [Base.Greedy.links_concat]
    grind
  have hdeg : (((List.range n).map fun v => UInt8.ofNat (Base.Greedy.degree E v)).modify i (· + 1)).modify j
      (· + 1) =
      (List.range n).map fun v => UInt8.ofNat (Base.Greedy.degree (E ++ [(i, j)]) v) := by
    have hsucc : ∀ d, UInt8.ofNat (d + 1) = UInt8.ofNat d + 1 := fun d => UInt8.ofNat_add d 1
    rw [map_range_modify
      (g := fun v => UInt8.ofNat (Base.Greedy.degree E v + if v = i then 1 else 0)) fun v => by grind]
    refine map_range_modify fun v => ?_
    rw [Base.Greedy.degree_concat]
    grind
  unfold link
  rw [show (ofLinks n E).edges = E from rfl, if_neg fun h => hnew (List.contains_iff_mem.mp h)]
  exact congrArg₂ (fun d a => { deg := d, adj := a, edges := E ++ [(i, j)] : Selection }) hdeg hadj

theorem full_ofLinks {maxIsl n i : Nat} {E : List (Nat × Nat)} (hi : i < n) (hfits : Fits maxIsl E) :
    (ofLinks n E).full maxIsl i = noRoom maxIsl (Base.Greedy.degree E i) := by
  have hdeg : (ofLinks n E).deg[i]? = some (UInt8.ofNat (Base.Greedy.degree E i)) := by
    unfold ofLinks
    rw [List.getElem?_map, List.getElem?_range hi]
    rfl
  unfold full noRoom
  rw [hdeg, Option.getD_some, UInt8.toNat_ofNat']
  refine decide_eq_decide.mpr ?_
  by_cases hsmall : maxIsl < 256
  · have hle := hfits hsmall i
    omega
  · omega

section Passes

variable {K : Type}

/-- The second pass offers a candidate. -/
theorem fill_ofLinks {maxIsl n : Nat} {E : List (Nat × Nat)} {x : Length K × Nat × Nat}
    (hx : x.2.1 < x.2.2 ∧ x.2.2 < n) (hfits : Fits maxIsl E) :
    fill maxIsl (ofLinks n E) x = ofLinks n (Base.Greedy.offer (noRoom maxIsl) E x.2) := by
  have hi := full_ofLinks (hx.1.trans hx.2) hfits
  have hj := full_ofLinks hx.2 hfits
  unfold fill Base.Greedy.offer
  by_cases hmem : x.2 ∈ E
  · rw [if_pos hmem]
    exact if_pos (List.contains_iff_mem.mpr hmem)
  · have hnot : ¬ (ofLinks n E).edges.contains (x.2.1, x.2.2) = true := fun h =>
      hmem (List.contains_iff_mem.mp h)
    rw [if_neg hnot, if_neg hmem, hi, hj]
    by_cases hfull : noRoom maxIsl (Base.Greedy.degree E x.2.1) = true ∨
        noRoom maxIsl (Base.Greedy.degree E x.2.2) = true
    · rw [if_pos hfull, if_pos (Bool.or_eq_true_iff.mpr hfull)]
    · rw [if_neg hfull, if_neg fun h => hfull (Bool.or_eq_true_iff.mp h)]
      exact link_ofLinks hx.1.ne hmem

/-- The first does the same with a link of the epoch before. -/
theorem keep_ofLinks {prev : List (Nat × Nat)} {maxIsl n : Nat} {E : List (Nat × Nat)}
    {x : Length K × Nat × Nat} (hx : x.2.1 < x.2.2 ∧ x.2.2 < n) (hfits : Fits maxIsl E) (hnew : x.2 ∉ E) :
    keep prev maxIsl (ofLinks n E) x =
      if prev.contains x.2 then ofLinks n (Base.Greedy.offer (noRoom maxIsl) E x.2) else ofLinks n E := by
  unfold keep
  cases hprev : prev.contains x.2 with
  | true =>
      have hnot : ¬ (ofLinks n E).edges.contains (x.2.1, x.2.2) = true := fun h =>
        hnew (List.contains_iff_mem.mp h)
      rw [if_pos rfl, ← fill_ofLinks hx hfits]
      unfold fill
      rw [if_neg hnot]
      exact if_congr (or_iff_right Bool.false_ne_true) rfl rfl
  | false => exact if_pos (.inl rfl)

theorem foldl_fill {maxIsl n : Nat} {xs : List (Length K × Nat × Nat)}
    (hxs : ∀ x ∈ xs, x.2.1 < x.2.2 ∧ x.2.2 < n) :
    ∀ {E : List (Nat × Nat)}, Fits maxIsl E →
      xs.foldl (fill maxIsl) (ofLinks n E) = ofLinks n (Base.Greedy.run (noRoom maxIsl) E (xs.map (·.2))) := by
  induction xs with
  | nil => exact fun _ => rfl
  | cons x xs ih =>
      intro E hfits
      rw [List.foldl_cons, fill_ofLinks (hxs x List.mem_cons_self) hfits]
      exact ih (fun y hy => hxs y (List.mem_cons_of_mem x hy)) (fits_run hfits [x.2])

/-- No candidate is offered twice, so the first pass need not look for it among the links. -/
theorem foldl_keep {prev : List (Nat × Nat)} {maxIsl n : Nat} {xs : List (Length K × Nat × Nat)}
    (hxs : ∀ x ∈ xs, x.2.1 < x.2.2 ∧ x.2.2 < n) (hnodup : (xs.map (·.2)).Nodup) :
    ∀ {E : List (Nat × Nat)}, Fits maxIsl E → (∀ x ∈ xs, x.2 ∉ E) →
      xs.foldl (keep prev maxIsl) (ofLinks n E) =
        ofLinks n (Base.Greedy.run (noRoom maxIsl) E ((xs.map (·.2)).filter prev.contains)) := by
  induction xs with
  | nil => exact fun _ _ => rfl
  | cons x xs ih =>
      intro E hfits hnew
      rw [List.map_cons, List.nodup_cons] at hnodup
      have hrest := fun F => @ih (fun y hy => hxs y (List.mem_cons_of_mem x hy)) hnodup.2 F
      rw [List.foldl_cons, keep_ofLinks (hxs x List.mem_cons_self) hfits (hnew x List.mem_cons_self), List.map_cons]
      by_cases hprev : prev.contains x.2 = true
      · rw [if_pos hprev, List.filter_cons, if_pos hprev]
        refine hrest _ (fits_run hfits [x.2]) fun y hy hmem => ?_
        have hoffered : y.2 ∈ Base.Greedy.run (noRoom maxIsl) E [x.2] := hmem
        rcases Base.Greedy.mem_of_mem_run hoffered with hE | hx
        · exact hnew y (List.mem_cons_of_mem x hy) hE
        · exact hnodup.1 (List.mem_singleton.mp hx ▸ List.mem_map_of_mem hy)
      · rw [if_neg hprev, List.filter_cons, if_neg hprev]
        exact hrest E hfits fun y hy => hnew y (List.mem_cons_of_mem x hy)

end Passes

theorem neighbours_ofLinks {n : Nat} {E : List (Nat × Nat)} (hE : ∀ e ∈ E, e.1 < e.2 ∧ e.2 < n) (i : Nat) :
    (ofLinks n E).neighbours i = Base.Greedy.links E i := by
  unfold neighbours ofLinks
  rw [List.getElem?_map]
  by_cases hi : i < n
  · rw [List.getElem?_range hi]
    rfl
  · rw [List.getElem?_eq_none_iff.mpr (by simpa using hi)]
    -- no link has an end out there
    refine (List.eq_nil_iff_forall_not_mem.mpr fun j hj => ?_).symm
    rcases Base.Greedy.mem_links.mp hj with hj | hj
    · exact hi ((hE _ hj).1.trans (hE _ hj).2)
    · exact hi (hE _ hj).2

end Selection

section Chosen

variable [IsStrictOrderedRing K] [FloorRing K]

/-- The links that the two passes choose. -/
def chosen (pos : List (Option (Vec K))) (r : K) (maxIsl : Nat) (prevEdges : Option (List (Nat × Nat))) :
    List (Nat × Nat) :=
  Base.Greedy.run (noRoom maxIsl)
    (Base.Greedy.run (noRoom maxIsl) [] ((candidates r pos).filter (prevEdges.getD []).contains))
    (candidates r pos)

/-- **Both passes are runs** of one greedy choice, over the links of the epoch before and over all candidates. -/
theorem topology_eq_run (pos : List (Option (Vec K))) (r : K) (maxIsl : Nat)
    (prevEdges : Option (List (Nat × Nat))) :
    topology r maxIsl prevEdges pos = .ofLinks pos.length (chosen pos r maxIsl prevEdges) := by
  have hbelow : ∀ x ∈ sortedPairs r pos, x.2.1 < x.2.2 ∧ x.2.2 < pos.length := by
    intro x hx
    obtain ⟨hlt, ⟨-, p, q, -, hq, -⟩, -⟩ := mem_candidates.mp (List.mem_map_of_mem (f := (·.2)) hx)
    exact ⟨hlt, (List.getElem?_eq_some_iff.mp hq).1⟩
  have hempty : Fits maxIsl [] := fun _ _ => Nat.zero_le _
  unfold topology chosen
  cases prevEdges with
  | none =>
      show (sortedPairs r pos).foldl _ (Selection.new pos.length) = _
      rw [Selection.new_eq_ofLinks, Selection.foldl_fill hbelow hempty, Option.getD_none,
        List.filter_eq_nil_iff.mpr fun e _ h => List.not_mem_nil (List.contains_iff_mem.mp h)]
      rfl
  | some prev =>
      show (sortedPairs r pos).foldl _ ((sortedPairs r pos).foldl _ (Selection.new pos.length)) = _
      rw [Selection.new_eq_ofLinks,
        Selection.foldl_keep hbelow (nodup_candidates r pos) hempty fun _ _ => List.not_mem_nil,
        Selection.foldl_fill hbelow (fits_run hempty _)]
      rfl

omit [IsStrictOrderedRing K] in
theorem mem_candidates_of_chosen {pos : List (Option (Vec K))} {r : K} {maxIsl : Nat}
    {prevEdges : Option (List (Nat × Nat))} {e : Nat × Nat} (he : e ∈ chosen pos r maxIsl prevEdges) :
    e ∈ candidates r pos := by
  rcases Base.Greedy.mem_of_mem_run he with hfirst | hall
  · rcases Base.Greedy.mem_of_mem_run hfirst with hnil | hkept
    · exact absurd hnil List.not_mem_nil
    · exact List.mem_of_mem_filter hkept
  · exact hall

theorem chosen_below {pos : List (Option (Vec K))} {r : K} {maxIsl : Nat}
    {prevEdges : Option (List (Nat × Nat))} {e : Nat × Nat} (he : e ∈ chosen pos r maxIsl prevEdges) :
    e.1 < e.2 ∧ e.2 < pos.length := by
  obtain ⟨hlt, ⟨-, p, q, -, hq, -⟩, -⟩ := mem_candidates.mp (mem_candidates_of_chosen he)
  exact ⟨hlt, (List.getElem?_eq_some_iff.mp hq).1⟩

omit [IsStrictOrderedRing K] in
theorem nodup_chosen (pos : List (Option (Vec K))) (r : K) (maxIsl : Nat)
    (prevEdges : Option (List (Nat × Nat))) : (chosen pos r maxIsl prevEdges).Nodup :=
  Base.Greedy.nodup_run (Base.Greedy.nodup_run List.nodup_nil)

/-- The neighbours are the ends of the links. -/
theorem neighbours_topology (pos : List (Option (Vec K))) (r : K) (maxIsl : Nat)
    (prevEdges : Option (List (Nat × Nat))) (i : Nat) :
    (topology r maxIsl prevEdges pos).neighbours i = Base.Greedy.links (chosen pos r maxIsl prevEdges) i := by
  rw [topology_eq_run]
  exact Selection.neighbours_ofLinks (fun e he => chosen_below he) i

theorem mem_neighbours {pos : List (Option (Vec K))} {r : K} {maxIsl : Nat}
    {prevEdges : Option (List (Nat × Nat))} {i j : Nat} :
    j ∈ (topology r maxIsl prevEdges pos).neighbours i ↔
      (min i j, max i j) ∈ chosen pos r maxIsl prevEdges := by
  rw [neighbours_topology, Base.Greedy.mem_links]
  rcases Nat.le_total i j with hle | hle
  · rw [Nat.min_eq_left hle, Nat.max_eq_right hle]
    exact or_iff_left fun h => absurd (chosen_below h).1 (Nat.not_lt_of_le hle)
  · rw [Nat.min_eq_right hle, Nat.max_eq_left hle]
    exact or_iff_right fun h => absurd (chosen_below h).1 (Nat.not_lt_of_le hle)

/-- What is linked could be, and is not at one place. -/
theorem linkable_of_mem_neighbours {pos : List (Option (Vec K))} {r : K} {maxIsl : Nat}
    {prevEdges : Option (List (Nat × Nat))} {i j : Nat}
    (h : j ∈ (topology r maxIsl prevEdges pos).neighbours i) : Linkable pos r i j ∧ pos[i]? ≠ pos[j]? := by
  obtain ⟨-, hlink, hne⟩ := mem_candidates.mp (mem_candidates_of_chosen (mem_neighbours.mp h))
  rcases Nat.le_total i j with hle | hle
  · rw [Nat.min_eq_left hle, Nat.max_eq_right hle] at hlink hne
    exact ⟨hlink, hne⟩
  · rw [Nat.min_eq_right hle, Nat.max_eq_left hle] at hlink hne
    exact ⟨hlink.symm, hne.symm⟩

theorem mem_candidates_of_linkable {pos : List (Option (Vec K))} {r : K} {i j : Nat} (h : Linkable pos r i j)
    (hne : pos[i]? ≠ pos[j]?) : (min i j, max i j) ∈ candidates r pos := by
  rcases Nat.lt_or_gt_of_ne h.1 with hlt | hlt
  · rw [Nat.min_eq_left hlt.le, Nat.max_eq_right hlt.le]
    exact mem_candidates.mpr ⟨hlt, h, hne⟩
  · rw [Nat.min_eq_right hlt.le, Nat.max_eq_left hlt.le]
    exact mem_candidates.mpr ⟨hlt, h.symm, hne.symm⟩

/-- A satellite without room has as many links as terminals. -/
theorem le_of_noRoom {maxIsl d : Nat} (h : noRoom maxIsl d = true) : maxIsl ≤ d := (of_decide_eq_true h).1

theorem links_filter {E : List (Nat × Nat)} (hE : ∀ e ∈ E, e.1 < e.2) (prevEdges : Option (List (Nat × Nat)))
    (v : Nat) : Base.Greedy.links (E.filter (prevEdges.getD []).contains) v =
      (Base.Greedy.links E v).filter (wasLinked prevEdges v) := by
  unfold Base.Greedy.links
  rw [List.filterMap_filter, List.filter_filterMap]
  refine List.filterMap_congr fun e he => ?_
  have hlt := hE e he
  cases hother : Base.Greedy.other v e with
  | none => simp
  | some u =>
      have hwas : wasLinked prevEdges v u = (prevEdges.getD []).contains e := by
        unfold wasLinked
        rcases Base.Greedy.other_eq_some hother with rfl | rfl
        · rw [Nat.min_eq_left hlt.le, Nat.max_eq_right hlt.le]
        · rw [Nat.min_eq_right hlt.le, Nat.max_eq_left hlt.le]
      rw [Option.filter_some, hwas]

/-- Two satellites in range and in sight of each other, and not at one place, are linked unless one of them has no
terminal left. -/
theorem maximal_of_ne {pos : List (Option (Vec K))} {r : K} {maxIsl : Nat} {prevEdges : Option (List (Nat × Nat))}
    {i j : Nat} (h : Linkable pos r i j) (hne : pos[i]? ≠ pos[j]?) :
    j ∈ (topology r maxIsl prevEdges pos).neighbours i ∨
      noRoom maxIsl ((topology r maxIsl prevEdges pos).neighbours i).length = true ∨
      noRoom maxIsl ((topology r maxIsl prevEdges pos).neighbours j).length = true := by
  rw [mem_neighbours, neighbours_topology, neighbours_topology]
  have hfull : (min i j, max i j) ∈ chosen pos r maxIsl prevEdges ∨
      noRoom maxIsl (Base.Greedy.degree (chosen pos r maxIsl prevEdges) (min i j)) = true ∨
      noRoom maxIsl (Base.Greedy.degree (chosen pos r maxIsl prevEdges) (max i j)) = true :=
    Base.Greedy.run_maximal noRoom_mono (mem_candidates_of_linkable h hne)
  rcases Nat.le_total i j with hle | hle
  · rw [Nat.min_eq_left hle, Nat.max_eq_right hle] at hfull ⊢
    exact hfull
  · rw [Nat.min_eq_right hle, Nat.max_eq_left hle] at hfull ⊢
    exact hfull.imp_right Or.symm

/-- A link of the epoch before is kept unless one of its ends has filled up with others. -/
theorem kept_of_ne {pos : List (Option (Vec K))} {r : K} {maxIsl : Nat} {prevEdges : Option (List (Nat × Nat))}
    {i j : Nat} (h : Linkable pos r i j) (hne : pos[i]? ≠ pos[j]?) (hprev : wasLinked prevEdges i j = true) :
    j ∈ (topology r maxIsl prevEdges pos).neighbours i ∨
      noRoom maxIsl
        (((topology r maxIsl prevEdges pos).neighbours i).filter (wasLinked prevEdges i)).length = true ∨
      noRoom maxIsl
        (((topology r maxIsl prevEdges pos).neighbours j).filter (wasLinked prevEdges j)).length = true := by
  rw [mem_neighbours, neighbours_topology, neighbours_topology,
    ← links_filter (fun e he => (chosen_below he).1), ← links_filter (fun e he => (chosen_below he).1)]
  by_cases hmem : (min i j, max i j) ∈ chosen pos r maxIsl prevEdges
  · exact .inl hmem
  · have hfull := Base.Greedy.run_preferred noRoom_mono (mem_candidates_of_linkable h hne) hprev hmem
    refine .inr ?_
    rcases Nat.le_total i j with hle | hle
    · rw [Nat.min_eq_left hle, Nat.max_eq_right hle] at hfull
      exact hfull
    · rw [Nat.min_eq_right hle, Nat.max_eq_left hle] at hfull
      exact hfull.symm

theorem length_neighbours_le (pos : List (Option (Vec K))) (r : K) {maxIsl : Nat} (hsmall : maxIsl < 256)
    (prevEdges : Option (List (Nat × Nat))) (i : Nat) :
    ((topology r maxIsl prevEdges pos).neighbours i).length ≤ maxIsl := by
  rw [neighbours_topology]
  have hempty : Fits maxIsl [] := fun _ _ => Nat.zero_le _
  exact fits_run (fits_run hempty _) _ hsmall i

theorem nodup_neighbours (pos : List (Option (Vec K))) (r : K) (maxIsl : Nat)
    (prevEdges : Option (List (Nat × Nat))) (i : Nat) :
    ((topology r maxIsl prevEdges pos).neighbours i).Nodup := by
  rw [neighbours_topology]
  exact Base.Greedy.nodup_links (nodup_chosen pos r maxIsl prevEdges)
    (fun e he hswap => (chosen_below he).1.asymm (chosen_below hswap).1) i

/-- The selection is as it should be where the two exceptions do not arise. -/
theorem sound_topology {pos : List (Option (Vec K))} {r : K} {maxIsl : Nat}
    (hapart : maxIsl = 0 ∨ ∀ i j, Linkable pos r i j → pos[i]? ≠ pos[j]?)
    (hroom : maxIsl < 256 ∨
      ∀ i (js : List Nat), js.Nodup → (∀ j ∈ js, Linkable pos r i j) → js.length ≤ maxIsl)
    (prevEdges : Option (List (Nat × Nat))) : Sound pos r maxIsl prevEdges (topology r maxIsl prevEdges pos) where
  symmetric i j h := by
    rw [mem_neighbours] at h ⊢
    rwa [Nat.min_comm, Nat.max_comm]
  nodup := nodup_neighbours pos r maxIsl prevEdges
  edges_nodup := by
    rw [topology_eq_run]
    exact nodup_chosen pos r maxIsl prevEdges
  mem_edges i j := by
    have hedges : (topology r maxIsl prevEdges pos).edges = chosen pos r maxIsl prevEdges := by
      rw [topology_eq_run]
      rfl
    rw [hedges, mem_neighbours]
    constructor
    · intro h
      have hlt := (chosen_below h).1
      rw [Nat.min_eq_left hlt.le, Nat.max_eq_right hlt.le]
      exact ⟨hlt, h⟩
    · rintro ⟨hlt, h⟩
      rwa [Nat.min_eq_left hlt.le, Nat.max_eq_right hlt.le] at h
  linkable i j h := (linkable_of_mem_neighbours h).1
  bounded i := by
    rcases hroom with hsmall | hfew
    · exact length_neighbours_le pos r hsmall prevEdges i
    · exact hfew i _ (nodup_neighbours pos r maxIsl prevEdges i) fun j hj => (linkable_of_mem_neighbours hj).1
  maximal i j h := by
    rcases hapart with rfl | hapart
    · exact .inr (.inl (Nat.zero_le _))
    · exact (maximal_of_ne h (hapart i j h)).imp_right (Or.imp le_of_noRoom le_of_noRoom)
  kept i j h hprev := by
    rcases hapart with rfl | hapart
    · exact .inr (.inl (Nat.zero_le _))
    · exact (kept_of_ne h (hapart i j h) hprev).imp_right (Or.imp le_of_noRoom le_of_noRoom)

/-- **The links chosen from orbits are sound and maximal, whatever the links before were,** exactly where no two
satellites that could be linked are at one place, and the limit is below 256 or no satellite could have more
links. -/
theorem topology_sound_iff (pos : List (Option (Vec K))) (r : K) (maxIsl : Nat) :
    (∀ prevEdges, Sound pos r maxIsl prevEdges (topology r maxIsl prevEdges pos)) ↔
      (maxIsl = 0 ∨ ∀ i j, Linkable pos r i j → pos[i]? ≠ pos[j]?) ∧
      (maxIsl < 256 ∨
        ∀ i (js : List Nat), js.Nodup → (∀ j ∈ js, Linkable pos r i j) → js.length ≤ maxIsl) := by
  constructor
  · intro h
    have hapart : maxIsl = 0 ∨ ∀ i j, Linkable pos r i j → pos[i]? ≠ pos[j]? := by
      by_contra hnot
      rw [not_or] at hnot
      obtain ⟨hpos, hplace⟩ := hnot
      push Not at hplace
      obtain ⟨i, j, hlink, heq⟩ := hplace
      -- the two were linked before, and no other pair was
      have hlone : ∀ {k l : Nat}, (min k l, max k l) = (min i j, max i j) →
          l ∉ (topology r maxIsl (some [(min i j, max i j)]) pos).neighbours k := by
        intro k l hkl hl
        have hne := (linkable_of_mem_neighbours hl).2
        have hends : k = i ∧ l = j ∨ k = j ∧ l = i := by
          obtain ⟨hmin, hmax⟩ := Prod.mk.inj hkl
          omega
        rcases hends with ⟨rfl, rfl⟩ | ⟨rfl, rfl⟩
        · exact hne heq
        · exact hne heq.symm
      have hnone : ∀ k, ((topology r maxIsl (some [(min i j, max i j)]) pos).neighbours k).filter
          (wasLinked (some [(min i j, max i j)]) k) = [] := fun k =>
        List.filter_eq_nil_iff.mpr fun l hl hwas => hlone (List.mem_singleton.mp (List.contains_iff_mem.mp hwas)) hl
      have hkept := (h (some [(min i j, max i j)])).kept i j hlink (List.contains_iff_mem.mpr List.mem_cons_self)
      rw [hnone, hnone] at hkept
      exact hkept.elim (hlone rfl) fun hfull => hpos (Nat.le_zero.mp (hfull.elim id id))
    refine ⟨hapart, ?_⟩
    by_contra hnot
    rw [not_or] at hnot
    obtain ⟨hlarge, hmany⟩ := hnot
    push Not at hmany
    obtain ⟨i, js, hnodup, hjs, hlong⟩ := hmany
    have hsub : js ⊆ (topology r maxIsl none pos).neighbours i := by
      intro j hj
      have hne := (hapart.resolve_left (by omega)) i j (hjs j hj)
      have hno : ∀ d, ¬ noRoom maxIsl d = true := fun d hd => hlarge (of_decide_eq_true hd).2
      exact (maximal_of_ne (hjs j hj) hne).resolve_right fun hfull => hfull.elim (hno _) (hno _)
    exact absurd ((h none).bounded i)
      (Nat.not_le_of_lt (hlong.trans_le (List.subperm_of_subset hnodup hsub).length_le))
  · exact fun ⟨hapart, hroom⟩ => sound_topology hapart hroom

end Chosen

theorem topology_sound_two : Sound (K := ℚ) [some ⟨7000, 0, 0⟩, some ⟨7000, 1000, 0⟩] 2500 4 (some [(0, 1)])
    (topology (2500 : ℚ) 4 (some [(0, 1)]) [some ⟨7000, 0, 0⟩, some ⟨7000, 1000, 0⟩]) := by
  refine (topology_sound_iff _ _ _).mpr ⟨.inr ?_, .inl (by decide)⟩ _
  rintro i j ⟨hne, p, q, hp, hq, -⟩
  obtain ⟨hi, -⟩ := List.getElem?_eq_some_iff.mp hp
  obtain ⟨hj, -⟩ := List.getElem?_eq_some_iff.mp hq
  simp only [List.length_cons, List.length_nil] at hi hj
  interval_cases i <;> interval_cases j
  · exact absurd rfl hne
  · simp
  · simp
  · exact absurd rfl hne

/-- Two satellites at one place, as docked ones are, with all their terminals free. -/
theorem one_place_not_linked : ¬ Sound (K := ℚ) [some ⟨7000, 0, 0⟩, some ⟨7000, 0, 0⟩] 2500 4 none
    (topology (2500 : ℚ) 4 none [some ⟨7000, 0, 0⟩, some ⟨7000, 0, 0⟩]) := by
  intro h
  have hadj : (topology (2500 : ℚ) 4 none [some ⟨7000, 0, 0⟩, some ⟨7000, 0, 0⟩]).adj = [[], []] := by
    decide +kernel
  have hlink : Linkable [some ⟨7000, 0, 0⟩, some ⟨7000, 0, 0⟩] (2500 : ℚ) 0 1 := by
    refine ⟨by decide, ⟨7000, 0, 0⟩, ⟨7000, 0, 0⟩, rfl, rfl, ⟨by norm_num, ?_⟩, fun t _ _ => ?_⟩
    · norm_num [Vec.normSq, Vec.dot, Vec.sub]
    · rw [Vec.along_self]
      norm_num [clearance, Vec.normSq, Vec.dot]
  have hmax := h.maximal 0 1 hlink
  unfold Selection.neighbours at hmax
  rw [hadj] at hmax
  revert hmax
  decide

end DtnCustody.Constellation
