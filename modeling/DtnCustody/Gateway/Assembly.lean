/-
# DtnCustody.Gateway.Assembly — putting together fragments whose offsets are numbers.

For such fragments the sort, the sweep and the copies of `_reassemble` are those of pieces of a byte
string: `ready` answers exactly when no position is missing (`ready_of_cover`, `ready_of_gap`), and what
is copied together is the data that the pieces come from (`finish_of_cover`).
-/
import DtnCustody.Gateway.Reassembly

namespace DtnCustody

open Base Js

namespace Gateway

variable {N : Node}

/-- A piece as it is stored. -/
def asPart (p : Piece) : JsVal × Bytes := (some (.int p.1), p.2)

/-- The offset is a number of the language. -/
def Numbered (p : Piece) : Prop := Cbor.isNumber p.1 = true

theorem toPrim_natCast {n : Nat} (h : Cbor.isNumber n = true) :
    JsVal.toPrim (some (.int n)) = .int n := Cbor.toPrim_int h

/-! ## Sorting -/

theorem compareOffsets_pieces {p q : Piece} (hp : Numbered p) (hq : Numbered q) :
    compareOffsets N (asPart p).1 (asPart q).1 = .ok (.fin ((p.1 - q.1 : Int) : ℚ)) := by
  show (do (← (JsVal.toPrim (some (.int p.1))).sub N (JsVal.toPrim (some (.int q.1)))).toNumber N) = _
  rw [toPrim_natCast hp, toPrim_natCast hq, Prim.sub_int]
  rfl

theorem insertPart_pieces {x : Piece} (hx : Numbered x) :
    ∀ {ps : List Piece}, (∀ p ∈ ps, Numbered p) → ps.Pairwise (fun p q => p.1 ≤ q.1) →
      ∃ rs : List Piece, insertPart N (asPart x) (ps.map asPart) = .ok (rs.map asPart) ∧ rs.Perm (x :: ps) ∧
        rs.Pairwise (fun p q => p.1 ≤ q.1) := by
  intro ps
  induction ps with
  | nil => exact fun _ _ => ⟨[x], rfl, List.Perm.refl _, List.pairwise_singleton _ _⟩
  | cons y ys ih =>
      intro hnum hsorted
      rw [List.forall_mem_cons] at hnum
      obtain ⟨hy, hys⟩ := List.pairwise_cons.mp hsorted
      rw [List.map_cons, insertPart, compareOffsets_pieces hx hnum.1, Outcome.ok_bind, JsNum.lt_fin]
      by_cases hlt : x.1 < y.1
      · refine ⟨x :: y :: ys, ?_, List.Perm.refl _, ?_⟩
        · rw [if_pos]
          · rfl
          · rw [Option.some.injEq, decide_eq_true_eq]
            exact_mod_cast (by omega : ((x.1 : Int) - y.1) < 0)
        · rw [List.pairwise_cons, List.forall_mem_cons]
          refine ⟨⟨le_of_lt hlt, fun q hq => ?_⟩, hsorted⟩
          have hle := hy q hq
          omega
      · obtain ⟨rs, hrs, hperm, hpair⟩ := ih hnum.2 hys
        refine ⟨y :: rs, ?_, (hperm.cons y).trans (List.Perm.swap x y ys), ?_⟩
        · rw [if_neg, hrs]
          · rfl
          · rw [Option.some.injEq, decide_eq_true_eq, not_lt]
            exact_mod_cast (by omega : 0 ≤ ((x.1 : Int) - y.1))
        · rw [List.pairwise_cons]
          refine ⟨fun q hq => ?_, hpair⟩
          rcases List.mem_cons.mp (hperm.mem_iff.mp hq) with rfl | hq
          · omega
          · exact hy q hq

/-- **The sort puts the pieces in the order of their offsets.** -/
theorem sortParts_pieces {ps : List Piece} (hnum : ∀ p ∈ ps, Numbered p) :
    ∃ rs : List Piece, sortParts N (ps.map asPart) = .ok (rs.map asPart) ∧ rs.Perm ps ∧
      rs.Pairwise (fun p q => p.1 ≤ q.1) := by
  have hfold : ∀ {ps sorted : List Piece}, (∀ p ∈ ps, Numbered p) → (∀ p ∈ sorted, Numbered p) →
      sorted.Pairwise (fun p q => p.1 ≤ q.1) → ∃ rs : List Piece,
        (ps.map asPart).foldlM (fun sorted p => insertPart N p sorted) (sorted.map asPart) =
          .ok (rs.map asPart) ∧ rs.Perm (ps ++ sorted) ∧ rs.Pairwise (fun p q => p.1 ≤ q.1) := by
    intro ps
    induction ps with
    | nil => exact fun _ _ hpair => ⟨_, rfl, List.Perm.refl _, hpair⟩
    | cons p ps ih =>
        intro sorted hps hsorted hpair
        rw [List.forall_mem_cons] at hps
        obtain ⟨qs, hqs, hperm, hqpair⟩ := @insertPart_pieces N p hps.1 sorted hsorted hpair
        have hqnum : ∀ q ∈ qs, Numbered q := by
          intro q hq
          rcases List.mem_cons.mp (hperm.mem_iff.mp hq) with rfl | hq
          · exact hps.1
          · exact hsorted q hq
        obtain ⟨rs, hrs, hrperm, hrpair⟩ := ih hps.2 hqnum hqpair
        refine ⟨rs, ?_, ?_, hrpair⟩
        · rw [List.map_cons, List.foldlM_cons, hqs, Outcome.ok_bind, hrs]
        · exact hrperm.trans ((hperm.append_left ps).trans List.perm_middle)
  obtain ⟨rs, hrs, hperm, hpair⟩ := @hfold ps [] hnum (fun _ hp => by cases hp) List.Pairwise.nil
  rw [List.append_nil] at hperm
  exact ⟨rs, hrs, hperm, hpair⟩

/-! ## Sweeping and copying -/

theorem sweepParts_pieces : ∀ {ps : List Piece} {reach : Nat}, (∀ p ∈ ps, Numbered p) →
    sweepParts N (.fin ((reach : Int) : ℚ)) (ps.map asPart) =
      .ok ((Piece.sweep reach ps).map fun n : Nat => .fin ((n : Int) : ℚ)) := by
  intro ps
  induction ps with
  | nil => exact fun _ => rfl
  | cons p ps ih =>
      intro reach hnum
      rw [List.forall_mem_cons] at hnum
      have hprim : JsVal.toPrim (asPart p).1 = .int p.1 := toPrim_natCast hnum.1
      rw [List.map_cons, sweepParts, hprim, Prim.lt_int, Piece.sweep]
      by_cases hhole : reach < p.1
      · rw [if_pos (decide_eq_true (by exact_mod_cast hhole)), if_pos hhole]
        rfl
      · have hmax : maxNumber (.fin ((reach : Int) : ℚ)) (.fin ((p.1 + p.2.length : Int) : ℚ)) =
            .fin (((max reach (p.1 + p.2.length) : Nat) : Int) : ℚ) := by
          rw [maxNumber, JsNum.lt_fin]
          dsimp only
          by_cases hlt : reach < p.1 + p.2.length
          · rw [if_pos (decide_eq_true (by exact_mod_cast hlt)), max_eq_right (le_of_lt hlt),
              Nat.cast_add]
          · rw [if_neg, max_eq_left (not_lt.mp hlt)]
            rw [decide_eq_true_eq, not_lt]
            exact_mod_cast not_lt.mp hlt
        rw [if_neg, if_neg hhole, Prim.add_int, Outcome.ok_bind]
        · show sweepParts N (maxNumber (.fin ((reach : Int) : ℚ))
            (.fin ((p.1 + p.2.length : Int) : ℚ))) (ps.map asPart) = _
          rw [hmax]
          exact ih hnum.2
        · rw [decide_eq_true_eq]
          exact_mod_cast hhole

theorem copyParts_pieces : ∀ {ps : List Piece} {buf : Bytes}, (∀ p ∈ ps, Numbered p) →
    copyParts N buf (ps.map asPart) = .ok (Piece.assemble buf ps) := by
  intro ps
  induction ps with
  | nil => exact fun _ => rfl
  | cons p ps ih =>
      intro buf hnum
      rw [List.forall_mem_cons] at hnum
      have hstart : copyStart N (asPart p).1 = .ok p.1 := by
        have hprim : JsVal.toPrim (asPart p).1 = .int p.1 := toPrim_natCast hnum.1
        have hsafe : (p.1 : Int) ≤ 9007199254740991 := by
          have h := hnum.1
          unfold Numbered Cbor.isNumber at h
          rw [Bool.and_eq_true, decide_eq_true_eq, decide_eq_true_eq] at h
          exact h.2
        unfold copyStart
        rw [hprim]
        show (if _ then _ else _) = _
        rw [if_neg, if_neg, Int.cast_natCast, Int.floor_natCast, Int.toNat_natCast]
        · rfl
        · rw [not_lt]
          exact_mod_cast Nat.zero_le p.1
        · rw [not_or, not_lt, not_lt]
          exact ⟨by exact_mod_cast (by omega : (-9007199254740991 : Int) ≤ p.1), by exact_mod_cast hsafe⟩
      rw [List.map_cons, copyParts, hstart, Outcome.ok_bind]
      exact ih hnum.2

/-! ## Completion -/

/-- An entry whose fragments are pieces of `len` bytes. -/
structure HasPieces (e : Entry) (len : Nat) (ps : List Piece) : Prop where
  total : e.total = some (.int len)
  parts : e.parts = ps.map asPart
  number : Cbor.isNumber len = true
  inside : ∀ p ∈ ps, p.1 ≤ len

theorem isNumber_of_le {n m : Nat} (h : n ≤ m) (hm : Cbor.isNumber m = true) : Cbor.isNumber n = true := by
  unfold Cbor.isNumber at hm ⊢
  rw [Bool.and_eq_true, decide_eq_true_eq, decide_eq_true_eq] at hm ⊢
  omega

variable {e : Entry} {len : Nat} {ps : List Piece}

theorem HasPieces.numbered (h : HasPieces e len ps) : ∀ p ∈ ps, Numbered p :=
  fun p hp => isNumber_of_le (h.inside p hp) h.number

/-- The total is compared with how far the sweep came. -/
theorem ready_eq (h : HasPieces e len ps) : ∃ rs : List Piece, rs.Perm ps ∧
    rs.Pairwise (fun p q => p.1 ≤ q.1) ∧ ready N e = .ok (match Piece.sweep 0 rs with
      | none => none
      | some stop => if stop < len then none else e.first.map fun first => (first, rs.map asPart)) := by
  obtain ⟨rs, hrs, hperm, hpair⟩ := @sortParts_pieces N ps h.numbered
  have hnum : ∀ p ∈ rs, Numbered p := fun p hp => h.numbered p (hperm.mem_iff.mp hp)
  have hsweep := @sweepParts_pieces N rs 0 hnum
  rw [Nat.cast_zero, Int.cast_zero] at hsweep
  refine ⟨rs, hperm, hpair, ?_⟩
  rw [ready, h.parts, hrs, Outcome.ok_bind, hsweep, Outcome.ok_bind]
  cases Piece.sweep 0 rs with
  | none => rfl
  | some stop =>
      show (if Prim.lt N (.int stop) (JsVal.toPrim e.total) = true then _ else _) = _
      rw [h.total, toPrim_natCast h.number, Prim.lt_int]
      dsimp only
      by_cases hlt : stop < len
      · rw [if_pos (decide_eq_true (by exact_mod_cast hlt)), if_pos hlt]
        rfl
      · rw [if_neg (by rw [decide_eq_true_eq]; exact_mod_cast hlt), if_neg hlt]
        rfl

theorem cover_of_perm {rs : List Piece} (h : rs.Perm ps) {start stop : Nat} :
    Piece.Cover rs start stop ↔ Piece.Cover ps start stop :=
  forall_congr' fun _ => imp_congr_right fun _ => imp_congr_right fun _ =>
    exists_congr fun _ => and_congr_left' h.mem_iff

/-- **While a position is missing, the entry waits.** -/
theorem ready_of_gap (h : HasPieces e len ps) (hgap : ¬ Piece.Cover ps 0 len) :
    ready N e = .ok none := by
  obtain ⟨rs, hperm, hpair, hready⟩ := @ready_eq N e len ps h
  rw [hready]
  have hsweep : ¬ ∃ stop, Piece.sweep 0 rs = some stop ∧ len ≤ stop := by
    rw [Piece.sweep_reaches_iff hpair fun p hp => h.inside p (hperm.mem_iff.mp hp), cover_of_perm hperm]
    exact hgap
  cases hcase : Piece.sweep 0 rs with
  | none => rfl
  | some stop =>
      have hlt : stop < len := by
        by_contra hge
        exact hsweep ⟨stop, hcase, not_lt.mp hge⟩
      show Except.ok (if stop < len then none else _) = _
      rw [if_pos hlt]

/-- With every position there and a first fragment, the entry is ready. -/
theorem ready_of_cover (h : HasPieces e len ps) (hcover : Piece.Cover ps 0 len) {first : Bundle}
    (hfirst : e.first = some first) :
    ∃ rs : List Piece, rs.Perm ps ∧ ready N e = .ok (some (first, rs.map asPart)) := by
  obtain ⟨rs, hperm, hpair, hready⟩ := @ready_eq N e len ps h
  refine ⟨rs, hperm, ?_⟩
  obtain ⟨stop, hstop, hle⟩ := (Piece.sweep_reaches_iff hpair fun p hp =>
    h.inside p (hperm.mem_iff.mp hp)).mpr ((cover_of_perm hperm).mpr hcover)
  rw [hready, hstop]
  show Except.ok (if stop < len then none else _) = _
  rw [if_neg (not_lt.mpr hle), hfirst]
  rfl

/-- The first fragment's bundle with the whole payload. -/
def whole (first : Bundle) (payload : Bytes) : Bundle where
  primary := { first.primary with flags := .int 0, fragmentOffset := none, totalAduLength := none }
  blocks := first.blocks.map fun b => if b.type = Bundle.payloadType then { b with data := payload } else b

theorem wholeBundle_fragment {first : Bundle} (hflags : first.primary.flags = .int 1) (payload : Bytes) :
    wholeBundle N first payload = .ok (whole first payload) := by
  have hclear : clearFragment N first.primary.flags = .ok (.int 0) := by
    rw [hflags]
    show Except.ok _ = _
    have hbits : (JsNum.fin ((1 : Int) : ℚ)).toUint32 = 1 := by
      exact_mod_cast JsNum.toUint32_natCast 1 (by decide)
    rw [hbits]
    rfl
  rw [wholeBundle, hclear, Outcome.ok_bind]
  rfl

variable {s : State} {key : JsString}

theorem finish_of_gap (h : HasPieces e len ps) (hgap : ¬ Piece.Cover ps 0 len) :
    finish N s key e = (s, .ok none) := by
  rw [finish, ready_of_gap h hgap]

/-- **The pieces of the data, all of them there, make the data.** -/
theorem finish_whole {data : Bytes} (h : HasPieces e data.length ps)
    (hagree : ∀ p ∈ ps, Piece.Agrees data p) (hcover : Piece.Cover ps 0 data.length)
    {first : Bundle} (hfirst : e.first = some first) :
    finish N s key e = (closed s key e, do return some (← wholeBundle N first data)) := by
  obtain ⟨rs, hperm, hready⟩ := @ready_of_cover N e data.length ps h hcover first hfirst
  have hnum : ∀ p ∈ rs, Numbered p := fun p hp => h.numbered p (hperm.mem_iff.mp hp)
  have halloc : allocLength e.total = .ok data.length := by
    rw [h.total, allocLength, if_neg (by rw [h.number]; simp), if_neg (by omega), Int.toNat_natCast]
  have hdata : Piece.assemble (List.replicate data.length 0) rs = data :=
    Piece.assemble_eq List.length_replicate (fun p hp => hagree p (hperm.mem_iff.mp hp))
      ((cover_of_perm hperm).mpr hcover)
  rw [finish, hready]
  dsimp only
  rw [halloc, Outcome.ok_bind, copyParts_pieces hnum, hdata]

theorem finish_of_cover {data : Bytes} (h : HasPieces e data.length ps)
    (hagree : ∀ p ∈ ps, Piece.Agrees data p) (hcover : Piece.Cover ps 0 data.length)
    {first : Bundle} (hfirst : e.first = some first) (hflags : first.primary.flags = .int 1) :
    finish N s key e = (closed s key e, .ok (some (whole first data))) := by
  rw [finish_whole h hagree hcover hfirst, wholeBundle_fragment hflags, Outcome.ok_bind]
  rfl

end Gateway

end DtnCustody
