/-
# DtnCustody.Gateway.FirstParts — fragments with one offset and different lengths.

Fragments of one bundle may overlap in any way, and `_reassemble` sweeps over them all but one kind: a
fragment whose offset is there already is dropped, even when it is the longer one. So the set holds the
first fragment of each offset (`firsts`), and when the fragments that have arrived cover the payload,
the bundle is put together exactly if those first ones do (`completes_iff`).
-/
import DtnCustody.Gateway.Refused

namespace DtnCustody

open Base Js

namespace Gateway

/-! ## The first piece of each offset -/

/-- The pieces so far, with one more if its offset is new. -/
def keepFirst (ps : List Piece) (p : Piece) : List Piece :=
  if p.1 ∈ ps.map Prod.fst then ps else ps ++ [p]

def firsts (ps : List Piece) : List Piece := ps.foldl keepFirst []

@[simp] theorem firsts_concat (ps : List Piece) (p : Piece) :
    firsts (ps ++ [p]) = keepFirst (firsts ps) p := by
  rw [firsts, List.foldl_concat]
  rfl

theorem mem_of_mem_firsts {ps : List Piece} {p : Piece} (h : p ∈ firsts ps) : p ∈ ps := by
  induction ps using List.reverseRecOn with
  | nil => exact h
  | append_singleton ps q ih =>
      rw [firsts_concat, keepFirst] at h
      rw [List.mem_append]
      split at h
      · exact Or.inl (ih h)
      · rw [List.mem_append] at h
        exact h.imp_left ih

theorem cover_of_firsts {ps : List Piece} {start stop : Nat} (h : Piece.Cover (firsts ps) start stop) :
    Piece.Cover ps start stop := by
  intro x hlo hhi
  obtain ⟨p, hp, hx⟩ := h x hlo hhi
  exact ⟨p, mem_of_mem_firsts hp, hx⟩

/-! ## Fragments of one bundle -/

variable {N : Node} {data : Bytes} {key : JsString}

/-- The bundle is a fragment of the payload: it has the piece `p`, and the total length. -/
structure FragmentOf (N : Node) (data : Bytes) (key : JsString) (p : Piece) (b : Bundle) : Prop where
  bit : Bundle.fragmentBit N (some b.primary.flags) = .ok 1
  key : keyOf b.primary = key
  offset : b.primary.fragmentOffset = some (.int p.1)
  total : b.primary.totalAduLength = some (.int data.length)
  payload : b.payloadOf = .ok p.2
  agrees : Piece.Agrees data p

/-- A fragment, and when it arrives. -/
structure Piecewise (N : Node) (data : Bytes) (key : JsString) where
  now : Int
  bundle : Bundle
  piece : Piece
  fragment : FragmentOf N data key piece bundle

def pieces (l : List (Piecewise N data key)) : List Piece := l.map Piecewise.piece

@[simp] theorem pieces_concat (l : List (Piecewise N data key)) (x : Piecewise N data key) :
    pieces (l ++ [x]) = pieces l ++ [x.piece] := List.map_append

/-- Every byte from 0 to the total is there, and a fragment that starts at offset 0. -/
def Covered (l : List (Piecewise N data key)) : Prop :=
  Piece.Cover (pieces l) 0 data.length ∧ ∃ x ∈ l, x.piece.1 = 0

variable {cfg : Config} {s : State} {l : List (Piecewise N data key)} {x : Piecewise N data key}

def receive (cfg : Config) (s : State) (x : Piecewise N data key) : State × Outcome (Option Bundle) :=
  reassemble N cfg x.now s x.bundle

def receiveAll (cfg : Config) (s : State) (l : List (Piecewise N data key)) : State :=
  l.foldl (fun s x => (receive cfg s x).1) s

@[simp] theorem receiveAll_concat (l : List (Piecewise N data key)) (x : Piecewise N data key) :
    receiveAll cfg s (l ++ [x]) = (receive cfg (receiveAll cfg s l) x).1 := by
  rw [receiveAll, List.foldl_concat]
  rfl

/-- The set has not expired when the fragment arrives, and there is room for it. -/
structure Undisturbed (cfg : Config) (s : State) (x : Piecewise N data key) : Prop where
  live : ∀ e, s.partials.get? key = some e → e.expired cfg x.now = false
  room : (receive cfg s x).2 ≠ .error (.error "reassembly buffer full")

/-- The payload, as one bundle that is no fragment any more. -/
structure IsWhole (N : Node) (data : Bytes) (key : JsString) (w : Bundle) : Prop where
  bit : Bundle.fragmentBit N (some w.primary.flags) = .ok 0
  key : keyOf w.primary = key
  offset : w.primary.fragmentOffset = none
  total : w.primary.totalAduLength = none
  payload : w.payloadOf = .ok data

/-! ## What the set holds -/

/-- **The set of the fragments `l`**: the first of each offset, and a bundle that starts at 0 if there
is one. -/
structure FirstsOf (l : List (Piecewise N data key)) (e : Entry) : Prop where
  pieces : HasPieces e data.length (firsts (pieces l))
  first : (∃ x ∈ l, x.piece.1 = 0) → ∃ x ∈ l, e.first = some x.bundle
  noFirst : (¬ ∃ x ∈ l, x.piece.1 = 0) → e.first = none

/-- The state has the fragments `l`, none of them if there is no set. -/
def Keeps (s : State) (l : List (Piecewise N data key)) : Prop :=
  match s.partials.get? key with
  | none => l = []
  | some e => FirstsOf l e

variable {e : Entry}

theorem firstsOf_nil (hnum : Cbor.isNumber data.length = true) (h : e.total = some (.int data.length))
    (hparts : e.parts = []) (hfirst : e.first = none) :
    FirstsOf ([] : List (Piecewise N data key)) e := by
  refine ⟨⟨h, hparts, hnum, fun p hp => by cases hp⟩, fun hzero => ?_, fun _ => hfirst⟩
  obtain ⟨x, hx, _⟩ := hzero
  cases hx

theorem Piecewise.start_le (x : Piecewise N data key) : x.piece.1 ≤ data.length := by
  have := x.fragment.agrees.1
  omega

theorem FirstsOf.has_iff (h : FirstsOf l e) (x : Piecewise N data key) :
    e.has x.bundle.primary.fragmentOffset = true ↔ x.piece.1 ∈ (firsts (Gateway.pieces l)).map Prod.fst := by
  rw [x.fragment.offset, Entry.has, h.pieces.parts, List.any_map, List.any_eq_true, List.mem_map]
  apply exists_congr
  intro p
  apply and_congr_right
  intro _
  show Cbor.sameKey (.int p.1) (.int x.piece.1) = true ↔ _
  constructor
  · intro h
    exact Nat.cast_inj.mp (Cbor.int.inj (Cbor.sameKey_eq h))
  · intro h
    rw [h]
    show ((x.piece.1 : Int) == x.piece.1) = true
    exact beq_self_eq_true _

theorem FirstsOf.store (h : FirstsOf l e) (x : Piecewise N data key) :
    FirstsOf (l ++ [x]) (e.store x.bundle x.piece.2) := by
  have hparts : (e.store x.bundle x.piece.2).parts = (firsts (Gateway.pieces (l ++ [x]))).map asPart := by
    rw [pieces_concat, firsts_concat, keepFirst]
    unfold Entry.store
    by_cases hin : x.piece.1 ∈ (firsts (Gateway.pieces l)).map Prod.fst
    · rw [if_pos ((h.has_iff x).mpr hin), if_pos hin]
      split <;> exact h.pieces.parts
    · rw [if_neg (fun hc => hin ((h.has_iff x).mp hc)), if_neg hin, List.map_append, ← h.pieces.parts,
        x.fragment.offset]
      split <;> rfl
  have htotal : (e.store x.bundle x.piece.2).total = e.total := by
    unfold Entry.store
    split <;> split <;> rfl
  -- the bundle that starts at 0 is kept, whether its piece is stored or not
  have hzero : x.bundle.primary.fragmentOffset.isInt 0 = true ↔ x.piece.1 = 0 := by
    rw [x.fragment.offset, JsVal.isInt_iff, Option.some.injEq, Cbor.int.injEq, Nat.cast_eq_zero]
  have hfirst : (e.store x.bundle x.piece.2).first = if x.piece.1 = 0 then some x.bundle else e.first := by
    unfold Entry.store
    by_cases hstart : x.piece.1 = 0
    · rw [if_pos hstart, if_pos (hzero.mpr hstart)]
    · rw [if_neg hstart, if_neg (fun hc => hstart (hzero.mp hc))]
      split <;> rfl
  refine ⟨⟨htotal.trans h.pieces.total, hparts, h.pieces.number, fun p hp => ?_⟩, fun hsome => ?_, fun hno => ?_⟩
  · obtain ⟨y, _, rfl⟩ := List.mem_map.mp (mem_of_mem_firsts hp)
    exact y.start_le
  · rw [hfirst]
    by_cases hstart : x.piece.1 = 0
    · rw [if_pos hstart]
      exact ⟨x, by simp, rfl⟩
    · rw [if_neg hstart]
      obtain ⟨y, hy, hystart⟩ := hsome
      rcases List.mem_append.mp hy with hy | hy
      · obtain ⟨z, hz, hzfirst⟩ := h.first ⟨y, hy, hystart⟩
        exact ⟨z, List.mem_append_left _ hz, hzfirst⟩
      · rw [List.mem_singleton.mp hy] at hystart
        exact absurd hystart hstart
  · rw [hfirst, if_neg (fun hstart => hno ⟨x, by simp, hstart⟩)]
    apply h.noFirst
    rintro ⟨y, hy, hystart⟩
    exact hno ⟨y, List.mem_append_left _ hy, hystart⟩

/-! ## One fragment -/

/-- A fragment of a payload that has bytes lies inside its total. -/
theorem FragmentOf.inside {p : Piece} {b : Bundle} (h : FragmentOf N data key p b)
    (hnum : Cbor.isNumber data.length = true) :
    outside N b.primary.fragmentOffset b.primary.totalAduLength p.2.length =
      .ok (decide (data.length = 0)) := by
  have hend := h.agrees.1
  have hoffset : JsVal.toPrim b.primary.fragmentOffset = .int p.1 := by
    rw [h.offset]
    exact toPrim_natCast (isNumber_of_le (by omega) hnum)
  have htotal : JsVal.toPrim b.primary.totalAduLength = .int data.length := by
    rw [h.total]
    exact toPrim_natCast hnum
  rw [outside, htotal, hoffset, Prim.lt_int]
  by_cases hempty : data.length = 0
  · rw [if_pos (decide_eq_false (by omega)), decide_eq_true hempty]
  · rw [if_neg, Prim.add_int, Outcome.ok_bind, Prim.lt_int, decide_eq_false hempty]
    · show Except.ok (decide _) = _
      rw [decide_eq_false (by omega)]
    · rw [decide_eq_false_iff_not, not_not]
      omega

/-- What `_reassemble` does with a fragment after the checks that every bundle goes through. -/
theorem receive_eq (hnum : Cbor.isNumber data.length = true) : receive cfg s x =
    if data.length = 0 then (s, .error (.error "fragment outside its total length"))
    else storeFragment N cfg x.now (expire cfg x.now s) x.bundle x.piece.2 := by
  rw [receive, reassemble, x.fragment.bit]
  dsimp only
  rw [if_neg one_ne_zero, x.fragment.payload]
  dsimp only
  rw [x.fragment.inside hnum]
  by_cases hempty : data.length = 0
  · rw [if_pos hempty, decide_eq_true hempty]
  · rw [if_neg hempty, decide_eq_false hempty]

/-- **A fragment is stored** in the set, and then the set is looked at. -/
theorem receive_stored (hnum : Cbor.isNumber data.length = true) (hpos : 0 < data.length)
    (h : Keeps s l) (hund : Undisturbed cfg s x) :
    ∃ e stored, FirstsOf (l ++ [x]) e ∧ stored.partials.get? key = some e ∧
      receive cfg s x = finish N stored key e := by
  have hroom := hund.room
  rw [receive_eq hnum, if_neg (by omega)] at hroom ⊢
  have hkey := x.fragment.key
  have hget : (expire cfg x.now s).partials.get? key = s.partials.get? key := by
    rw [get?_expire]
    cases hs : s.partials.get? key with
    | none => rfl
    | some e =>
        rw [Option.filter, hund.live e hs]
        rfl
  unfold Keeps at h
  have hentry : FirstsOf l (entryOf (expire cfg x.now s) x.now x.bundle.primary) := by
    rw [entryOf, hkey, hget]
    cases hs : s.partials.get? key with
    | none =>
        rw [hs] at h
        dsimp only at h
        rw [h]
        exact firstsOf_nil hnum x.fragment.total rfl rfl
    | some e =>
        rw [hs] at h
        exact h
  have hagrees : agrees (expire cfg x.now s) x.bundle.primary = true := by
    rw [agrees, hkey, hget]
    cases hs : s.partials.get? key with
    | none => rfl
    | some e =>
        rw [hs] at h
        show same e.total x.bundle.primary.totalAduLength = true
        rw [h.pieces.total, x.fragment.total]
        exact beq_self_eq_true _
  unfold storeFragment at hroom ⊢
  dsimp only at hroom ⊢
  rw [if_neg (by rw [hagrees]; simp)] at hroom ⊢
  split
  · rename_i hfull
    rw [if_pos hfull] at hroom
    exact absurd rfl hroom
  · rw [hkey]
    exact ⟨_, _, hentry.store x, JsMap.get?_set_self _ _ _, rfl⟩

/-! ## Waiting and completing -/

/-- The set waits while nothing of it starts at 0. -/
theorem ready_of_noFirst {ps : List Piece} {len : Nat} (h : HasPieces e len ps) (hfirst : e.first = none) :
    ready N e = .ok none := by
  obtain ⟨rs, _, _, hready⟩ := @ready_eq N e len ps h
  rw [hready, hfirst]
  cases Piece.sweep 0 rs with
  | none => rfl
  | some stop =>
      dsimp only
      split <;> rfl

theorem finish_waits {stored : State} (h : FirstsOf l e) (hno : ¬ Covered l) :
    finish N stored key e = (stored, .ok none) := by
  by_cases hzero : ∃ x ∈ l, x.piece.1 = 0
  · exact finish_of_gap h.pieces fun hcover => hno ⟨cover_of_firsts hcover, hzero⟩
  · rw [finish, ready_of_noFirst h.pieces (h.noFirst hzero)]

theorem toUint32_intCast (z : Int) : (JsNum.fin (z : ℚ)).toUint32 = (z % 4294967296).toNat := by
  rw [JsNum.toUint32]
  split
  · rw [← Int.cast_neg, Int.floor_intCast, neg_neg]
  · rw [Int.floor_intCast]

theorem fragmentBit_even {z : Int} (hnum : Cbor.isNumber z = true) (heven : z % 2 = 0) :
    Bundle.fragmentBit N (some (.int z)) = .ok 0 := by
  have hprim : JsVal.toPrim (some (.int z)) = .int z := Cbor.toPrim_int hnum
  rw [Bundle.fragmentBit, hprim, Prim.bitAnd, Prim.toNumber, Outcome.ok_bind, toUint32_intCast,
    Nat.and_one_is_mod]
  show Except.ok _ = Except.ok 0
  congr 1
  omega

/-- `flags & ~BUNDLE_FLAG.IS_FRAGMENT` has no fragment bit. -/
theorem fragmentBit_clear {flags : Cbor} (h : Bundle.fragmentBit N (some flags) = .ok 1) :
    ∃ cleared, clearFragment N flags = .ok cleared ∧ Bundle.fragmentBit N (some cleared) = .ok 0 := by
  obtain ⟨v, hv, _⟩ := Outcome.bind_eq_ok.mp h
  have hv : flags.toPrim.toNumber N = .ok v := hv
  have hlt : v.toUint32 < 4294967296 := by
    cases v with
    | nan => decide
    | inf negative => exact (by decide : 0 < 4294967296)
    | fin q =>
        unfold JsNum.toUint32
        dsimp only
        omega
  refine ⟨_, by rw [clearFragment, hv, Outcome.ok_bind]; rfl, ?_⟩
  apply fragmentBit_even
  · unfold Cbor.isNumber
    rw [Bool.and_eq_true, decide_eq_true_eq, decide_eq_true_eq]
    split <;> omega
  · split <;> omega

/-- The payload block of the whole bundle has the whole payload. -/
theorem payloadOf_replaced {b : Bundle} {part : Bytes} (h : b.payloadOf = .ok part) (primary : Primary)
    (payload : Bytes) : Bundle.payloadOf { primary, blocks := b.blocks.map fun x =>
      if x.type = Bundle.payloadType then { x with data := payload } else x } = .ok payload := by
  have htype : ∀ x : Block,
      (if x.type = Bundle.payloadType then { x with data := payload } else x).type = x.type := by
    intro x
    split <;> rfl
  unfold Bundle.payloadOf at h ⊢
  dsimp only
  rw [List.find?_map]
  have hcomp : ((fun x : Block => decide (x.type = Bundle.payloadType)) ∘ fun x =>
      if x.type = Bundle.payloadType then { x with data := payload } else x) =
      fun x => decide (x.type = Bundle.payloadType) := by
    funext x
    rw [Function.comp_apply, htype]
  rw [hcomp]
  cases hfind : b.blocks.find? fun x => x.type = Bundle.payloadType with
  | none =>
      rw [hfind] at h
      cases h
  | some x =>
      have hx : x.type = Bundle.payloadType := by simpa using List.find?_some hfind
      rw [Option.map_some]
      dsimp only
      rw [if_pos hx]

theorem isWhole_wholeBundle {p : Piece} {first : Bundle} (h : FragmentOf N data key p first) :
    ∃ w, wholeBundle N first data = .ok w ∧ IsWhole N data key w := by
  obtain ⟨cleared, hclear, hbit⟩ := fragmentBit_clear h.bit
  rw [wholeBundle, hclear, Outcome.ok_bind]
  exact ⟨_, rfl, hbit, h.key, rfl, rfl, payloadOf_replaced h.payload _ data⟩

/-- **With the first pieces covering the payload, the bundle is whole.** -/
theorem finish_completes {stored : State} (h : FirstsOf l e)
    (hcover : Piece.Cover (firsts (pieces l)) 0 data.length) (hzero : ∃ x ∈ l, x.piece.1 = 0) :
    ∃ w, (finish N stored key e).2 = .ok (some w) ∧ IsWhole N data key w := by
  obtain ⟨x, _, hfirst⟩ := h.first hzero
  have hagree : ∀ p ∈ firsts (pieces l), Piece.Agrees data p := by
    intro p hp
    obtain ⟨y, _, rfl⟩ := List.mem_map.mp (mem_of_mem_firsts hp)
    exact y.fragment.agrees
  obtain ⟨w, hw, hwhole⟩ := isWhole_wholeBundle x.fragment
  rw [finish_whole h.pieces hagree hcover hfirst, hw]
  exact ⟨w, rfl, hwhole⟩

/-! ## Any order of any fragments -/

/-- No fragment up to the last finds its set expired or the buffer full. -/
def Flows (cfg : Config) (s : State) (l : List (Piecewise N data key)) : Prop :=
  ∀ front x back, l = front ++ x :: back → Undisturbed cfg (receiveAll cfg s front) x

theorem Flows.dropLast (h : Flows cfg s (l ++ [x])) : Flows cfg s l := by
  intro front y back hl
  apply h front y (back ++ [x])
  rw [hl, List.append_assoc]
  rfl

theorem covered_mono {front : List (Piecewise N data key)} (h : Covered front)
    (x : Piecewise N data key) : Covered (front ++ [x]) := by
  refine ⟨fun i hlo hhi => ?_, ?_⟩
  · obtain ⟨p, hp, hi⟩ := h.1 i hlo hhi
    rw [pieces_concat]
    exact ⟨p, List.mem_append_left _ hp, hi⟩
  · obtain ⟨y, hy, hzero⟩ := h.2
    exact ⟨y, List.mem_append_left _ hy, hzero⟩

/-- Until the payload is covered, the fragments are kept. -/
theorem keeps_receiveAll (hnum : Cbor.isNumber data.length = true) (hpos : 0 < data.length)
    (hnew : s.partials.get? key = none) (hflows : Flows cfg s l) (hno : ¬ Covered l) :
    Keeps (receiveAll cfg s l) l := by
  induction l using List.reverseRecOn with
  | nil =>
      show match s.partials.get? key with | none => _ | some e => _
      rw [hnew]
  | append_singleton front x ih =>
      have hkeeps := ih hflows.dropLast fun h => hno (covered_mono h x)
      obtain ⟨e, stored, hfirsts, hget, hstep⟩ := receive_stored hnum hpos hkeeps (hflows front x [] rfl)
      rw [receiveAll_concat, hstep, finish_waits hfirsts hno, Keeps, hget]
      exact hfirsts

/-- **Reassembly completes** (`hnum`: a Buffer's length is a Number) with the fragment that makes the payload covered exactly when the payload
is not empty and the first fragments of the offsets cover it. -/
theorem completes_iff (N : Node) (cfg : Config) (data : Bytes) (key : JsString) (s : State)
    (front : List (Piecewise N data key)) (x : Piecewise N data key)
    (hnum : Cbor.isNumber data.length = true) (hnew : s.partials.get? key = none)
    (hflows : Flows cfg s (front ++ [x])) (hbefore : ¬ Covered front) (hnow : Covered (front ++ [x])) :
    (∃ w, (receive cfg (receiveAll cfg s front) x).2 = .ok (some w) ∧ IsWhole N data key w) ↔
      data ≠ [] ∧ Piece.Cover (firsts (pieces (front ++ [x]))) 0 data.length := by
  by_cases hempty : data.length = 0
  · rw [receive_eq hnum, if_pos hempty]
    constructor
    · rintro ⟨w, hw, _⟩
      cases hw
    · exact fun h => absurd (List.length_eq_zero_iff.mp hempty) h.1
  · have hkeeps := keeps_receiveAll hnum (by omega) hnew hflows.dropLast hbefore
    obtain ⟨e, stored, hfirsts, _, hstep⟩ :=
      receive_stored hnum (by omega) hkeeps (hflows front x [] rfl)
    rw [hstep]
    constructor
    · rintro ⟨w, hw, _⟩
      refine ⟨fun hnil => hempty (hnil ▸ rfl), ?_⟩
      by_contra hgap
      rw [finish_of_gap hfirsts.pieces hgap] at hw
      cases hw
    · exact fun h => finish_completes hfirsts h.2 hnow.2

/-! ### A payload of four bytes -/

/-- A fragment of the payload at the time 0. -/
def samplePiece (data : Bytes) (p : Piece) (h : Piece.Agrees data p) :
    Piecewise sampleNode data (js "ipn:1.1|1000|1") where
  now := 0
  bundle :=
    { sampleFragment p.1 data.length 0 with
      blocks := [{ type := .int 1, number := .int 1, flags := .int 0, crcType := .int 2, data := p.2 }] }
  piece := p
  fragment := by
    refine ⟨?_, ?_, rfl, rfl, ?_, h⟩
    · show Bundle.fragmentBit sampleNode (some (.int 1)) = .ok 1
      decide +kernel
    · show keyOf (sampleFragment 0 0 0).primary = _
      decide +kernel
    · simp [Bundle.payloadOf, Bundle.payloadType]

theorem flows_two {a b : Piecewise N data key} (ha : Undisturbed cfg s a)
    (hb : Undisturbed cfg (receive cfg s a).1 b) : Flows cfg s ([a] ++ [b]) := by
  intro front x back h
  rcases front with _ | ⟨c, front⟩
  · cases h
    exact ha
  · rcases front with _ | ⟨d, front⟩
    · cases h
      exact hb
    · simp at h

theorem undisturbed_of_check (hlive : (s.partials.get? key).all (fun e => !e.expired cfg x.now) = true)
    (hroom : (receive cfg s x).2 ≠ .error (.error "reassembly buffer full")) : Undisturbed cfg s x := by
  refine ⟨fun e he => ?_, hroom⟩
  rw [he] at hlive
  simpa using hlive

def sampleFront := samplePiece [1, 2, 3, 4] (0, [1, 2, 3]) (by decide)

def sampleBack := samplePiece [1, 2, 3, 4] (2, [3, 4]) (by decide)

/-- Two fragments that overlap make the payload. -/
theorem completes_overlap :
    ∃ w, (receive smallBuffer (receiveAll smallBuffer {} [sampleFront]) sampleBack).2 = .ok (some w) ∧
      IsWhole sampleNode [1, 2, 3, 4] (js "ipn:1.1|1000|1") w := by
  apply (completes_iff sampleNode smallBuffer [1, 2, 3, 4] (js "ipn:1.1|1000|1") {} [sampleFront] sampleBack
    (by decide) rfl ?_ ?_ ?_).mpr
  · exact ⟨by simp, Piece.cover_of_sweep (by decide +kernel)⟩
  · exact flows_two (undisturbed_of_check (by decide +kernel) (by decide +kernel))
      (undisturbed_of_check (by decide +kernel) (by decide +kernel))
  · intro h
    obtain ⟨p, hp, hlast⟩ := h.1 3 (by decide) (by decide)
    rw [List.mem_singleton.mp hp] at hlast
    exact absurd hlast (by decide)
  · exact ⟨Piece.cover_of_sweep (by decide +kernel), sampleFront, by simp, rfl⟩

def sampleHead := samplePiece [1, 2, 3, 4] (0, [1, 2]) (by decide)

def sampleAll := samplePiece [1, 2, 3, 4] (0, [1, 2, 3, 4]) (by decide)

/-- **The whole payload arrives, and the gateway waits**, as two bytes with the same offset came
before. -/
theorem waits_after_head : Flows smallBuffer {} ([sampleHead] ++ [sampleAll]) ∧
    ¬ Covered [sampleHead] ∧ Covered [sampleHead, sampleAll] ∧
    (receive smallBuffer (receiveAll smallBuffer {} [sampleHead]) sampleAll).2 = .ok none := by
  refine ⟨?_, ?_, ?_, by decide +kernel⟩
  · exact flows_two (undisturbed_of_check (by decide +kernel) (by decide +kernel))
      (undisturbed_of_check (by decide +kernel) (by decide +kernel))
  · intro h
    obtain ⟨p, hp, hlast⟩ := h.1 3 (by decide) (by decide)
    rw [List.mem_singleton.mp hp] at hlast
    exact absurd hlast (by decide)
  · exact ⟨Piece.cover_of_sweep (by decide +kernel), sampleHead, by simp, rfl⟩

end Gateway

end DtnCustody
