/-
# DtnCustody.Agent.StreamMerkle — `agent/lib/stream-merkle.mjs`: the tree built one leaf at a time.

`pending` is a binary counter. Slot `l` is occupied when bit `l` of the number of leaves is set, and
then holds the node over the last whole block of `2 ^ l` leaves; a new leaf is a carry into slot zero.
Proofs of watched leaves grow as a side effect: each join hands the two halves each other's digest.
Closing the tree carries the right edge up, paired with itself wherever there is nothing beside it.

The reference is the tree over all the leaves, of which the counter has seen the first `count`.
`Spans` says that a node is the one at a position of a layer and that its watched leaves have the
branches up to there; `Counter` says so of every slot. A leaf keeps that (`Counter.carry`), closing it
ends at the top layer (`Counter.close`), and `stream_eq_buildTree` compares with `buildTree`.
-/
import DtnCustody.Agent.Merkle
import DtnCustody.Base.JsMap
import DtnCustody.Js.Sample

namespace DtnCustody

open Base Js

namespace Stream

/-- `{ h, w }`: a digest and the watched leaves below it, `null` for none. -/
structure PNode where
  h : Bytes
  w : Option (List Nat)
  deriving DecidableEq, Repr

/-- The proofs collected so far, by leaf index. -/
abbrev Proofs := JsMap Nat (List Bytes)

structure StreamMerkle where
  pending : List (Option PNode)
  count : Nat
  proofs : Proofs
  done : Option Bytes

def StreamMerkle.new : StreamMerkle :=
  { pending := [], count := 0, proofs := JsMap.empty, done := none }

/-- `if (w) for (const i of w) this.proofs.get(i).push(h)`. -/
def pushAll (h : Bytes) : List Nat → Proofs → Outcome Proofs
  | [], proofs => .ok proofs
  | i :: rest, proofs =>
      match proofs.get? i with
      | none => .error .typeError
      | some p => pushAll h rest (proofs.set i (p ++ [h]))

/-- The leaves of `w`. -/
def PNode.watched (n : PNode) : List Nat := n.w.getD []

/-- `L.w && R.w ? L.w.concat(R.w) : L.w ?? R.w`. -/
def joinW : Option (List Nat) → Option (List Nat) → Option (List Nat)
  | some l, some r => some (l ++ r)
  | some l, none => some l
  | none, w => w

section Hashing

variable (N : Node)

def h2 (l r : Bytes) : Bytes := N.sha256 (0x01 :: (l ++ r))

def join (L R : PNode) (proofs : Proofs) : Outcome (PNode × Proofs) := do
  let proofs ← pushAll R.h L.watched proofs
  let proofs ← pushAll L.h R.watched proofs
  return ({ h := h2 N L.h R.h, w := joinW L.w R.w }, proofs)

def dup (P : PNode) (proofs : Proofs) : Outcome (PNode × Proofs) := do
  let proofs ← pushAll P.h P.watched proofs
  return ({ h := h2 N P.h P.h, w := P.w }, proofs)

/-- The loop of `add`: join with every occupied slot from here up, and settle in the first free one,
which may lie past the end. -/
def carryUp (node : PNode) :
    List (Option PNode) → Proofs → Outcome (List (Option PNode) × Proofs)
  | [], proofs => .ok ([some node], proofs)
  | none :: rest, proofs => .ok (some node :: rest, proofs)
  | some p :: rest, proofs => do
      let (joined, proofs) ← join N p node proofs
      let (rest, proofs) ← carryUp joined rest proofs
      return (none :: rest, proofs)

/-- `add(leaf, { watch })`: the index of the leaf, and the tree after. -/
def StreamMerkle.add (t : StreamMerkle) (leaf : Bytes) (watch : Bool) :
    Outcome (Nat × StreamMerkle) := do
  if t.done.isSome then throw (.error "StreamMerkle: closed")
  if leaf.length ≠ 32 then throw (.error "StreamMerkle: leaf must be a 32-byte hash")
  let index := t.count
  let proofs := if watch then t.proofs.set index [] else t.proofs
  let node : PNode := { h := leaf, w := if watch then some [index] else none }
  let (pending, proofs) ← carryUp N node t.pending proofs
  return (index, { t with pending, count := index + 1, proofs })

/-- The loop of `root`, from a level up. -/
def close : List (Option PNode) → (carry : Option PNode) → Proofs →
    Outcome (Option PNode × Proofs)
  | [], carry, proofs => .ok (carry, proofs)
  | p :: rest, carry, proofs =>
      let above := rest.any Option.isSome
      if !above && (if p.isSome then carry.isNone else carry.isSome) then .ok (p.or carry, proofs)
      else
        match p, carry with
        | some p, some c => do
            let (c, proofs) ← join N p c proofs
            close rest (some c) proofs
        | some p, none => do
            let (c, proofs) ← dup N p proofs
            close rest (some c) proofs
        | none, some c => do
            let (c, proofs) ← dup N c proofs
            close rest (some c) proofs
        | none, none => close rest none proofs

/-- `root()`: the digest, and the closed tree. -/
def StreamMerkle.root (t : StreamMerkle) : Outcome (Bytes × StreamMerkle) :=
  match t.done with
  | some done => .ok (done, t)
  | none => do
      if t.count = 0 then throw (.error "StreamMerkle: no leaves")
      let (carry, proofs) ← close N t.pending none t.proofs
      match carry with
      | none => throw .typeError
      | some c => return (c.h, { t with proofs, done := some c.h })

end Hashing

/-- `proof(index)`: `null` for a leaf that was not watched. -/
def StreamMerkle.proof (t : StreamMerkle) (index : Nat) : Outcome (Option (List JsString)) :=
  if t.done.isNone then .error (.error "StreamMerkle: call root() first")
  else .ok ((t.proofs.get? index).map fun p => p.map Hex.encode)

/-- The leaves added in order, those at the positions of `watch` watched. -/
def feed (N : Node) (watch : Nat → Bool) : List Bytes → StreamMerkle → Outcome StreamMerkle
  | [], t => .ok t
  | leaf :: rest, t => do
      let (_, t) ← t.add N leaf (watch t.count)
      feed N watch rest t

/-! ## Pushing -/

/-- Pushing to different leaves, each of which has a proof, adds to those and leaves the others. -/
theorem pushAll_spec (h : Bytes) (ws : List Nat) :
    ∀ {proofs : Proofs}, ws.Nodup → (∀ i ∈ ws, (proofs.get? i).isSome) →
      ∃ proofs', pushAll h ws proofs = .ok proofs' ∧
        ∀ i, proofs'.get? i =
          if i ∈ ws then (proofs.get? i).map (· ++ [h]) else proofs.get? i := by
  induction ws with
  | nil => intro proofs _ _; exact ⟨proofs, rfl, fun i => by simp⟩
  | cons w rest ih =>
      intro proofs hnd hsome
      obtain ⟨hw, hrest⟩ := List.nodup_cons.mp hnd
      obtain ⟨p, hp⟩ := Option.isSome_iff_exists.mp (hsome w (List.mem_cons_self ..))
      have hother : ∀ i ∈ rest, ((proofs.set w (p ++ [h])).get? i).isSome := by
        intro i hi
        rw [JsMap.get?_set_ne _ (fun e : i = w => hw (e ▸ hi))]
        exact hsome i (List.mem_cons_of_mem _ hi)
      obtain ⟨proofs', hpush, hget⟩ := ih hrest hother
      refine ⟨proofs', ?_, ?_⟩
      · rw [pushAll, hp]
        exact hpush
      · intro i
        rw [hget i]
        by_cases hi : i = w
        · rw [if_neg (hi ▸ hw), if_pos (hi ▸ List.mem_cons_self ..), hi, JsMap.get?_set_self, hp]
          rfl
        · rw [JsMap.get?_set_ne _ hi]
          simp only [List.mem_cons, hi, false_or]

/-! ## Nodes of the tree over all leaves -/

section Reference

variable (N : Node) (L : List Bytes) (watch : Nat → Bool)

/-- The layer `l` of the tree over all the leaves. -/
def layer (l : Nat) : List Bytes := (MerkleTree.nextLayer N.sha256)^[l] L

theorem layer_succ (l : Nat) :
    layer N L (l + 1) = MerkleTree.nextLayer N.sha256 (layer N L l) :=
  Function.iterate_succ_apply' ..

/-- The node at position `j` of layer `l`: its digest, the watched leaves below it, each once, and the
proof of each as far as this layer. -/
structure Spans (proofs : Proofs) (l j : Nat) (n : PNode) : Prop where
  digest : (layer N L l)[j]? = some n.h
  watched : ∀ i, i ∈ n.watched ↔ watch i = true ∧ i < L.length ∧ i / 2 ^ l = j
  nodup : n.watched.Nodup
  proven : ∀ i ∈ n.watched, proofs.get? i = some (MerkleTree.branch N.sha256 i l L)

variable {N L watch}

theorem Spans.congr {proofs proofs' : Proofs} {l j : Nat} {n : PNode}
    (h : Spans N L watch proofs l j n)
    (hsame : ∀ i, i / 2 ^ l = j → proofs'.get? i = proofs.get? i) : Spans N L watch proofs' l j n :=
  { h with
    proven := fun i hi => by rw [hsame i ((h.watched i).mp hi).2.2, h.proven i hi] }

theorem Spans.isSome {proofs : Proofs} {l j : Nat} {n : PNode} (h : Spans N L watch proofs l j n) :
    ∀ i ∈ n.watched, (proofs.get? i).isSome := by
  intro i hi
  rw [h.proven i hi]
  rfl

/-- What the proof of a leaf becomes one level up. -/
theorem proven_succ {proofs : Proofs} {l j i : Nat} {s : Bytes}
    (hp : proofs.get? i = some (MerkleTree.branch N.sha256 i l L)) (hj : i / 2 ^ l = j)
    (hs : MerkleTree.sibling j (layer N L l) = s) :
    (proofs.get? i).map (· ++ [s]) = some (MerkleTree.branch N.sha256 i (l + 1) L) := by
  rw [hp, MerkleTree.branch_succ, hj, ← hs]
  rfl

theorem div_succ (i l : Nat) : i / 2 ^ (l + 1) = i / 2 ^ l / 2 := by
  rw [Nat.div_div_eq_div_mul, ← pow_succ]

/-- The watched leaves of a join. -/
theorem watched_join (a b : PNode) (h : Bytes) :
    PNode.watched { h, w := joinW a.w b.w } = a.watched ++ b.watched := by
  unfold PNode.watched
  cases a.w <;> cases b.w <;> simp [joinW]

/-- **A join goes one layer up**: over a node and its right neighbour, and only their proofs grow. -/
theorem join_spans {proofs : Proofs} {l j : Nat} {a b : PNode} (heven : j % 2 = 0)
    (ha : Spans N L watch proofs l j a) (hb : Spans N L watch proofs l (j + 1) b) :
    ∃ n proofs', join N a b proofs = .ok (n, proofs') ∧
      Spans N L watch proofs' (l + 1) (j / 2) n ∧
      ∀ i, i / 2 ^ (l + 1) ≠ j / 2 → proofs'.get? i = proofs.get? i := by
  -- the two halves watch different leaves, so the second round of pushes misses the first
  have hapart : ∀ {i}, i ∈ a.watched → i ∉ b.watched := by
    intro i hia hib
    have h1 := ((ha.watched i).mp hia).2.2
    have h2 := ((hb.watched i).mp hib).2.2
    omega
  obtain ⟨mid, hmid, hgetm⟩ := pushAll_spec b.h a.watched ha.nodup ha.isSome
  have hbsome : ∀ i ∈ b.watched, (mid.get? i).isSome := by
    intro i hi
    rw [hgetm, if_neg (fun h => hapart h hi)]
    exact hb.isSome i hi
  obtain ⟨last, hlast, hgetl⟩ := pushAll_spec a.h b.watched hb.nodup hbsome
  have hleft : MerkleTree.sibling j (layer N L l) = b.h := by
    rw [MerkleTree.sibling, if_neg (by omega), List.getD_eq_getElem?_getD, hb.digest]
    rfl
  have hright : MerkleTree.sibling (j + 1) (layer N L l) = a.h := by
    rw [MerkleTree.sibling, if_pos (by omega), Nat.add_sub_cancel, List.getD_eq_getElem?_getD,
      ha.digest]
    rfl
  refine ⟨{ h := h2 N a.h b.h, w := joinW a.w b.w }, last, ?_, ⟨?_, ?_, ?_, ?_⟩, ?_⟩
  · rw [join, hmid, Outcome.ok_bind, hlast]
    rfl
  · have hpos : (layer N L l)[2 * (j / 2)]? = some a.h := by
      rw [← ha.digest]
      congr 1
      omega
    rw [layer_succ, MerkleTree.getElem?_nextLayer _ _ hpos, show 2 * (j / 2) + 1 = j + 1 by omega,
      List.getD_eq_getElem?_getD, hb.digest]
    rfl
  · intro i
    rw [watched_join, List.mem_append, ha.watched, hb.watched, div_succ]
    constructor
    · rintro (⟨h1, h2, h3⟩ | ⟨h1, h2, h3⟩)
      · exact ⟨h1, h2, by omega⟩
      · exact ⟨h1, h2, by omega⟩
    · rintro ⟨h1, h2, h3⟩
      rcases Nat.lt_or_ge (i / 2 ^ l) (j + 1) with h | h
      · exact Or.inl ⟨h1, h2, by omega⟩
      · exact Or.inr ⟨h1, h2, by omega⟩
  · rw [watched_join]
    exact List.Nodup.append ha.nodup hb.nodup fun i hia hib => hapart hia hib
  · intro i hi
    rw [watched_join, List.mem_append] at hi
    rcases hi with hi | hi
    · rw [hgetl, if_neg (hapart hi), hgetm, if_pos hi]
      exact proven_succ (ha.proven i hi) ((ha.watched i).mp hi).2.2 hleft
    · rw [hgetl, if_pos hi, hgetm, if_neg (fun h => hapart h hi)]
      exact proven_succ (hb.proven i hi) ((hb.watched i).mp hi).2.2 hright
  · intro i hi
    rw [div_succ] at hi
    have hia : i ∉ a.watched := fun h => hi (by rw [((ha.watched i).mp h).2.2])
    have hib : i ∉ b.watched := fun h => hi (by have := ((hb.watched i).mp h).2.2; omega)
    rw [hgetl, if_neg hib, hgetm, if_neg hia]

/-- **A node paired with itself goes one layer up** where it is the last of its layer. -/
theorem dup_spans {proofs : Proofs} {l j : Nat} {a : PNode} (heven : j % 2 = 0)
    (hlast : L.length ≤ (j + 1) * 2 ^ l) (ha : Spans N L watch proofs l j a) :
    ∃ n proofs', dup N a proofs = .ok (n, proofs') ∧
      Spans N L watch proofs' (l + 1) (j / 2) n ∧
      ∀ i, i / 2 ^ (l + 1) ≠ j / 2 → proofs'.get? i = proofs.get? i := by
  obtain ⟨last, hpush, hget⟩ := pushAll_spec a.h a.watched ha.nodup ha.isSome
  have hlen : (layer N L l).length ≤ j + 1 := MerkleTree.length_iterate_le L l hlast
  have hnone : (layer N L l)[j + 1]? = none := List.getElem?_eq_none hlen
  have hsib : MerkleTree.sibling j (layer N L l) = a.h := by
    rw [MerkleTree.sibling, if_neg (by omega), List.getD_eq_getElem?_getD, hnone,
      List.getD_eq_getElem?_getD, ha.digest]
    rfl
  refine ⟨{ h := h2 N a.h a.h, w := a.w }, last, ?_, ⟨?_, ?_, ha.nodup, ?_⟩, ?_⟩
  · rw [dup, hpush]
    rfl
  · have hpos : (layer N L l)[2 * (j / 2)]? = some a.h := by
      rw [← ha.digest]
      congr 1
      omega
    rw [layer_succ, MerkleTree.getElem?_nextLayer _ _ hpos, show 2 * (j / 2) + 1 = j + 1 by omega,
      List.getD_eq_getElem?_getD, hnone]
    rfl
  · intro i
    have hi := ha.watched i
    refine hi.trans ⟨fun ⟨h1, h2, h3⟩ => ⟨h1, h2, ?_⟩, fun ⟨h1, h2, h3⟩ => ⟨h1, h2, ?_⟩⟩
    · rw [div_succ, h3]
    · rw [div_succ] at h3
      -- nothing lies right of the last node
      have hle : i / 2 ^ l < j + 1 := (Nat.div_lt_iff_lt_mul (by positivity)).mpr (by omega)
      omega
  · intro i hi
    have hi : i ∈ a.watched := hi
    rw [hget, if_pos hi]
    exact proven_succ (ha.proven i hi) ((ha.watched i).mp hi).2.2 hsib
  · intro i hi
    rw [div_succ] at hi
    rw [hget, if_neg fun h => hi (by rw [((ha.watched i).mp h).2.2])]

end Reference

/-! ## The counter -/

section Counter

variable (N : Node) (L : List Bytes) (watch : Nat → Bool)

/-- The slots from level `l` up once `c` whole blocks of that level are in: the bits of `c`, an
occupied slot holding the last whole block of its level. -/
def Counter (proofs : Proofs) : (l c : Nat) → List (Option PNode) → Prop
  | _, c, [] => c = 0
  | l, c, none :: rest => c % 2 = 0 ∧ Counter proofs (l + 1) (c / 2) rest
  | l, c, some n :: rest =>
      c % 2 = 1 ∧ Spans N L watch proofs l (c - 1) n ∧ Counter proofs (l + 1) (c / 2) rest

/-- What closing carries into level `l`: nothing where the leaves fill `c` blocks, else the node over
those past the last whole one. -/
def Edge (proofs : Proofs) (l c : Nat) : Option PNode → Prop
  | none => L.length = c * 2 ^ l
  | some n => Spans N L watch proofs l c n ∧ c * 2 ^ l < L.length ∧ L.length ≤ (c + 1) * 2 ^ l ∧
      2 ^ l < 2 * L.length

/-- The open tree after the first `k` leaves. -/
structure Fed (k : Nat) (t : StreamMerkle) : Prop where
  opened : t.done = none
  count : t.count = k
  slots : Counter N L watch t.proofs 0 k t.pending

variable {N L watch}

/-- Slots only look at the proofs of leaves that are in. -/
theorem Counter.congr {pending : List (Option PNode)} :
    ∀ {proofs proofs' : Proofs} {l c : Nat}, Counter N L watch proofs l c pending →
      (∀ i, i / 2 ^ l < c → proofs'.get? i = proofs.get? i) →
        Counter N L watch proofs' l c pending := by
  induction pending with
  | nil => intro _ _ _ _ h _; exact h
  | cons slot rest ih =>
      intro proofs proofs' l c h hsame
      have hup : ∀ i, i / 2 ^ (l + 1) < c / 2 → proofs'.get? i = proofs.get? i := by
        intro i hi
        apply hsame
        rw [div_succ] at hi
        omega
      cases slot with
      | none => exact ⟨h.1, ih h.2 hup⟩
      | some n =>
          obtain ⟨hodd, hn, hrest⟩ := h
          refine ⟨hodd, hn.congr fun i hi => ?_, ih hrest hup⟩
          apply hsame
          omega

theorem Counter.any {pending : List (Option PNode)} :
    ∀ {proofs : Proofs} {l c : Nat}, Counter N L watch proofs l c pending →
      (pending.any Option.isSome = true ↔ c ≠ 0) := by
  induction pending with
  | nil => intro _ _ c h; rw [show c = 0 from h]; decide
  | cons slot rest ih =>
      intro proofs l c h
      cases slot with
      | none =>
          obtain ⟨heven, hrest⟩ := h
          rw [List.any_cons, Option.isSome_none, Bool.false_or, ih hrest]
          omega
      | some n =>
          rw [List.any_cons, Option.isSome_some, Bool.true_or]
          have hodd := h.1
          exact ⟨fun _ => by omega, fun _ => rfl⟩

/-- **A carry counts one more block**: the loop of `add`, from any level. -/
theorem Counter.carry {pending : List (Option PNode)} :
    ∀ {proofs : Proofs} {l c : Nat} {node : PNode}, Counter N L watch proofs l c pending →
      Spans N L watch proofs l c node →
        ∃ pending' proofs', carryUp N node pending proofs = .ok (pending', proofs') ∧
          Counter N L watch proofs' l (c + 1) pending' := by
  induction pending with
  | nil =>
      intro proofs l c node h hnode
      obtain rfl : c = 0 := h
      exact ⟨_, _, rfl, rfl, hnode, rfl⟩
  | cons slot rest ih =>
      intro proofs l c node h hnode
      cases slot with
      | none =>
          obtain ⟨heven, hrest⟩ := h
          refine ⟨_, _, rfl, by omega, hnode, ?_⟩
          rw [show (c + 1) / 2 = c / 2 by omega]
          exact hrest
      | some p =>
          obtain ⟨hodd, hp, hrest⟩ := h
          obtain ⟨n, mid, hjoin, hn, hother⟩ := join_spans (j := c - 1) (by omega) hp
            (by rw [Nat.sub_add_cancel (by omega)]; exact hnode)
          rw [show (c - 1) / 2 = c / 2 by omega] at hn hother
          obtain ⟨pending', proofs', hup, hcounter⟩ :=
            ih (hrest.congr fun i hi => hother i (by omega)) hn
          refine ⟨none :: pending', proofs', ?_, by omega, ?_⟩
          · rw [carryUp, hjoin, Outcome.ok_bind]
            simp only [hup, Outcome.ok_bind]
            rfl
          · rw [show (c + 1) / 2 = c / 2 + 1 by omega]
            exact hcounter

/-- The layer at which closing stops is the top one. -/
theorem clog_eq {n l : Nat} (hle : n ≤ 2 ^ l) (hlt : 2 ^ l < 2 * n) : Nat.clog 2 n = l := by
  apply le_antisymm (Nat.clog_le_of_le_pow hle)
  by_contra hcon
  have hpow : n ≤ 2 ^ (l - 1) :=
    (Nat.le_pow_clog (by omega) n).trans (Nat.pow_le_pow_right (by omega) (by omega))
  have hdouble : 2 * 2 ^ (l - 1) = 2 ^ l := by
    rw [← pow_succ', Nat.sub_add_cancel (by omega)]
  omega

/-- A level is carried out of where the leaves do not all fit into one of its blocks. -/
theorem edge_up {proofs : Proofs} {l d : Nat} {n : PNode}
    (hn : Spans N L watch proofs (l + 1) d n) (hlow : 2 * d * 2 ^ l < L.length)
    (hhigh : L.length ≤ (2 * d + 2) * 2 ^ l) (hmore : 2 ^ l < L.length) :
    Edge N L watch proofs (l + 1) d (some n) := by
  have hpow : 2 ^ (l + 1) = 2 * 2 ^ l := pow_succ' 2 l
  refine ⟨hn, ?_, ?_, by omega⟩
  · calc d * 2 ^ (l + 1) = 2 * d * 2 ^ l := by rw [hpow]; ring
      _ < L.length := hlow
  · calc L.length ≤ (2 * d + 2) * 2 ^ l := hhigh
      _ = (d + 1) * 2 ^ (l + 1) := by rw [hpow]; ring

/-- **Closing ends at the top**: what is left is the root, with the proof of every watched leaf. -/
theorem Counter.close (hne : L ≠ []) {pending : List (Option PNode)} :
    ∀ {proofs : Proofs} {l c : Nat} {carry : Option PNode}, Counter N L watch proofs l c pending →
      Edge N L watch proofs l c carry →
        ∃ n proofs', Stream.close N pending carry proofs = .ok (some n, proofs') ∧
          Spans N L watch proofs' (Nat.clog 2 L.length) 0 n := by
  have hpos : 0 < L.length := List.length_pos_iff.mpr hne
  induction pending with
  | nil =>
      intro proofs l c carry h hedge
      obtain rfl : c = 0 := h
      cases carry with
      | none =>
          have hempty : L.length = 0 * 2 ^ l := hedge
          omega
      | some q =>
          obtain ⟨hq, -, hle, hlt⟩ := hedge
          refine ⟨q, proofs, rfl, ?_⟩
          rw [clog_eq (by omega) hlt]
          exact hq
  | cons slot rest ih =>
      intro proofs l c carry h hedge
      have hpow : 2 ^ (l + 1) = 2 * 2 ^ l := pow_succ' 2 l
      cases slot with
      | none =>
          obtain ⟨heven, hrest⟩ := h
          obtain ⟨d, rfl⟩ : ∃ d, c = 2 * d := ⟨c / 2, by omega⟩
          rw [Nat.mul_div_cancel_left d (by omega)] at hrest
          have hc : 2 * d * 2 ^ l = d * 2 ^ (l + 1) := by rw [hpow]; ring
          cases carry with
          | none =>
              have hfull : L.length = 2 * d * 2 ^ l := hedge
              rw [Stream.close]
              simp only [Option.isSome_none, Bool.and_false, Bool.false_eq_true, if_false]
              exact ih hrest (hfull.trans hc)
          | some q =>
              obtain ⟨hq, hlow, hhigh, hlt⟩ := hedge
              by_cases hd : d = 0
              · -- nothing above: the carry is the only node of its layer
                have habove : rest.any Option.isSome = false :=
                  Bool.eq_false_iff.mpr fun h => (Counter.any hrest).mp h hd
                refine ⟨q, proofs, ?_, ?_⟩
                · rw [Stream.close, habove]
                  rfl
                · subst hd
                  rw [clog_eq (by omega) hlt]
                  exact hq
              · have habove : rest.any Option.isSome = true := (Counter.any hrest).mpr hd
                obtain ⟨n, mid, hdup, hn, hother⟩ := dup_spans heven hhigh hq
                rw [Nat.mul_div_cancel_left d (by omega)] at hn hother
                have hmore : 2 ^ l < L.length :=
                  lt_of_le_of_lt (Nat.le_mul_of_pos_left _ (by omega)) hlow
                have hhigh' : L.length ≤ (2 * d + 2) * 2 ^ l :=
                  hhigh.trans (Nat.mul_le_mul_right _ (by omega))
                obtain ⟨top, proofs', hclose, htop⟩ :=
                  ih (hrest.congr fun i hi => hother i (by omega)) (edge_up hn hlow hhigh' hmore)
                refine ⟨top, proofs', ?_, htop⟩
                rw [Stream.close, habove]
                simp only [Bool.not_true, Bool.false_and, Bool.false_eq_true, if_false, hdup,
                  Outcome.ok_bind]
                exact hclose
      | some p =>
          obtain ⟨hodd, hp, hrest⟩ := h
          obtain ⟨d, rfl⟩ : ∃ d, c = 2 * d + 1 := ⟨c / 2, by omega⟩
          rw [show (2 * d + 1) / 2 = d by omega] at hrest
          rw [Nat.add_sub_cancel] at hp
          have hone : (2 * d + 1) * 2 ^ l = 2 * d * 2 ^ l + 2 ^ l := by ring
          have htwo : (2 * d + 2) * 2 ^ l = 2 * d * 2 ^ l + 2 ^ l + 2 ^ l := by ring
          have hunit : 0 < 2 ^ l := Nat.two_pow_pos l
          cases carry with
          | none =>
              have hfull : L.length = (2 * d + 1) * 2 ^ l := hedge
              by_cases hd : d = 0
              · -- a full tree: its only node
                have habove : rest.any Option.isSome = false :=
                  Bool.eq_false_iff.mpr fun h => (Counter.any hrest).mp h hd
                refine ⟨p, proofs, ?_, ?_⟩
                · rw [Stream.close, habove]
                  rfl
                · subst hd
                  rw [clog_eq (l := l) (by omega) (by omega)]
                  exact hp
              · have habove : rest.any Option.isSome = true := (Counter.any hrest).mpr hd
                obtain ⟨n, mid, hdup, hn, hother⟩ := dup_spans (by omega) hfull.le hp
                rw [Nat.mul_div_cancel_left d (by omega)] at hn hother
                have hmore : 2 ^ l ≤ 2 * d * 2 ^ l := Nat.le_mul_of_pos_left _ (by omega)
                obtain ⟨top, proofs', hclose, htop⟩ :=
                  ih (hrest.congr fun i hi => hother i (by omega))
                    (edge_up hn (by omega) (by omega) (by omega))
                refine ⟨top, proofs', ?_, htop⟩
                rw [Stream.close, habove]
                simp only [Bool.not_true, Bool.false_and, Bool.false_eq_true, if_false, hdup,
                  Outcome.ok_bind]
                exact hclose
          | some q =>
              obtain ⟨hq, hlow, hhigh, -⟩ := hedge
              obtain ⟨n, mid, hjoin, hn, hother⟩ := join_spans (by omega) hp hq
              rw [Nat.mul_div_cancel_left d (by omega)] at hn hother
              obtain ⟨top, proofs', hclose, htop⟩ :=
                ih (hrest.congr fun i hi => hother i (by omega))
                  (edge_up hn (by omega) hhigh (by omega))
              refine ⟨top, proofs', ?_, htop⟩
              rw [Stream.close]
              simp only [Option.isSome_some, Option.isNone_some, if_true, Bool.and_false,
                Bool.false_eq_true, if_false, hjoin, Outcome.ok_bind]
              exact hclose

/-! ## Leaf by leaf -/

theorem Fed.add {t : StreamMerkle} {k : Nat} {leaf : Bytes} (h : Fed N L watch k t)
    (hk : L[k]? = some leaf) (h32 : leaf.length = 32) :
    ∃ t', t.add N leaf (watch k) = .ok (k, t') ∧ Fed N L watch (k + 1) t' := by
  obtain ⟨hopen, hcount, hslots⟩ := h
  have hlt : k < L.length := (List.getElem?_eq_some_iff.mp hk).1
  have hset : ∀ i, i ≠ k →
      (if watch k then t.proofs.set k [] else t.proofs).get? i = t.proofs.get? i := by
    intro i hi
    split
    · exact JsMap.get?_set_ne _ hi _
    · rfl
  have hnode : Spans N L watch (if watch k then t.proofs.set k [] else t.proofs) 0 k
      { h := leaf, w := if watch k then some [k] else none } := by
    cases hw : watch k with
    | true =>
        refine ⟨hk, fun i => ?_, List.nodup_singleton k, fun i hi => ?_⟩
        · show i ∈ [k] ↔ _
          rw [List.mem_singleton, pow_zero, Nat.div_one]
          exact ⟨fun h => ⟨h ▸ hw, h ▸ hlt, h⟩, fun h => h.2.2⟩
        · obtain rfl : i = k := List.mem_singleton.mp hi
          exact JsMap.get?_set_self ..
    | false =>
        refine ⟨hk, fun i => ?_, List.nodup_nil, fun i hi => absurd hi List.not_mem_nil⟩
        show i ∈ [] ↔ _
        rw [pow_zero, Nat.div_one]
        refine ⟨fun h => absurd h List.not_mem_nil, fun ⟨h, _, hik⟩ => ?_⟩
        rw [hik, hw] at h
        cases h
  obtain ⟨pending, proofs, hup, hcounter⟩ := Counter.carry
    (hslots.congr fun i hi => hset i (by rw [pow_zero, Nat.div_one] at hi; omega)) hnode
  refine ⟨{ t with pending, count := k + 1, proofs }, ?_, ⟨hopen, rfl, hcounter⟩⟩
  rw [StreamMerkle.add, hopen, hcount, if_neg (by simp), if_neg (not_not.mpr h32)]
  show (carryUp N _ t.pending _ >>= _) = _
  rw [hup]
  rfl

theorem fed_new : Fed N L watch 0 StreamMerkle.new := ⟨rfl, rfl, rfl⟩

theorem Fed.feed (h32 : ∀ leaf ∈ L, leaf.length = 32) {rest : List Bytes} :
    ∀ {t : StreamMerkle} {k : Nat}, Fed N L watch k t → L.drop k = rest →
      ∃ t', feed N watch rest t = .ok t' ∧ Fed N L watch (k + rest.length) t' := by
  induction rest with
  | nil => intro t k h _; exact ⟨t, rfl, h⟩
  | cons leaf rest ih =>
      intro t k h hdrop
      have hk : L[k]? = some leaf := by
        rw [← List.head?_drop, hdrop]
        rfl
      obtain ⟨t₁, hadd, h₁⟩ := h.add hk (h32 leaf (List.mem_of_getElem? hk))
      have hdrop₁ : L.drop (k + 1) = rest := by
        rw [← List.tail_drop, hdrop]
        rfl
      obtain ⟨t', hfeed, h'⟩ := ih h₁ hdrop₁
      refine ⟨t', ?_, ?_⟩
      · rw [Stream.feed, h.count, hadd]
        exact hfeed
      · rw [List.length_cons, Nat.add_comm rest.length, ← Nat.add_assoc]
        exact h'

/-- The closed tree has the root of the reference, and the proof of every watched leaf. -/
theorem Fed.root {t : StreamMerkle} (hne : L ≠ []) (h : Fed N L watch L.length t) :
    ∃ top closed, t.root N = .ok (top, closed) ∧
      (layer N L (Nat.clog 2 L.length))[0]? = some top ∧ closed.done = some top ∧
        ∀ i < L.length, watch i = true →
          closed.proofs.get? i = some (MerkleTree.branch N.sha256 i (Nat.clog 2 L.length) L) := by
  obtain ⟨hopen, hcount, hslots⟩ := h
  have hedge : Edge N L watch t.proofs 0 L.length none := by
    show L.length = L.length * 2 ^ 0
    rw [pow_zero, mul_one]
  obtain ⟨n, proofs, hclose, hn⟩ := hslots.close hne hedge
  refine ⟨n.h, { t with proofs, done := some n.h }, ?_, hn.digest, rfl, fun i hi hw => ?_⟩
  · rw [StreamMerkle.root, hopen, hcount]
    simp only [List.length_eq_zero_iff, hne, if_false, hclose]
    rfl
  · apply hn.proven
    apply (hn.watched i).mpr
    refine ⟨hw, hi, Nat.div_eq_of_lt ?_⟩
    exact lt_of_lt_of_le hi (Nat.le_pow_clog (by omega) _)

end Counter

/-- **The streaming tree and the plain one are the same**: fed any leaves in order, with any of them
watched, the streaming tree closes on the root of `buildTree` and proves each watched leaf as it does. -/
theorem stream_eq_buildTree (N : Node) (leaves : List Bytes) (watch : Nat → Bool)
    (hne : leaves ≠ []) (h32 : ∀ leaf ∈ leaves, leaf.length = 32) :
    ∃ t root closed tree, feed N watch leaves StreamMerkle.new = .ok t ∧
      t.root N = .ok (root, closed) ∧ Merkle.buildTree N (leaves.map Hex.encode) = .ok tree ∧
        Hex.encode root = tree.root ∧
        ∀ i < leaves.length, watch i = true →
          closed.proof i = .ok (some (Merkle.proof tree i)) := by
  obtain ⟨t, hfeed, hfed⟩ := @Fed.feed N leaves watch h32 _ _ _ fed_new (List.drop_zero ..)
  rw [Nat.zero_add] at hfed
  obtain ⟨top, closed, hroot, hlayer, hdone, hproofs⟩ := hfed.root hne
  obtain ⟨tree, root, htree, hlast, hhex, hproof⟩ := Merkle.buildTree_eq N hne
  have htop : root = top := by
    rw [layer, hlast] at hlayer
    exact Option.some.inj hlayer
  refine ⟨t, top, closed, tree, hfeed, hroot, htree, ?_, fun i hi hw => ?_⟩
  · rw [hhex, htop]
  · rw [StreamMerkle.proof, hdone, hproofs i hi hw, hproof]
    rfl

/-- Five leaves, the second and the last watched: the right edge is paired with itself twice. -/
def sampleLeaves : List Bytes := [1, 2, 3, 4, 5].map (List.replicate 32)

theorem stream_eq_buildTree_sample :
    ∃ t root closed tree, feed sampleNode (fun i => i % 3 == 1) sampleLeaves StreamMerkle.new = .ok t ∧
      t.root sampleNode = .ok (root, closed) ∧
        Merkle.buildTree sampleNode (sampleLeaves.map Hex.encode) = .ok tree ∧
        Hex.encode root = tree.root ∧
        ∀ i < sampleLeaves.length, (i % 3 == 1) = true →
          closed.proof i = .ok (some (Merkle.proof tree i)) :=
  stream_eq_buildTree sampleNode sampleLeaves _ (by decide) (by decide)

end Stream

end DtnCustody
