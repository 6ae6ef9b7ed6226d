/-
# DtnCustody.Transport.BundleShape — which decoded bundles are well formed in the sense of RFC 9171.

`Rfc9171` is the shape the codec aims at: one payload block, the last; distinct block numbers; and
for every block of the wire either CRC type 0 and no CRC field, or CRC type 1 or 2 and the CRC of
the block's bytes with the field zeroed. `decodeBundle_rfc9171` says exactly which accepted bundles
have it: a CRC type other than these has length 0 in `crcLen`, so an empty field passes for it; only
the last block is asked whether it is the payload; and two numbers that are not scalars are two
different members of a `Set`.
-/
import DtnCustody.Cbor.Consume
import DtnCustody.Transport.Cose
import DtnCustody.Transport.Bundle

namespace DtnCustody

open Base Js

namespace Bundle

/-! ## The blocks of the wire -/

/-- The items of the outer array, each with its bytes. -/
def items (buf : Bytes) : List (Cbor × Bytes) :=
  match decodeRaws buf.length buf.tail with
  | .ok (raws, _) => raws
  | .error _ => []

def field (v : Cbor) (i : Nat) : JsVal :=
  match v with
  | .array xs => xs[i]?
  | _ => none

variable (N : Node)

/-- Where the CRC field of a primary block stands, behind the fragment fields if it has them. -/
def primaryCrcIndex (v : Cbor) : Nat :=
  match fragmentBit N (field v 1) with
  | .ok 0 => 8
  | _ => 10

/-- **A CRC type with its CRC**: none for type 0, and for types 1 and 2 the last bytes of the block,
which are the CRC of the block with these bytes zeroed. -/
def CrcGood (raw : Bytes) (type value : JsVal) : Prop :=
  (type = some (.int 0) ∧ value = none) ∨
    ∃ front crc, raw = front ++ crc ∧ value = some (.bytes crc) ∧
      ((type = some (.int 1) ∧ crc = beBytes 2 (crc16x25 (front ++ [0, 0])).toNat) ∨
        (type = some (.int 2) ∧ crc = beBytes 4 (crc32c (front ++ [0, 0, 0, 0])).toNat))

structure Rfc9171 (buf : Bytes) (b : Bundle) : Prop where
  payload : ∃ front x, b.blocks = front ++ [x] ∧ x.type = payloadType ∧
    ∀ y ∈ front, y.type ≠ payloadType
  numbers : b.blocks.Pairwise fun x y => x.number ≠ y.number
  crcs : ∃ primary blocks, items buf = primary :: blocks ∧
    CrcGood primary.2 (field primary.1 2) (field primary.1 (primaryCrcIndex N primary.1)) ∧
    ∀ p ∈ blocks, CrcGood p.2 (field p.1 3) (field p.1 5)

/-! ## The condition on the wire -/

def KnownCrcType (t : JsVal) : Prop := t = some (.int 0) ∨ t = some (.int 1) ∨ t = some (.int 2)

/-- A value that a `Set` compares by what it is. -/
def Scalar (v : Cbor) : Prop := Cbor.sameKey v v = true

/-- **What a bundle on the wire must satisfy besides**: its CRC types are known, no block before the
last is of the payload type, and no two blocks have the same number that is not a scalar. -/
structure Regular (buf : Bytes) : Prop where
  primaryCrc : ∀ p ∈ (items buf).head?, KnownCrcType (field p.1 2)
  blockCrcs : ∀ p ∈ (items buf).tail, KnownCrcType (field p.1 3)
  onePayload : ∀ p ∈ (items buf).tail.dropLast, field p.1 0 ≠ some payloadType
  numbers : (items buf).tail.Pairwise fun p q =>
    ∀ v, field p.1 1 = some v → field q.1 1 = some v → Scalar v

/-! ## What a decoder that accepts has checked -/

theorem KnownCrcType.of_good {raw : Bytes} {t v : JsVal} (h : CrcGood raw t v) : KnownCrcType t := by
  rcases h with ⟨ht, _⟩ | ⟨_, _, _, _, ⟨ht, _⟩ | ⟨ht, _⟩⟩
  · exact Or.inl ht
  · exact Or.inr (Or.inl ht)
  · exact Or.inr (Or.inr ht)

/-- A checked CRC of a known type is good, when the bytes it is the last of end the block. -/
theorem crcGood_of_check {raw : Bytes} {t v : JsVal} (ht : KnownCrcType t)
    (hnone : t = some (.int 0) → v = none)
    (hlast : ∀ crc, v = some (.bytes crc) → ∃ front, raw = front ++ crc)
    (hcheck : checkCrc raw t v = true) : CrcGood raw t v := by
  have wide : ∀ {z : Int} {w : Nat} {f : Bytes → Bytes}, t = some (.int z) → z ≠ 0 →
      crcLen t = w → (∀ data, crcBytes t data = f data) →
      ∃ front crc, raw = front ++ crc ∧ v = some (.bytes crc) ∧
        crc = f (front ++ List.replicate w 0) := by
    intro z w f htz hz hw hf
    have hskip : t.isInt 0 = false := by
      rw [htz]
      simpa [JsVal.isInt] using hz
    unfold checkCrc at hcheck
    rw [hskip] at hcheck
    simp only [Bool.false_eq_true, if_false] at hcheck
    split at hcheck
    · rename_i crc
      obtain ⟨front, rfl⟩ := hlast crc rfl
      rw [Bool.and_eq_true, beq_iff_eq, beq_iff_eq, hw, hf] at hcheck
      obtain ⟨hlen, hcrc⟩ := hcheck
      have htake : (front ++ crc).take ((front ++ crc).length - w) = front := by
        rw [List.length_append, hlen, Nat.add_sub_cancel, List.take_left]
      rw [htake] at hcrc
      exact ⟨front, crc, rfl, rfl, hcrc.symm⟩
    · cases hcheck
  rcases ht with ht | ht | ht
  · exact Or.inl ⟨ht, hnone ht⟩
  · obtain ⟨front, crc, hraw, hv, hcrc⟩ := @wide 1 2 (fun d => beBytes 2 (crc16x25 d).toNat) ht
      (by decide) (by rw [ht]; rfl) (by intro d; rw [ht]; rfl)
    exact Or.inr ⟨front, crc, hraw, hv, Or.inl ⟨ht, hcrc⟩⟩
  · obtain ⟨front, crc, hraw, hv, hcrc⟩ := @wide 2 4 (fun d => beBytes 4 (crc32c d).toNat) ht
      (by decide) (by rw [ht]; rfl) (by intro d; rw [ht]; rfl)
    exact Or.inr ⟨front, crc, hraw, hv, Or.inr ⟨ht, hcrc⟩⟩

/-- An item with the bytes it was read from. -/
def ReadFrom (p : Cbor × Bytes) : Prop :=
  ∃ rest, Cbor.decodeAt Cbor.maxLevels (p.2 ++ rest) = .ok (p.1, rest)

theorem decodeRaws_readFrom {fuel : Nat} {bs rest : Bytes} {raws : List (Cbor × Bytes)}
    (h : decodeRaws fuel bs = .ok (raws, rest)) : ∀ p ∈ raws, ReadFrom p := by
  intro p hp
  obtain ⟨_, r, _, hread⟩ := decodeRaws_item h p hp
  exact ⟨r, hread⟩

/-- The last byte string of an item that is an array ends its bytes. -/
theorem ReadFrom.last {raw c : Bytes} {xs : List Cbor} (h : ReadFrom (.array xs, raw))
    (hlast : xs.getLast? = some (.bytes c)) : ∃ front, raw = front ++ c := by
  obtain ⟨rest, h⟩ := h
  obtain ⟨front, hfront⟩ := Cbor.decodeAt_array_last h hlast
  refine ⟨front, @List.append_cancel_right _ _ rest _ ?_⟩
  rw [hfront, List.append_assoc]

/-! ## Blocks -/

/-- What `decodeBlock` checked of an item, and the block it made. -/
structure BlockOf (p : Cbor × Bytes) (b : Block) : Prop where
  type : field p.1 0 = some b.type
  number : field p.1 1 = some b.number
  crcType : field p.1 3 = some b.crcType
  crc : KnownCrcType (some b.crcType) → CrcGood p.2 (field p.1 3) (field p.1 5)

theorem decodeBlock_blockOf {i : Nat} {v : Cbor} {raw : Bytes} {b : Block} (hread : ReadFrom (v, raw))
    (h : decodeBlock i v raw = .ok b) : BlockOf (v, raw) b := by
  obtain ⟨more, hparts⟩ := decodeBlock_parts h
  have hvalue := hparts.value
  subst hvalue
  refine ⟨rfl, rfl, rfl, fun hknown => ?_⟩
  have hlen := hparts.length
  have hfield : field (.array ([b.type, b.number, b.flags, b.crcType, .bytes b.data] ++ more)) 5
      = more[0]? := rfl
  rw [hfield]
  refine crcGood_of_check hknown ?_ ?_ hparts.check
  · intro hzero
    rw [Option.some.inj hzero] at hlen
    have hnone : more.length = 0 := by
      have hfalsy : Cbor.truthy (.int 0) = false := rfl
      rw [hfalsy] at hlen
      simpa using hlen.symm
    exact List.getElem?_eq_none (le_of_eq hnone)
  · intro crc hvalue
    refine hread.last ?_
    have hone : more = [.bytes crc] := by
      have hle : more.length ≤ 1 := by split at hlen <;> omega
      cases more with
      | nil => cases hvalue
      | cons c more =>
          cases hvalue
          rw [List.length_cons] at hle
          rw [List.length_eq_zero_iff.mp (by omega : more.length = 0)]
    rw [hone]
    rfl

theorem decodeBlocks_forall₂ {raws : List (Cbor × Bytes)} :
    ∀ {i : Nat} {bs : List Block}, (∀ p ∈ raws, ReadFrom p) → decodeBlocks i raws = .ok bs →
      List.Forall₂ BlockOf raws bs := by
  induction raws with
  | nil => intro i bs _ h; cases h; exact .nil
  | cons p raws ih =>
      intro i bs hread h
      rw [List.forall_mem_cons] at hread
      obtain ⟨b, hb, h⟩ := Outcome.bind_eq_ok.mp h
      obtain ⟨rest, hrest, h⟩ := Outcome.bind_eq_ok.mp h
      cases h
      exact .cons (decodeBlock_blockOf hread.1 hb) (ih hread.2 hrest)

theorem fragmentBit_cases {flags : JsVal} {frag : Nat} (h : fragmentBit N flags = .ok frag) :
    frag = 0 ∨ frag = 1 := by
  obtain ⟨x, _, h⟩ := Outcome.bind_eq_ok.mp h
  cases h
  have := Nat.and_one_is_mod x.toUint32
  omega

/-- What `decodePrimary` checked of an item. -/
theorem decodePrimary_crc {v : Cbor} {raw : Bytes} {p : Primary} (hread : ReadFrom (v, raw))
    (h : decodePrimary N raw v = .ok p) (hknown : KnownCrcType (field v 2)) :
    CrcGood raw (field v 2) (field v (primaryCrcIndex N v)) := by
  unfold decodePrimary at h
  split at h
  · rename_i pv
    split at h
    · cases h
    · obtain ⟨frag, hfrag, h⟩ := Outcome.bind_eq_ok.mp h
      split at h
      · cases h
      · rename_i hlen
        split at h
        · cases h
        · rename_i hcrc
          have hcheck : checkCrc raw pv[2]? pv[pv.length - 1]? = true := by simpa using hcrc
          have hindex : primaryCrcIndex N (.array pv) = 8 + (if frag = 0 then 0 else 2) := by
            unfold primaryCrcIndex field
            rw [hfrag]
            rcases fragmentBit_cases N hfrag with rfl | rfl <;> rfl
          have hlen' : pv.length = primaryCrcIndex N (.array pv) +
              (if JsVal.truthy pv[2]? then 1 else 0) := by
            rw [hindex]
            exact not_not.mp hlen
          show CrcGood raw pv[2]? pv[primaryCrcIndex N (.array pv)]?
          by_cases hzero : pv[2]? = some (.int 0)
          · refine Or.inl ⟨hzero, List.getElem?_eq_none ?_⟩
            rw [hzero] at hlen'
            exact le_of_eq hlen'
          · have htruthy : JsVal.truthy pv[2]? = true := by
              rcases hknown with h0 | h1 | h2
              · exact absurd h0 hzero
              · rw [show pv[2]? = _ from h1]; rfl
              · rw [show pv[2]? = _ from h2]; rfl
            rw [htruthy, if_pos rfl] at hlen'
            have hat : pv.length - 1 = primaryCrcIndex N (.array pv) := by omega
            rw [hat] at hcheck
            refine crcGood_of_check hknown (fun h0 => absurd h0 hzero) ?_ hcheck
            intro crc hvalue
            refine hread.last ?_
            rw [List.getLast?_eq_getElem?, hat, hvalue]
  · cases h

/-! ## Numbers -/

theorem sameKey_self_of_scalar {v w : Cbor} (hv : Scalar v) (h : v = w) : Cbor.sameKey v w = true :=
  h ▸ hv

/-- What the `Set` of block numbers checked. -/
theorem checkNumbers_ok {bs : List Block} :
    ∀ {seen : List Cbor}, checkNumbers seen bs = .ok () →
      (∀ b ∈ bs, ∀ v ∈ seen, Cbor.sameKey v b.number = false) ∧
        bs.Pairwise fun x y => Cbor.sameKey x.number y.number = false := by
  induction bs with
  | nil => intro seen _; exact ⟨fun b hb => (List.not_mem_nil hb).elim, List.Pairwise.nil⟩
  | cons b bs ih =>
      intro seen h
      rw [checkNumbers] at h
      split at h
      · cases h
      · rename_i hseen
        obtain ⟨hold, hpair⟩ := ih h
        have hb : ∀ v ∈ seen, Cbor.sameKey v b.number = false := by
          intro v hv
          simpa using fun hs => hseen (List.any_eq_true.mpr ⟨v, hv, hs⟩)
        refine ⟨?_, List.pairwise_cons.mpr ⟨?_, hpair⟩⟩
        · intro c hc v hv
          rcases List.mem_cons.mp hc with rfl | hc
          · exact hb v hv
          · exact hold c hc v (List.mem_append_left _ hv)
        · intro c hc
          exact hold c hc b.number (List.mem_append_right _ (List.mem_singleton.mpr rfl))

/-- A block put in before the last one keeps the numbers apart, if its own is free. -/
theorem pairwise_insert {front : List Block} {x payload : Block}
    (h : (front ++ [payload]).Pairwise fun x y => x.number ≠ y.number)
    (hfree : ∀ y ∈ front ++ [payload], y.number ≠ x.number) :
    (front ++ [x, payload]).Pairwise fun x y => x.number ≠ y.number := by
  rw [List.pairwise_append] at h ⊢
  refine ⟨h.1, ?_, ?_⟩
  · rw [List.pairwise_pair]
    exact (hfree payload (by simp)).symm
  · intro y hy z hz
    simp only [List.mem_cons, List.not_mem_nil, or_false] at hz
    rcases hz with rfl | rfl
    · exact hfree y (List.mem_append_left _ hy)
    · exact h.2.2 y hy _ (by simp)

/-! ## The bundle -/

/-- What `decodeBundle` put together, and from what. -/
structure PartsOf (buf : Bytes) (b : Bundle) (p : Cbor × Bytes) (rest : List (Cbor × Bytes)) :
    Prop where
  items : items buf = p :: rest
  readFrom : ∀ q ∈ p :: rest, ReadFrom q
  primary : decodePrimary N p.2 p.1 = .ok b.primary
  blocks : decodeBlocks 0 rest = .ok b.blocks
  last : b.blocks.getLast?.map Block.type = some payloadType
  numbers : checkNumbers [] b.blocks = .ok ()

theorem decodeBundle_parts {buf : Bytes} {b : Bundle} (h : decodeBundle N buf = .ok b) :
    ∃ p rest, PartsOf N buf b p rest := by
  obtain ⟨bs, p, rest, rfl, hraws, hprimary, hblocks, hlast, hnumbers⟩ := decodeBundle_ok h
  have hitems : Bundle.items (0x9f :: bs) = p :: rest := by
    show (match decodeRaws (bs.length + 1) bs with
      | .ok (raws, _) => raws
      | .error _ => []) = p :: rest
    rw [hraws]
  exact ⟨p, rest, hitems, decodeRaws_readFrom hraws, hprimary, hblocks, hlast, hnumbers⟩

variable {N} {buf : Bytes} {b : Bundle} {p : Cbor × Bytes} {rest : List (Cbor × Bytes)}

/-- The last block is the payload. -/
theorem PartsOf.split (h : PartsOf N buf b p rest) :
    ∃ front x, b.blocks = front ++ [x] ∧ x.type = payloadType := by
  obtain ⟨x, hx, htype⟩ := Option.map_eq_some_iff.mp h.last
  obtain ⟨front, hfront⟩ := List.getLast?_eq_some_iff.mp hx
  exact ⟨front, x, hfront, htype⟩

theorem PartsOf.blockOf (h : PartsOf N buf b p rest) : List.Forall₂ BlockOf rest b.blocks :=
  decodeBlocks_forall₂ (fun q hq => h.readFrom q (List.mem_cons_of_mem _ hq)) h.blocks

/-- Items and blocks stand in the same order, so a relation between two items is one between their
blocks. -/
theorem pairwise_blockOf {R : Cbor × Bytes → Cbor × Bytes → Prop} {S : Block → Block → Prop}
    {ps : List (Cbor × Bytes)} {bs : List Block} (h : List.Forall₂ BlockOf ps bs)
    (hRS : ∀ {p q x y}, BlockOf p x → BlockOf q y → (R p q ↔ S x y)) :
    ps.Pairwise R ↔ bs.Pairwise S := by
  have hall : ∀ {p x} {ps : List (Cbor × Bytes)} {bs : List Block}, BlockOf p x →
      List.Forall₂ BlockOf ps bs → ((∀ q ∈ ps, R p q) ↔ ∀ y ∈ bs, S x y) := by
    intro p x ps bs hpx h
    induction h with
    | nil => simp
    | cons hqy _ ih => rw [List.forall_mem_cons, List.forall_mem_cons, hRS hpx hqy, ih]
  induction h with
  | nil => simp
  | cons hpx htail ih =>
      rw [List.pairwise_cons, List.pairwise_cons]
      exact and_congr (hall hpx htail) ih

theorem forall_blockOf {R : Cbor × Bytes → Prop} {S : Block → Prop} {ps : List (Cbor × Bytes)}
    {bs : List Block} (h : List.Forall₂ BlockOf ps bs) (hRS : ∀ {p x}, BlockOf p x → (R p ↔ S x)) :
    (∀ p ∈ ps, R p) ↔ ∀ x ∈ bs, S x := by
  induction h with
  | nil => simp
  | cons hpx _ ih => rw [List.forall_mem_cons, List.forall_mem_cons, hRS hpx, ih]

theorem forall₂_dropLast {ps : List (Cbor × Bytes)} {bs : List Block}
    (h : List.Forall₂ BlockOf ps bs) : List.Forall₂ BlockOf ps.dropLast bs.dropLast := by
  induction h with
  | nil => exact .nil
  | cons hpx htail ih =>
      cases htail with
      | nil => exact .nil
      | cons hqy htail => exact .cons hpx ih

/-- One payload block, the last, is what the items before the last say. -/
theorem PartsOf.payload_iff (h : PartsOf N buf b p rest) :
    (∃ front x, b.blocks = front ++ [x] ∧ x.type = payloadType ∧
      ∀ y ∈ front, y.type ≠ payloadType) ↔
        ∀ q ∈ rest.dropLast, field q.1 0 ≠ some payloadType := by
  rw [forall_blockOf (S := fun x => x.type ≠ payloadType) (forall₂_dropLast h.blockOf)
    (by intro q x hq; rw [hq.type, ne_eq, Option.some.injEq])]
  constructor
  · rintro ⟨front, x, hblocks, _, hfront⟩
    rwa [hblocks, List.dropLast_concat]
  · intro hfront
    obtain ⟨front, x, hblocks, htype⟩ := h.split
    rw [hblocks, List.dropLast_concat] at hfront
    exact ⟨front, x, hblocks, htype, hfront⟩

/-- Distinct numbers are what two blocks with one number that is not a scalar would break. -/
theorem PartsOf.numbers_iff (h : PartsOf N buf b p rest) :
    (b.blocks.Pairwise fun x y => x.number ≠ y.number) ↔
      rest.Pairwise fun p q => ∀ v, field p.1 1 = some v → field q.1 1 = some v → Scalar v := by
  have hset := (checkNumbers_ok h.numbers).2
  rw [pairwise_blockOf (S := fun x y => x.number = y.number → Scalar x.number) h.blockOf]
  · constructor
    · intro hne
      exact hne.imp fun hxy heq => absurd heq hxy
    · intro hscalar
      refine (hset.and hscalar).imp ?_
      rintro x y ⟨hdiff, hsc⟩ heq
      have hsame := sameKey_self_of_scalar (hsc heq) heq
      rw [hdiff] at hsame
      cases hsame
  · intro p q x y hp hq
    rw [hp.number, hq.number]
    constructor
    · intro hv heq
      exact hv _ rfl (by rw [heq])
    · intro hv v hx hy
      cases hx
      exact hv (Option.some.inj hy).symm

/-- Good CRCs are known CRC types. -/
theorem PartsOf.crcs_iff (h : PartsOf N buf b p rest) :
    (CrcGood p.2 (field p.1 2) (field p.1 (primaryCrcIndex N p.1)) ∧
      ∀ q ∈ rest, CrcGood q.2 (field q.1 3) (field q.1 5)) ↔
        KnownCrcType (field p.1 2) ∧ ∀ q ∈ rest, KnownCrcType (field q.1 3) := by
  constructor
  · rintro ⟨hp, hrest⟩
    exact ⟨KnownCrcType.of_good hp, fun q hq => KnownCrcType.of_good (hrest q hq)⟩
  · rintro ⟨hp, hrest⟩
    refine ⟨decodePrimary_crc N (h.readFrom p List.mem_cons_self) h.primary hp, ?_⟩
    have hgood : ∀ x ∈ b.blocks, True := fun _ _ => trivial
    have hone : ∀ q ∈ rest, KnownCrcType (field q.1 3) → CrcGood q.2 (field q.1 3) (field q.1 5) :=
      (forall_blockOf (S := fun _ => True) h.blockOf fun {q x} hq =>
        ⟨fun _ => trivial, fun _ hknown => hq.crc (hq.crcType ▸ hknown)⟩).mpr hgood
    exact fun q hq => hone q hq (hrest q hq)

/-- **When an accepted bundle is well formed**: exactly when its CRC types are known, no block
before the last is of the payload type, and no two blocks share a number that is not a scalar. -/
theorem decodeBundle_rfc9171 {N : Node} {buf : Bytes} {b : Bundle}
    (h : decodeBundle N buf = .ok b) : Rfc9171 N buf b ↔ Regular buf := by
  obtain ⟨p, rest, hparts⟩ := decodeBundle_parts N h
  constructor
  · intro hrfc
    obtain ⟨q, blocks, hitems, hcrcs⟩ := hrfc.crcs
    obtain ⟨rfl, rfl⟩ := List.cons.inj (hparts.items.symm.trans hitems)
    obtain ⟨hp, hrest⟩ := hparts.crcs_iff.mp hcrcs
    refine ⟨?_, ?_, ?_, ?_⟩
    · rw [hparts.items]
      intro q hq
      cases hq
      exact hp
    · rw [hparts.items]
      exact hrest
    · rw [hparts.items]
      exact hparts.payload_iff.mp hrfc.payload
    · rw [hparts.items]
      exact hparts.numbers_iff.mp hrfc.numbers
  · intro hreg
    have hhead := hreg.primaryCrc
    have htail := hreg.blockCrcs
    have hone := hreg.onePayload
    have hnums := hreg.numbers
    rw [hparts.items] at hhead htail hone hnums
    exact ⟨hparts.payload_iff.mpr hone, hparts.numbers_iff.mpr hnums, p, rest, hparts.items,
      hparts.crcs_iff.mpr ⟨hhead p rfl, htail⟩⟩

/-! ## A bundle of each kind -/

/-- A CRC-16 on the primary block and a CRC-32C on the payload. -/
def checkedWire : Bytes :=
  [0x9f, 0x89, 7, 0, 1, 0x82, 1, 0, 0x82, 1, 0, 0x82, 1, 0, 0x82, 0, 0, 0, 0x42, 79, 241,
    0x86, 1, 1, 0, 2, 0x41, 9, 0x44, 193, 195, 119, 229, 0xff]

/-- No CRC on the primary block, and an empty CRC of type 3 on the payload. -/
def emptyCrcWire : Bytes :=
  [0x9f, 0x88, 7, 0, 0, 0x82, 1, 0, 0x82, 1, 0, 0x82, 1, 0, 0x82, 0, 0, 0,
    0x86, 1, 1, 0, 3, 0x41, 9, 0x40, 0xff]

def wireBundle (primaryCrc payloadCrc : Int) : Bundle where
  primary := { flags := .int 0, crcType := .int primaryCrc, dest := "dtn:none", source := "dtn:none",
               reportTo := "dtn:none", created := (.val (.int 0), .val (.int 0)), lifetime := .int 0 }
  blocks := [{ type := .int 1, number := .int 1, flags := .int 0, crcType := .int payloadCrc,
               data := [9] }]

theorem checkedWire_rfc9171 : Rfc9171 sampleNode checkedWire (wireBundle 1 2) := by
  refine (decodeBundle_rfc9171 (by decide +kernel)).mpr ⟨?_, ?_, ?_, ?_⟩
  · have hfield : (items checkedWire).head?.map (fun p => field p.1 2) = some (some (.int 1)) := by
      decide +kernel
    intro p hp
    obtain ⟨q, hq, hcrc⟩ := Option.map_eq_some_iff.mp hfield
    cases hq.symm.trans hp
    exact Or.inr (Or.inl hcrc)
  · have hfield : ∀ p ∈ (items checkedWire).tail, field p.1 3 = some (.int 2) := by decide +kernel
    exact fun p hp => Or.inr (Or.inr (hfield p hp))
  · decide +kernel
  · have hone : (items checkedWire).tail.length = 1 := by decide +kernel
    obtain ⟨q, hq⟩ := List.length_eq_one_iff.mp hone
    rw [hq]
    exact List.pairwise_singleton _ _

/-- **A block with a CRC type there is none of** is accepted, with no CRC at all. -/
theorem emptyCrcWire_not_rfc9171 :
    decodeBundle sampleNode emptyCrcWire = .ok (wireBundle 0 3) ∧
      ¬ Rfc9171 sampleNode emptyCrcWire (wireBundle 0 3) := by
  refine ⟨by decide +kernel, fun h => ?_⟩
  obtain ⟨primary, blocks, hitems, _, hcrcs⟩ := h.crcs
  have hfield : ∀ p ∈ (items emptyCrcWire).tail, field p.1 3 = some (.int 3) := by decide +kernel
  have hne : (items emptyCrcWire).tail ≠ [] := by decide +kernel
  rw [hitems] at hfield hne
  obtain ⟨q, hq⟩ := List.exists_mem_of_ne_nil _ hne
  have hknown := KnownCrcType.of_good (hcrcs q hq)
  rw [hfield q hq] at hknown
  simp [KnownCrcType] at hknown

end Bundle

end DtnCustody
