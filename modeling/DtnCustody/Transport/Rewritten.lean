/-
# DtnCustody.Transport.Rewritten — bundles that are read, changed in one block, and written again.

A bundle that the encoder wrote from fields of the documented types is read as one that the encoder
writes back to the same bytes (`Settled`). It stays so when a block is put in (`Settled.putBlock`), so what a
chain of nodes does to the bytes is what it does to the bundle (`Settled.codec`). Of the bytes, the
primary block is the part that its own fields decide (`Typed.primary_item`).
-/
import DtnCustody.Transport.BundleWritten
import DtnCustody.Transport.AcceptedV2
import Mathlib.Data.List.Pairwise
import Mathlib.Data.List.Perm.Subperm

namespace DtnCustody

open Base Js

namespace Bundle

variable {N : Node}

/-! ## The primary block in the bytes -/

/-- A primary block that was written is one item. -/
theorem Typed.primary_item {o : BundleObject} (ht : Typed N o) {raw : Bytes}
    (h : encodePrimary N o.primary = .ok raw) :
    ∃ v, Cbor.encode v = .ok raw ∧ v.Distinct ∧ v.depth < Cbor.maxLevels := by
  obtain ⟨d, s, r, hd, hs, hr, hsame⟩ := encodePrimary_eids h
  have hreadable : ReadablePrimary N (withEids o.primary d s r) :=
    ⟨ht.flags, ht.crcType, hd.1, hs.1, hr, ht.created, ht.lifetime, ht.fragment⟩
  obtain ⟨raw', v, hraw', henc, hdist, hdepth, -⟩ := decodePrimary_encoded hreadable
  rw [hsame, Except.ok.injEq] at hraw'
  exact ⟨v, hraw' ▸ henc, hdist, hdepth⟩

theorem encodeItems_of_each {fs : List Cbor.Item} (h : ∀ f ∈ fs, ∃ c, f.encodeItem = .ok c) :
    ∃ b, Cbor.Item.encodeItems fs = .ok b := by
  induction fs with
  | nil => exact ⟨[], rfl⟩
  | cons f fs ih =>
      rw [List.forall_mem_cons] at h
      obtain ⟨c, hc⟩ := h.1
      obtain ⟨b, hb⟩ := ih h.2
      exact ⟨c ++ b, by rw [Cbor.Item.encodeItems, hc, hb]; rfl⟩

/-- Fields that were sealed under one CRC type can be sealed without a CRC. -/
theorem sealBlock_bare {fs : List Cbor.Item} (h : ∀ f ∈ fs, ∃ c, f.encodeItem = .ok c)
    (hlen : fs.length ≤ Cbor.maxBuffer) : ∃ raw, sealBlock fs (some (.int 0)) = .ok raw := by
  obtain ⟨b, hb⟩ := encodeItems_of_each h
  obtain ⟨hd, hhd⟩ := @Cbor.Item.exists_lengthHead 4 _ hlen
  refine ⟨hd ++ b, ?_⟩
  rw [sealBlock, if_pos (show JsVal.isInt (some (.int 0)) 0 = true from rfl), Cbor.Item.encodeItem, hhd,
    hb]
  rfl

/-- A primary block that was written is written without its CRC too. -/
theorem encodePrimary_bare {p : PrimaryObject} {raw : Bytes} (h : encodePrimary N p = .ok raw) :
    ∃ raw', encodePrimary N { p with crcType := some (.int 0) } = .ok raw' := by
  have hwritten := h
  rw [encodePrimary] at h
  obtain ⟨dest, hdest, h⟩ := Outcome.bind_eq_ok.mp h
  obtain ⟨source, hsource, h⟩ := Outcome.bind_eq_ok.mp h
  obtain ⟨report, hreport, h⟩ := Outcome.bind_eq_ok.mp h
  obtain ⟨frag, hfrag, -⟩ := Outcome.bind_eq_ok.mp h
  rw [encodePrimary_eq hdest hsource hreport hfrag] at hwritten
  have heach := sealBlock_each hwritten
  rw [@encodePrimary_eq N { p with crcType := some (.int 0) } _ _ _ _ hdest hsource hreport hfrag]
  apply sealBlock_bare
  · intro f hf
    rcases List.mem_append.mp hf with hf | hf
    · simp only [List.mem_cons, List.not_mem_nil, or_false] at hf
      rcases hf with rfl | rfl | rfl | hf
      · exact heach _ (by simp)
      · exact heach _ (by simp [primaryFlags])
      · exact ⟨_, rfl⟩
      · apply heach
        rcases hf with rfl | rfl | rfl | rfl | rfl <;> simp
    · exact heach f (List.mem_append_right _ hf)
  · have hten : (10 : Nat) ≤ Cbor.maxBuffer := by decide
    refine Nat.le_trans ?_ hten
    rw [List.length_append]
    split <;> simp

/-! ## The blocks in the bytes -/

/-- A bundle of the documented types is written when its primary block is, the payload is last and the
data fit. -/
theorem Typed.encodes {o : BundleObject} (ht : Typed N o) {raw : Bytes}
    (h : encodePrimary N o.primary = .ok raw) (hdata : ∀ x ∈ o.blocks, x.data.length ≤ Cbor.maxBuffer)
    (hpayload : o.blocks.getLast?.map BlockObject.type = some (some payloadType)) :
    ∃ blocks, encodeBundle N o = .ok (0x9f :: (raw ++ blocks) ++ [0xff]) := by
  have hproper : ∀ x ∈ o.blocks, ProperBlock x := fun x hx =>
    ⟨(ht.blocks x hx).1, (ht.blocks x hx).2.1, (ht.blocks x hx).2.2.1, (ht.blocks x hx).2.2.2, hdata x hx⟩
  obtain ⟨its, hits, -⟩ := decodeBlocks_encoded hproper
  refine ⟨(its.map Prod.snd).flatten, ?_⟩
  rw [encodeBundle, h, Outcome.ok_bind, if_neg (not_not.mpr hpayload), hits]
  rfl

/-- What is known of an object that was written. -/
theorem encodeBundle_written {o : BundleObject} {buf : Bytes} (h : encodeBundle N o = .ok buf) :
    ∃ raw blocks, encodePrimary N o.primary = .ok raw ∧ buf = 0x9f :: (raw ++ blocks) ++ [0xff] ∧
      (∀ x ∈ o.blocks, x.data.length ≤ Cbor.maxBuffer) ∧
      o.blocks.getLast?.map BlockObject.type = some (some payloadType) := by
  rw [encodeBundle] at h
  obtain ⟨raw, hraw, h⟩ := Outcome.bind_eq_ok.mp h
  split at h
  · cases h
  · rename_i hpayload
    obtain ⟨blocks, hblocks, h⟩ := Outcome.bind_eq_ok.mp h
    cases h
    exact ⟨raw, blocks, hraw, rfl, encodeBlocks_data hblocks, not_not.mp hpayload⟩

/-! ## A number for a new block -/

theorem freeNumber_taken {used : List Cbor} {fuel n : Nat}
    (h : Cbor.int (freeNumber used fuel n) ∈ used) : ∀ k ≤ fuel, Cbor.int ((n + k : Nat) : Int) ∈ used := by
  induction fuel generalizing n with
  | zero =>
      intro k hk
      rw [Nat.le_zero.mp hk]
      exact h
  | succ fuel ih =>
      rw [freeNumber] at h
      split at h
      · rename_i hn
        intro k hk
        cases k with
        | zero => exact hn
        | succ k =>
            have hnext := ih h k (by omega)
            rwa [show n + (k + 1) = n + 1 + k by omega]
      · rename_i hn
        exact absurd h hn

/-- **The number found is free.** -/
theorem nextBlockNumber_free (b : Bundle) : ∀ x ∈ b.blocks, x.number ≠ .int b.nextBlockNumber := by
  intro x hx hnumber
  have hused : Cbor.int b.nextBlockNumber ∈ b.blocks.map Block.number :=
    List.mem_map.mpr ⟨x, hx, hnumber⟩
  have hall := freeNumber_taken hused
  -- One number more than there are blocks would be taken.
  have hnodup : ((List.range (b.blocks.length + 1)).map fun k => Cbor.int ((2 + k : Nat) : Int)).Nodup := by
    apply List.Nodup.map _ List.nodup_range
    intro i j hij
    simp only [Cbor.int.injEq] at hij
    omega
  have hsub : ((List.range (b.blocks.length + 1)).map fun k => Cbor.int ((2 + k : Nat) : Int)) ⊆
      b.blocks.map Block.number := by
    intro v hv
    obtain ⟨k, hk, rfl⟩ := List.mem_map.mp hv
    exact hall k (by rw [List.mem_range] at hk; omega)
  have hlen := (List.subperm_of_subset hnodup hsub).length_le
  rw [List.length_map, List.length_map, List.length_range] at hlen
  omega

/-! ## Bundles that come back -/

/-- The encoder writes the bundle, and the decoder reads it back. -/
structure Settled (N : Node) (b : Bundle) : Prop where
  readable : Readable N b.toObject
  given : Given b

/-- **A settled bundle and its bytes are one.** -/
theorem Settled.codec {b : Bundle} (h : Settled N b) :
    ∃ buf, encodeBundle N b.toObject = .ok buf ∧ decodeBundle N buf = .ok b := by
  obtain ⟨buf, henc, hdec⟩ := decodeBundle_encoded h.readable
  rw [h.given.filled_toObject] at hdec
  exact ⟨buf, henc, hdec⟩

theorem intField_ne_null {v : Cbor} (h : IntField v) : v ≠ .null := by
  obtain ⟨z, rfl, -⟩ := h
  exact Cbor.noConfusion

theorem primaryFlags_filled {p : PrimaryObject} (h : primaryFlags p ≠ .null) :
    primaryFlags p.filled.toObject = primaryFlags p := orElse_of_ne_null h

theorem primaryCrcType_filled {p : PrimaryObject} (h : primaryCrcType p ≠ .null) :
    primaryCrcType p.filled.toObject = primaryCrcType p := orElse_of_ne_null h

theorem blockFlags_filled {x : BlockObject} (h : blockFlags x ≠ .null) :
    blockFlags x.filled.toObject = blockFlags x := orElse_of_ne_null h

theorem blockCrcType_filled {x : BlockObject} (h : blockCrcType x ≠ .null) :
    blockCrcType x.filled.toObject = blockCrcType x := orElse_of_ne_null h

theorem ReadablePrimary.ne_null {p : PrimaryObject} (h : ReadablePrimary N p) :
    primaryFlags p ≠ .null ∧ primaryCrcType p ≠ .null := by
  obtain ⟨z, hz, -⟩ := h.flags
  exact ⟨by rw [hz]; exact Cbor.noConfusion, intField_ne_null (intField_crcType h.crcType)⟩

theorem ProperBlock.ne_null {x : BlockObject} (h : ProperBlock x) :
    blockFlags x ≠ .null ∧ blockCrcType x ≠ .null :=
  ⟨intField_ne_null h.flags, intField_ne_null (intField_crcType h.crcType)⟩

theorem ReadablePrimary.filled {p : PrimaryObject} (h : ReadablePrimary N p) :
    ReadablePrimary N p.filled.toObject := by
  obtain ⟨hflags, hcrc⟩ := h.ne_null
  obtain ⟨v, hv, hint⟩ := h.lifetime
  refine ⟨?_, ?_, h.dest, h.source, h.reportTo, h.created, ⟨v, ?_, hint⟩, ?_⟩
  · rw [primaryFlags_filled hflags]
    exact h.flags
  · rw [primaryCrcType_filled hcrc]
    exact h.crcType
  · show some (p.lifetime.getD .null) = some v
    rw [hv]
    rfl
  · rw [primaryFlags_filled hflags]
    exact h.fragment

theorem ProperBlock.filled {x : BlockObject} (h : ProperBlock x) : ProperBlock x.filled.toObject := by
  obtain ⟨hflags, hcrc⟩ := h.ne_null
  obtain ⟨type, htype, hti⟩ := h.type
  obtain ⟨number, hnumber, hni⟩ := h.number
  refine ⟨⟨type, ?_, hti⟩, ⟨number, ?_, hni⟩, ?_, ?_, h.data⟩
  · show some (x.type.getD .null) = some type
    rw [htype]
    rfl
  · show some (x.number.getD .null) = some number
    rw [hnumber]
    rfl
  · rw [blockFlags_filled hflags]
    exact h.flags
  · rw [blockCrcType_filled hcrc]
    exact h.crcType

/-- **A readable object, with its defaults, is settled.** -/
theorem Readable.settled {o : BundleObject} (h : Readable N o) : Settled N o.filled := by
  obtain ⟨hflags, hcrc⟩ := h.primary.ne_null
  have hblocks : ∀ x ∈ o.blocks, (x.filled.toObject).number = x.number ∧
      (x.filled.toObject).type = x.type := by
    intro x hx
    obtain ⟨type, htype, -⟩ := (h.blocks x hx).type
    obtain ⟨number, hnumber, -⟩ := (h.blocks x hx).number
    constructor
    · show some (x.number.getD .null) = x.number
      rw [hnumber]
      rfl
    · show some (x.type.getD .null) = x.type
      rw [htype]
      rfl
  refine ⟨⟨h.primary.filled, ?_, ?_, ?_⟩, ⟨hflags, hcrc, ?_⟩⟩
  · intro y hy
    obtain ⟨z, hz, rfl⟩ := List.mem_map.mp hy
    obtain ⟨x, hx, rfl⟩ := List.mem_map.mp hz
    exact (h.blocks x hx).filled
  · show ((o.blocks.map BlockObject.filled).map Block.toObject).Pairwise _
    rw [List.map_map, List.pairwise_map]
    refine h.numbers.imp_of_mem fun {x y} hx hy hne => ?_
    show x.filled.toObject.number ≠ y.filled.toObject.number
    rw [(hblocks x hx).1, (hblocks y hy).1]
    exact hne
  · show ((o.blocks.map BlockObject.filled).map Block.toObject).getLast?.map BlockObject.type = _
    rw [List.map_map, List.getLast?_map, Option.map_map, ← h.payload]
    cases hlast : o.blocks.getLast? with
    | none => rfl
    | some x => exact congrArg some (hblocks x (List.mem_of_getLast? hlast)).2
  · intro y hy
    obtain ⟨x, hx, rfl⟩ := List.mem_map.mp hy
    exact (h.blocks x hx).ne_null

/-- Its primary block is written as that of the object. -/
theorem encodePrimary_filled {p : PrimaryObject} (h : ReadablePrimary N p) :
    encodePrimary N p.filled.toObject = encodePrimary N p := by
  obtain ⟨hflags, hcrc⟩ := h.ne_null
  obtain ⟨v, hv, -⟩ := h.lifetime
  have hlife : p.filled.toObject.lifetime = p.lifetime := by
    show some (p.lifetime.getD .null) = p.lifetime
    rw [hv]
    rfl
  rw [encodePrimary, encodePrimary, primaryFlags_filled hflags, primaryCrcType_filled hcrc, hlife]
  rfl

/-- What was written is read as a settled bundle, whose primary block is written to the same bytes. -/
theorem decodeBundle_settled {o : BundleObject} {buf : Bytes} (ht : Typed N o)
    (h : encodeBundle N o = .ok buf) : ∃ d s r, ReadAs o.primary.dest d ∧
      ReadAs o.primary.source s ∧ decodeBundle N buf = .ok (readdressed o d s r).filled ∧
      Settled N (readdressed o d s r).filled ∧
      encodePrimary N (readdressed o d s r).filled.primary.toObject = encodePrimary N o.primary := by
  obtain ⟨raw, blocks, hraw, rfl, hdata, hpayload⟩ := encodeBundle_written h
  obtain ⟨d, s, r, hd, hs, hr, hsame⟩ := encodePrimary_eids hraw
  have hreadable : Readable N (readdressed o d s r) :=
    ⟨⟨ht.flags, ht.crcType, hd.1, hs.1, hr, ht.created, ht.lifetime, ht.fragment⟩,
      fun x hx => ⟨(ht.blocks x hx).1, (ht.blocks x hx).2.1, (ht.blocks x hx).2.2.1,
        (ht.blocks x hx).2.2.2, hdata x hx⟩, ht.numbers, hpayload⟩
  have hprimary : encodePrimary N (readdressed o d s r).primary = encodePrimary N o.primary := by
    rw [hraw]
    exact hsame
  obtain ⟨buf, henc, hdec⟩ := decodeBundle_encoded hreadable
  have hbuf : encodeBundle N (readdressed o d s r) = encodeBundle N o := by
    rw [encodeBundle, encodeBundle, hprimary]
    rfl
  rw [hbuf, h, Except.ok.injEq] at henc
  refine ⟨d, s, r, hd, hs, henc ▸ hdec, hreadable.settled, ?_⟩
  rw [← hprimary]
  exact encodePrimary_filled hreadable.primary

/-! ## Putting a block in -/

theorem encodeBlocks_each {bs : List BlockObject} {buf : Bytes} (h : encodeBlocks bs = .ok buf) :
    ∀ x ∈ bs, ∃ raw, encodeBlock x = .ok raw := by
  induction bs generalizing buf with
  | nil => exact fun x hx => by cases hx
  | cons b bs ih =>
      rw [encodeBlocks] at h
      obtain ⟨raw, hraw, h⟩ := Outcome.bind_eq_ok.mp h
      obtain ⟨rest, hrest, -⟩ := Outcome.bind_eq_ok.mp h
      exact List.forall_mem_cons.mpr ⟨⟨raw, hraw⟩, ih hrest⟩

/-- An integer that was written has 64 bits. -/
theorem intField_of_encode {z : Int} {b : Bytes} (h : Cbor.encode (.int z) = .ok b) :
    IntField (.int z) := by
  have hhead : ∀ {major n : Nat} {c : Bytes}, Cbor.head major n = .ok c → n < 18446744073709551616 := by
    intro major n c hc
    unfold Cbor.head at hc
    repeat' split at hc
    all_goals first
      | omega
      | cases hc
  rw [Cbor.encode] at h
  refine ⟨z, rfl, ?_⟩
  split at h
  · have := hhead h
    omega
  · have := hhead h
    omega

/-- What `putBlock` makes of a list of blocks that ends with the payload. -/
theorem putBlock_ok {b b' : Bundle} {type flags crcType : Cbor} {data : Bytes}
    (h : b.putBlock type flags crcType data = .ok b') :
    ∃ front payload, (b.blocks.filter fun x => x.type ≠ type) = front ++ [payload] ∧
      b' = { b with blocks := front ++ [⟨type, b.numberFor type, flags, crcType, data⟩, payload] } := by
  unfold putBlock at h
  split at h
  · rename_i payload hlast
    cases h
    exact ⟨_, payload, (List.dropLast_append_getLast? payload hlast).symm, rfl⟩
  · cases h

/-- The number of the block that is put in is no other block's. -/
theorem numberFor_free {b : Bundle} {type : Cbor}
    (hdistinct : b.blocks.Pairwise fun x y => x.number ≠ y.number) :
    ∀ x ∈ b.blocks, x.type ≠ type → x.number ≠ b.numberFor type := by
  intro x hx htype
  unfold numberFor
  split
  · rename_i old hfind
    have hne : x ≠ old := by
      rintro rfl
      exact htype (by simpa using List.find?_some hfind)
    have : Std.Symm fun x y : Block => x.number ≠ y.number := ⟨fun _ _ h => h.symm⟩
    exact hdistinct.forall hx (List.mem_of_find?_eq_some hfind) hne
  · exact b.nextBlockNumber_free x hx

/-- The fields of a block that is put in. -/
structure PutFields (type flags crcType : Cbor) : Prop where
  type : IntField type
  flags : IntField flags
  crcType : crcType ∈ [.int 0, .int 1, .int 2]

theorem PutFields.ne_null {type flags crcType : Cbor} (h : PutFields type flags crcType) :
    flags ≠ .null ∧ crcType ≠ .null :=
  ⟨intField_ne_null h.flags, intField_ne_null (intField_crcType h.crcType)⟩

theorem pairwise_toObject {bs : List Block} :
    (bs.map Block.toObject).Pairwise (fun x y => x.number ≠ y.number) ↔
      bs.Pairwise fun x y => x.number ≠ y.number := by
  rw [List.pairwise_map]
  have heq : ∀ x y : Block, x.toObject.number ≠ y.toObject.number ↔ x.number ≠ y.number := fun x y =>
    not_congr Option.some_inj
  exact ⟨fun h => h.imp fun hne => (heq _ _).mp hne, fun h => h.imp fun hne => (heq _ _).mpr hne⟩

theorem Settled.numbers {b : Bundle} (h : Settled N b) :
    b.blocks.Pairwise fun x y => x.number ≠ y.number :=
  pairwise_toObject.mp h.readable.numbers

theorem Settled.proper {b : Bundle} (h : Settled N b) {x : Block} (hx : x ∈ b.blocks) :
    ProperBlock x.toObject := h.readable.blocks _ (List.mem_map_of_mem hx)

theorem Settled.number {b : Bundle} (h : Settled N b) {x : Block} (hx : x ∈ b.blocks) :
    IntField x.number := by
  obtain ⟨v, hv, hint⟩ := (h.proper hx).number
  exact Option.some.inj hv ▸ hint

/-- The number of a block that was put in and written. -/
theorem Settled.numberFor {b : Bundle} (h : Settled N b) {x : Block} {type : Cbor} {raw : Bytes}
    (hx : x.number = b.numberFor type) (henc : encodeBlock x.toObject = .ok raw) :
    IntField x.number := by
  obtain ⟨c, hc⟩ := sealBlock_each henc (fieldItem x.toObject.number) (by simp)
  have hc : Cbor.encode x.number = .ok c := by
    rw [← Cbor.Item.encodeItem_ofValue]
    exact hc
  rw [hx] at hc ⊢
  unfold Bundle.numberFor at hc ⊢
  split
  · rename_i old hfind
    exact h.number (List.mem_of_find?_eq_some hfind)
  · rename_i hfind
    rw [hfind] at hc
    exact intField_of_encode hc

/-- **A bundle stays settled when a block is put in and it is written.** -/
theorem Settled.putBlock {b b' : Bundle} (h : Settled N b) {type flags crcType : Cbor} {data buf : Bytes}
    (hfields : PutFields type flags crcType) (hput : b.putBlock type flags crcType data = .ok b')
    (henc : encodeBundle N b'.toObject = .ok buf) : Settled N b' := by
  obtain ⟨front, payload, hfront, rfl⟩ := putBlock_ok hput
  obtain ⟨raw, _, hraw, _, hdata, hpayload⟩ := encodeBundle_written henc
  have hblocks : ∃ c, encodeBlocks ((front ++
      [⟨type, b.numberFor type, flags, crcType, data⟩, payload]).map Block.toObject) = .ok c := by
    rw [encodeBundle] at henc
    obtain ⟨_, _, henc⟩ := Outcome.bind_eq_ok.mp henc
    split at henc
    · cases henc
    · obtain ⟨c, hc, -⟩ := Outcome.bind_eq_ok.mp henc
      exact ⟨c, hc⟩
  obtain ⟨c, hc⟩ := hblocks
  have hkept : ∀ x ∈ front ++ [payload], x ∈ b.blocks ∧ x.type ≠ type := by
    intro x hx
    rw [← hfront, List.mem_filter] at hx
    exact ⟨hx.1, of_decide_eq_true hx.2⟩
  have hmem : ∀ x, x ∈ front ++ [⟨type, b.numberFor type, flags, crcType, data⟩, payload] ↔
      x ∈ front ++ [payload] ∨ x = ⟨type, b.numberFor type, flags, crcType, data⟩ := by
    intro x
    simp only [List.mem_append, List.mem_cons, List.not_mem_nil, or_false]
    tauto
  have hnew : IntField (b.numberFor type) := by
    obtain ⟨raw', hraw'⟩ := encodeBlocks_each hc
      (Block.toObject ⟨type, b.numberFor type, flags, crcType, data⟩) (by simp)
    exact h.numberFor rfl hraw'
  constructor
  · refine ⟨h.readable.primary, ?_, ?_, hpayload⟩
    · intro y hy
      obtain ⟨x, hx, rfl⟩ := List.mem_map.mp hy
      rcases (hmem x).mp hx with hx | rfl
      · exact h.proper (hkept x hx).1
      · refine ⟨⟨type, rfl, hfields.type⟩, ⟨_, rfl, hnew⟩, ?_, ?_, hdata _ hy⟩
        · show IntField (JsVal.orElse (some flags) (.int 0))
          rw [orElse_of_ne_null hfields.ne_null.1]
          exact hfields.flags
        · show JsVal.orElse (some crcType) (.int 0) ∈ _
          rw [orElse_of_ne_null hfields.ne_null.2]
          exact hfields.crcType
    · have hpair : (front ++ [payload]).Pairwise fun x y => x.number ≠ y.number := by
        rw [← hfront]
        exact h.numbers.filter _
      exact pairwise_toObject.mpr (pairwise_insert hpair fun x hx =>
        numberFor_free h.numbers x (hkept x hx).1 (hkept x hx).2)
  · refine ⟨h.given.flags, h.given.crcType, ?_⟩
    intro x hx
    rcases (hmem x).mp hx with hx | rfl
    · exact h.given.blocks x (hkept x hx).1
    · exact hfields.ne_null

/-- What was put in and written is read back. -/
theorem Settled.put_codec {b b' : Bundle} (h : Settled N b) {type flags crcType : Cbor}
    {data buf : Bytes} (hfields : PutFields type flags crcType)
    (hput : b.putBlock type flags crcType data = .ok b') (henc : encodeBundle N b'.toObject = .ok buf) :
    Settled N b' ∧ decodeBundle N buf = .ok b' := by
  have hsettled := h.putBlock hfields hput henc
  obtain ⟨buf', henc', hdec⟩ := hsettled.codec
  rw [henc, Except.ok.injEq] at henc'
  exact ⟨hsettled, henc' ▸ hdec⟩

theorem filter_type {type : Cbor} {bs : List Block} (h : ∀ x ∈ bs, x.type ≠ type) :
    (bs.filter fun x => x.type = type) = [] :=
  List.filter_eq_nil_iff.mpr fun x hx => by simpa using h x hx

theorem filter_other {type : Cbor} {bs : List Block} (h : ∀ x ∈ bs, x.type ≠ type) :
    (bs.filter fun x => x.type ≠ type) = bs :=
  List.filter_eq_self.mpr fun x hx => by simpa using h x hx

/-- **Of the other blocks and the primary block nothing changes**, and the new block is the only one of
its type. -/
theorem putBlock_frame {b b' : Bundle} {type flags crcType : Cbor} {data : Bytes}
    (h : b.putBlock type flags crcType data = .ok b') : b'.primary = b.primary ∧
      (b'.blocks.filter fun x => x.type ≠ type) = (b.blocks.filter fun x => x.type ≠ type) ∧
      (b'.blocks.filter fun x => x.type = type) = [⟨type, b.numberFor type, flags, crcType, data⟩] := by
  obtain ⟨front, payload, hfront, rfl⟩ := putBlock_ok h
  have hother : ∀ x ∈ front ++ [payload], x.type ≠ type := by
    intro x hx
    rw [← hfront, List.mem_filter] at hx
    exact of_decide_eq_true hx.2
  have hpayload := hother payload (by simp)
  have hfronts : ∀ x ∈ front, x.type ≠ type := fun x hx => hother x (List.mem_append_left _ hx)
  refine ⟨rfl, ?_, ?_⟩
  · rw [hfront, List.filter_append, filter_other hfronts, List.filter_cons_of_neg (by simp),
      List.filter_cons_of_pos (by simpa using hpayload)]
    rfl
  · rw [List.filter_append, filter_type hfronts, List.filter_cons_of_pos (by simp),
      List.filter_cons_of_neg (by simpa using hpayload)]
    rfl

/-- **Putting the same block in again changes nothing.** -/
theorem putBlock_again {b b' : Bundle} {type flags crcType : Cbor} {data : Bytes}
    (h : b.putBlock type flags crcType data = .ok b') :
    b'.putBlock type flags crcType data = .ok b' := by
  obtain ⟨-, hother, -⟩ := putBlock_frame h
  obtain ⟨front, payload, hfront, rfl⟩ := putBlock_ok h
  rw [hfront] at hother
  have hfronts : ∀ x ∈ front, ¬ (decide (x.type = type) = true) := by
    intro x hx
    have hmem : x ∈ (b.blocks.filter fun x => x.type ≠ type) := by
      rw [hfront]
      exact List.mem_append_left _ hx
    simpa using List.of_mem_filter hmem
  have hnumber : Bundle.numberFor { b with blocks := front ++
      [⟨type, b.numberFor type, flags, crcType, data⟩, payload] } type = b.numberFor type := by
    rw [Bundle.numberFor, List.find?_append, List.find?_eq_none.mpr hfronts, Option.none_or,
      List.find?_cons_of_pos (by simp)]
  rw [Bundle.putBlock, hother, List.getLast?_concat]
  dsimp only
  rw [List.dropLast_concat, hnumber]

end Bundle

end DtnCustody
