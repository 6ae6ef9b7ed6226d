/-
# DtnCustody.Transport.BundleInverse — `decodeBundle` reads back what `encodeBundle` wrote.

A proper object has fields that can be written (`Carried`): sealing them succeeds and the sealed
array decodes to them (`seal_ok`), first for a block (`decodeBlock_encoded`,
`decodePrimary_encoded`), then for the outer array. `bundle_codec_inverse` puts the two directions
together.
-/
import DtnCustody.Transport.BundleCodec

namespace DtnCustody

open Base Js

namespace Bundle

variable {N : Node}

/-! ## From the object and back -/

/-- An integer that has an encoding. -/
def IntField (v : Cbor) : Prop :=
  ∃ z : Int, v = .int z ∧ -18446744073709551616 ≤ z ∧ z < 18446744073709551616

structure ProperPrimary (N : Node) (p : PrimaryObject) : Prop where
  flags : ∃ z : Int, primaryFlags p = .int z ∧ Cbor.isNumber z = true
  crcType : primaryCrcType p ∈ [.int 0, .int 1, .int 2]
  dest : ∃ item, EidForm p.dest item
  source : ∃ item, EidForm p.source item
  reportTo : ∃ item, EidForm (p.reportTo.getD "dtn:none") item
  sizes : ∀ eid ∈ [p.dest, p.source, p.reportTo.getD "dtn:none"],
    (utf8Encode eid.toList).length ≤ Cbor.maxBuffer
  created : ∃ time seq, p.created = (.val time, .val seq) ∧ IntField time ∧ IntField seq
  lifetime : ∃ v, p.lifetime = some v ∧ IntField v
  fragment : ∀ frag, fragmentBit N (some (primaryFlags p)) = .ok frag →
    if frag = 0 then p.fragmentOffset = none ∧ p.totalAduLength = none
    else ∃ offset total, p.fragmentOffset = some offset ∧ p.totalAduLength = some total ∧
      IntField offset ∧ IntField total

structure ProperBlock (b : BlockObject) : Prop where
  type : ∃ v, b.type = some v ∧ IntField v
  number : ∃ v, b.number = some v ∧ IntField v
  flags : IntField (blockFlags b)
  crcType : blockCrcType b ∈ [.int 0, .int 1, .int 2]
  data : b.data.length ≤ Cbor.maxBuffer

/-- **A well-formed bundle object.** -/
structure Proper (N : Node) (o : BundleObject) : Prop where
  primary : ProperPrimary N o.primary
  blocks : ∀ b ∈ o.blocks, ProperBlock b
  numbers : o.blocks.Pairwise fun x y => x.number ≠ y.number
  payload : o.blocks.getLast?.map BlockObject.type = some (some payloadType)

/-- A value that can be written in a block and read back. -/
def Carried (v : Cbor) : Prop := v.Distinct ∧ v.depth ≤ 2 ∧ ∃ b, Cbor.encode v = .ok b

theorem IntField.carried {v : Cbor} (h : IntField v) : Carried v := by
  obtain ⟨z, rfl, hlo, hhi⟩ := h
  refine ⟨.int z, Nat.zero_le _, ?_⟩
  rw [Cbor.encode]
  split
  · exact Cbor.Item.exists_head (by omega)
  · exact Cbor.Item.exists_head (by omega)

theorem IntField.depth_le {v : Cbor} (h : IntField v) : v.depth ≤ 1 := by
  obtain ⟨z, rfl, _⟩ := h
  exact Nat.zero_le _

theorem intField_crcType {t : Cbor} (h : t ∈ [Cbor.int 0, .int 1, .int 2]) : IntField t := by
  simp only [List.mem_cons, List.not_mem_nil, or_false] at h
  rcases h with h | h | h <;> exact ⟨_, h, by decide, by decide⟩

theorem carried_bytes {b : Bytes} (h : b.length ≤ Cbor.maxBuffer) : Carried (.bytes b) := by
  obtain ⟨hd, hhd⟩ := @Cbor.Item.exists_lengthHead 2 _ h
  refine ⟨.bytes b, Nat.zero_le _, hd ++ b, ?_⟩
  rw [Cbor.encode, hhd]
  rfl

theorem exists_encode_array {vs : List Cbor} (h : ∀ v ∈ vs, ∃ b, Cbor.encode v = .ok b)
    (hlen : vs.length ≤ Cbor.maxBuffer) : ∃ b, Cbor.encode (.array vs) = .ok b := by
  have hall : ∃ b, Cbor.encodeAll vs = .ok b := by
    clear hlen
    induction vs with
    | nil => exact ⟨_, rfl⟩
    | cons v vs ih =>
        rw [List.forall_mem_cons] at h
        obtain ⟨a, ha⟩ := h.1
        obtain ⟨b, hb⟩ := ih h.2
        refine ⟨a ++ b, ?_⟩
        rw [Cbor.encodeAll, ha, hb]
        rfl
  obtain ⟨hd, hhd⟩ := @Cbor.Item.exists_lengthHead 4 _ hlen
  obtain ⟨b, hb⟩ := hall
  refine ⟨hd ++ b, ?_⟩
  rw [Cbor.encode, hhd, hb]
  rfl

/-- What a sealed block carries behind its fields: nothing for type 0, and else its CRC. -/
def CrcField (raw : Bytes) (t : Cbor) (crcs : List Cbor) : Prop :=
  (t = .int 0 ∧ crcs = []) ∨
    (t.truthy = true ∧ ∃ crc, crcs = [.bytes crc] ∧
      checkCrc raw (some t) (some (.bytes crc)) = true)

/-- **Sealing succeeds**, and what it wrote is read back as the fields with their CRC. -/
theorem seal_ok {fs : List Cbor.Item} {vs : List Cbor} {t : Cbor} (hfs : Writes fs vs)
    (hvs : ∀ v ∈ vs, Carried v) (hlen : vs.length ≤ 10) (ht : t ∈ [.int 0, .int 1, .int 2]) :
    ∃ raw crcs, sealBlock fs (some t) = .ok raw ∧ CrcField raw t crcs ∧
      Cbor.encode (.array (vs ++ crcs)) = .ok raw ∧ (Cbor.array (vs ++ crcs)).Distinct ∧
      (Cbor.array (vs ++ crcs)).depth < Cbor.maxLevels := by
  have hshape : ∀ crcs : List Cbor, (∀ v ∈ crcs, Carried v) →
      (Cbor.array (vs ++ crcs)).Distinct ∧ (Cbor.array (vs ++ crcs)).depth < Cbor.maxLevels := by
    intro crcs hcrcs
    have hall : ∀ v ∈ vs ++ crcs, Carried v := by
      intro v hv
      exact (List.mem_append.mp hv).elim (hvs v) (hcrcs v)
    refine ⟨.array fun v hv => (hall v hv).1, ?_⟩
    have hdepth : Cbor.depthAll (vs ++ crcs) ≤ 3 :=
      Cbor.depthAll_le fun v hv => Nat.lt_succ_of_le (hall v hv).2.1
    exact lt_of_le_of_lt hdepth (by decide)
  have hlen' : vs.length ≤ Cbor.maxBuffer := hlen.trans (by decide)
  by_cases hzero : t = .int 0
  · obtain ⟨raw, hraw⟩ := exists_encode_array (fun v hv => (hvs v hv).2.2) hlen'
    have hseal := seal_zero (t := some t) hfs (isInt_zero_iff.mpr hzero)
    refine ⟨raw, [], hseal.trans hraw, Or.inl ⟨hzero, rfl⟩, by rwa [List.append_nil],
      hshape [] fun v hv => by cases hv⟩
  · have hint : JsVal.isInt (some t) 0 = false := by
      rw [← Bool.not_eq_true, isInt_zero_iff]
      exact hzero
    have htruthy : t.truthy = true := by
      simp only [List.mem_cons, List.not_mem_nil, or_false] at ht
      rcases ht with rfl | rfl | rfl
      · exact absurd rfl hzero
      · rfl
      · rfl
    have hz : ∀ v ∈ vs ++ [Cbor.bytes (List.replicate (crcLen (some t)) 0)],
        ∃ b, Cbor.encode v = .ok b := by
      intro v hv
      rcases List.mem_append.mp hv with hv | hv
      · exact (hvs v hv).2.2
      · rw [List.mem_singleton.mp hv]
        refine (carried_bytes ?_).2.2
        rw [List.length_replicate, crcLen]
        split_ifs <;> decide
    obtain ⟨zeroed, hzeroed⟩ := exists_encode_array hz (by
      rw [List.length_append, List.length_singleton]
      have : (10 : Nat) + 1 ≤ Cbor.maxBuffer := by decide
      omega)
    obtain ⟨front, _, hfront⟩ := encode_array_concat hzeroed
    have hcrclen : (crcBytes (some t) zeroed).length =
        (List.replicate (crcLen (some t)) (0 : UInt8)).length := by
      rw [length_crcBytes, List.length_replicate]
    have hseal : sealBlock fs (some t) = .ok (front ++ crcBytes (some t) zeroed) := by
      rw [sealBlock, if_neg (by simp [hint]), (hfs.bstr _).array, hzeroed, Outcome.ok_bind,
        (hfs.bstr _).array, hfront _ hcrclen]
    obtain ⟨crc, henc, hcheck⟩ := seal_reads hfs hint hseal
    refine ⟨_, [.bytes crc], hseal, Or.inr ⟨htruthy, crc, rfl, hcheck⟩, henc, hshape _ ?_⟩
    intro v hv
    rw [List.mem_singleton.mp hv]
    refine carried_bytes ?_
    obtain ⟨front', hraw, _⟩ := encode_array_concat henc
    have hlencrc := ((checkCrc_iff hint hraw).mp hcheck).1
    rw [hlencrc, crcLen]
    split_ifs <;> decide

theorem CrcField.length {raw : Bytes} {t : Cbor} {crcs : List Cbor} (h : CrcField raw t crcs) :
    crcs.length = if t.truthy then 1 else 0 := by
  rcases h with ⟨rfl, rfl⟩ | ⟨htruthy, crc, rfl, _⟩
  · rfl
  · rw [htruthy]
    rfl

/-- **A block that was written is read as it was.** -/
theorem decodeBlock_encoded {b : BlockObject} (h : ProperBlock b) :
    ∃ raw v, encodeBlock b = .ok raw ∧ Cbor.encode v = .ok raw ∧ v.Distinct ∧
      v.depth < Cbor.maxLevels ∧ ∀ i, decodeBlock i v raw = .ok b.filled := by
  obtain ⟨type, htype, hti⟩ := h.type
  obtain ⟨number, hnumber, hni⟩ := h.number
  have hfs : Writes [fieldItem b.type, fieldItem b.number, .ofValue (blockFlags b),
      .ofValue (blockCrcType b), .bstr b.data]
      [type, number, blockFlags b, blockCrcType b, .bytes b.data] := by
    rw [htype, hnumber]
    exact .cons (Cbor.Item.encodeItem_ofValue _) (.cons (Cbor.Item.encodeItem_ofValue _)
      (.cons (Cbor.Item.encodeItem_ofValue _) (.cons (Cbor.Item.encodeItem_ofValue _)
        (.cons (by rw [Cbor.Item.encodeItem, Cbor.encode]) .nil))))
  have hcrcint : IntField (blockCrcType b) := intField_crcType h.crcType
  obtain ⟨raw, crcs, hseal, hcrc, henc, hdist, hdepth⟩ := seal_ok hfs (by
    intro v hv
    simp only [List.mem_cons, List.not_mem_nil, or_false] at hv
    rcases hv with rfl | rfl | rfl | rfl | rfl
    · exact hti.carried
    · exact hni.carried
    · exact h.flags.carried
    · exact hcrcint.carried
    · exact carried_bytes h.data) (by simp) h.crcType
  refine ⟨raw, _, hseal, henc, hdist, hdepth, fun i => ?_⟩
  have hlen := hcrc.length
  have hmore : ¬ 1 < crcs.length := by
    rw [hlen]
    split <;> omega
  have hcount : ¬ (if (blockCrcType b).truthy then 6 else 5) ≠ 5 + crcs.length := by
    rw [hlen, not_not]
    split <;> rfl
  have hcheck : checkCrc raw (some (blockCrcType b)) crcs[0]? = true := by
    rcases hcrc with ⟨hzero, rfl⟩ | ⟨_, crc, rfl, hcheck⟩
    · rw [hzero]
      rfl
    · exact hcheck
  show (if 1 < crcs.length then _ else if (if (blockCrcType b).truthy then 6 else 5) ≠
    5 + crcs.length then _ else if checkCrc raw (some (blockCrcType b)) crcs[0]? = false then _
      else _) = _
  rw [if_neg hmore, if_neg hcount, if_neg (by simp [hcheck])]
  unfold BlockObject.filled
  rw [htype, hnumber]
  rfl

theorem decodeBlocks_encoded {bs : List BlockObject} (h : ∀ b ∈ bs, ProperBlock b) :
    ∃ its : List (Cbor × Bytes), encodeBlocks bs = .ok (its.map Prod.snd).flatten ∧
      (∀ p ∈ its, p.1.Distinct ∧ p.1.depth < Cbor.maxLevels ∧ Cbor.encode p.1 = .ok p.2) ∧
      its.length = bs.length ∧ ∀ i, decodeBlocks i its = .ok (bs.map BlockObject.filled) := by
  induction bs with
  | nil => exact ⟨[], rfl, (fun _ hp => by cases hp), rfl, fun _ => rfl⟩
  | cons b bs ih =>
      rw [List.forall_mem_cons] at h
      obtain ⟨raw, v, hb, henc, hdist, hdepth, hdec⟩ := decodeBlock_encoded h.1
      obtain ⟨its, hits, hall, hcount, hrest⟩ := ih h.2
      refine ⟨(v, raw) :: its, ?_, List.forall_mem_cons.mpr ⟨⟨hdist, hdepth, henc⟩, hall⟩,
        congrArg (· + 1) hcount, fun i => ?_⟩
      · rw [encodeBlocks, hb, hits]
        rfl
      · rw [decodeBlocks, hdec, hrest]
        rfl

theorem carried_int {n : Nat} (h : n ≤ 9007199254740991) : Carried (.int n) :=
  IntField.carried ⟨n, rfl, by omega, by omega⟩

theorem carried_text {s : String} (h : (utf8Encode s.toList).length ≤ Cbor.maxBuffer) :
    Carried (.text s) := by
  obtain ⟨hd, hhd⟩ := @Cbor.Item.exists_lengthHead 3 _ h
  refine ⟨.text s, Nat.zero_le _, hd ++ utf8Encode s.toList, ?_⟩
  rw [Cbor.encode, hhd]
  rfl

theorem exists_encode_pair {v w : Cbor} (hv : ∃ b, Cbor.encode v = .ok b)
    (hw : ∃ b, Cbor.encode w = .ok b) : ∃ b, Cbor.encode (.array [v, w]) = .ok b := by
  refine exists_encode_array ?_ (show (2 : Nat) ≤ Cbor.maxBuffer by decide)
  intro x hx
  simp only [List.mem_cons, List.not_mem_nil, or_false] at hx
  rcases hx with rfl | rfl
  · exact hv
  · exact hw

theorem carried_pair {v w : Cbor} (hv : Carried v) (hw : Carried w)
    (hdepth : v.depth ≤ 1 ∧ w.depth ≤ 1) : Carried (.array [v, w]) := by
  have hall : ∀ {P : Cbor → Prop}, P v → P w → ∀ x ∈ [v, w], P x := by
    intro P hpv hpw x hx
    simp only [List.mem_cons, List.not_mem_nil, or_false] at hx
    rcases hx with rfl | rfl
    · exact hpv
    · exact hpw
  refine ⟨.array (hall hv.1 hw.1), ?_, exists_encode_pair hv.2.2 hw.2.2⟩
  exact Cbor.depthAll_le (hall (Nat.lt_succ_of_le hdepth.1) (Nat.lt_succ_of_le hdepth.2))

theorem EidForm.carried {eid : String} {v : Cbor} (h : EidForm eid v)
    (hlen : (utf8Encode eid.toList).length ≤ Cbor.maxBuffer) : Carried v := by
  cases h with
  | none =>
      exact carried_pair (carried_int (n := 1) (by decide)) (carried_int (n := 0) (by decide))
        ⟨by decide, by decide⟩
  | @dtn path hpath =>
      refine carried_pair (carried_int (n := 1) (by decide)) (carried_text ?_)
        ⟨by decide, Nat.zero_le _⟩
      rw [String.toList_append, utf8Encode, List.flatMap_append, List.length_append] at hlen
      exact (Nat.le_add_left _ _).trans hlen
  | @ipn node service hnode hservice =>
      have hparts : Carried (.array [.int node, .int service]) :=
        carried_pair (carried_int hnode) (carried_int hservice) ⟨Nat.zero_le _, Nat.zero_le _⟩
      have hdepth : (Cbor.array [.int node, .int service]).depth ≤ 1 := by
        simp [Cbor.depth, Cbor.depthAll]
      exact carried_pair (carried_int (n := 2) (by decide)) hparts ⟨by decide, hdepth⟩

/-- An endpoint identifier that is written and read back. -/
def EidReads (eid : String) : Prop := ∃ v, EidForm eid v ∧ Carried v

/-- What reading a primary block back takes; the identifiers are as long as can be written. -/
structure ReadablePrimary (N : Node) (p : PrimaryObject) : Prop where
  flags : ∃ z : Int, primaryFlags p = .int z ∧ Cbor.isNumber z = true
  crcType : primaryCrcType p ∈ [.int 0, .int 1, .int 2]
  dest : EidReads p.dest
  source : EidReads p.source
  reportTo : EidReads (p.reportTo.getD "dtn:none")
  created : ∃ time seq, p.created = (.val time, .val seq) ∧ IntField time ∧ IntField seq
  lifetime : ∃ v, p.lifetime = some v ∧ IntField v
  fragment : ∀ frag, fragmentBit N (some (primaryFlags p)) = .ok frag →
    if frag = 0 then p.fragmentOffset = none ∧ p.totalAduLength = none
    else ∃ offset total, p.fragmentOffset = some offset ∧ p.totalAduLength = some total ∧
      IntField offset ∧ IntField total

theorem ProperPrimary.readable {p : PrimaryObject} (h : ProperPrimary N p) : ReadablePrimary N p := by
  have hreads : ∀ eid ∈ [p.dest, p.source, p.reportTo.getD "dtn:none"], (∃ v, EidForm eid v) →
      EidReads eid := by
    rintro eid heid ⟨v, hv⟩
    exact ⟨v, hv, hv.carried (h.sizes eid heid)⟩
  exact ⟨h.flags, h.crcType, hreads _ (by simp) h.dest, hreads _ (by simp) h.source,
    hreads _ (by simp) h.reportTo, h.created, h.lifetime, h.fragment⟩

/-- What reading a bundle back takes. -/
structure Readable (N : Node) (o : BundleObject) : Prop where
  primary : ReadablePrimary N o.primary
  blocks : ∀ b ∈ o.blocks, ProperBlock b
  numbers : o.blocks.Pairwise fun x y => x.number ≠ y.number
  payload : o.blocks.getLast?.map BlockObject.type = some (some payloadType)

theorem Proper.readable {o : BundleObject} (h : Proper N o) : Readable N o :=
  ⟨h.primary.readable, h.blocks, h.numbers, h.payload⟩

/-- **A primary block that was written is read as it was.** -/
theorem decodePrimary_encoded {p : PrimaryObject} (h : ReadablePrimary N p) :
    ∃ raw v, encodePrimary N p = .ok raw ∧ Cbor.encode v = .ok raw ∧ v.Distinct ∧
      v.depth < Cbor.maxLevels ∧ decodePrimary N raw v = .ok p.filled := by
  obtain ⟨z, hflags, hz⟩ := h.flags
  obtain ⟨dest, hdest, hcdest⟩ := h.dest
  obtain ⟨source, hsource, hcsource⟩ := h.source
  obtain ⟨report, hreport, hcreport⟩ := h.reportTo
  obtain ⟨time, seq, hcreated, htime, hseq⟩ := h.created
  obtain ⟨lifetime, hlifetime, hlife⟩ := h.lifetime
  obtain ⟨di, hdi, hde⟩ := hdest.encode
  obtain ⟨si, hsi, hse⟩ := hsource.encode
  obtain ⟨ri, hri, hre⟩ := hreport.encode
  have hbit : ∃ frag, fragmentBit N (some (primaryFlags p)) = .ok frag := by
    rw [hflags, fragmentBit, JsVal.toPrim, Cbor.toPrim_int hz]
    exact ⟨_, rfl⟩
  obtain ⟨frag, hfrag⟩ := hbit
  obtain ⟨extra, hextra, hcarried, hcount, hfields⟩ : ∃ extra : List Cbor,
      Writes (if frag = 0 then [] else [fieldItem p.fragmentOffset, fieldItem p.totalAduLength])
        extra ∧ (∀ v ∈ extra, Carried v) ∧ extra.length = (if frag = 0 then 0 else 2) ∧
      ∀ crcs : List Cbor, (if frag = 0 then none else (extra ++ crcs)[0]?) = p.fragmentOffset ∧
        (if frag = 0 then none else (extra ++ crcs)[1]?) = p.totalAduLength := by
    have hfragment := h.fragment frag hfrag
    by_cases hzero : frag = 0
    · rw [if_pos hzero] at hfragment
      refine ⟨[], ?_, fun v hv => (by cases hv), by rw [if_pos hzero]; rfl, fun crcs => ?_⟩
      · rw [if_pos hzero]
        exact .nil
      · rw [if_pos hzero, if_pos hzero, hfragment.1, hfragment.2]
        exact ⟨rfl, rfl⟩
    · rw [if_neg hzero] at hfragment
      obtain ⟨offset, total, hoffset, htotal, hoi, hti⟩ := hfragment
      refine ⟨[offset, total], ?_, ?_, by rw [if_neg hzero]; rfl, fun crcs => ?_⟩
      · rw [if_neg hzero, hoffset, htotal]
        exact .cons (Cbor.Item.encodeItem_ofValue _) (.cons (Cbor.Item.encodeItem_ofValue _) .nil)
      · simp only [List.forall_mem_cons]
        exact ⟨hoi.carried, hti.carried, fun v hv => by cases hv⟩
      · rw [if_neg hzero, if_neg hzero, hoffset, htotal]
        exact ⟨rfl, rfl⟩
  have hslots : Writes [slotItem p.created.1, slotItem p.created.2] [time, seq] := by
    rw [hcreated]
    exact .cons (Cbor.Item.encodeItem_ofValue _) (.cons (Cbor.Item.encodeItem_ofValue _) .nil)
  have hhead : Writes [.num (.fin 7), .ofValue (primaryFlags p), .ofValue (primaryCrcType p), di, si,
      ri, .array [slotItem p.created.1, slotItem p.created.2], fieldItem p.lifetime]
      [.int 7, primaryFlags p, primaryCrcType p, dest, source, report, .array [time, seq],
        lifetime] := by
    rw [hlifetime]
    exact .cons (encodeItem_int (n := 7) (by decide)) (.cons (Cbor.Item.encodeItem_ofValue _)
      (.cons (Cbor.Item.encodeItem_ofValue _) (.cons hde (.cons hse (.cons hre (.cons hslots.array
        (.cons (Cbor.Item.encodeItem_ofValue _) .nil)))))))
  have hflagsint : IntField (primaryFlags p) := by
    simp only [Cbor.isNumber, Bool.and_eq_true, decide_eq_true_eq] at hz
    exact ⟨z, hflags, by omega, by omega⟩
  have hcrcint : IntField (primaryCrcType p) := intField_crcType h.crcType
  have hcreatedc : Carried (.array [time, seq]) := by
    exact carried_pair htime.carried hseq.carried ⟨htime.depth_le, hseq.depth_le⟩
  obtain ⟨raw, crcs, hseal, hcrc, henc, hdist, hdepth⟩ := seal_ok (hhead.append hextra) (by
    intro v hv
    rcases List.mem_append.mp hv with hv | hv
    · simp only [List.mem_cons, List.not_mem_nil, or_false] at hv
      rcases hv with rfl | rfl | rfl | rfl | rfl | rfl | rfl | rfl
      · exact carried_int (n := 7) (by decide)
      · exact hflagsint.carried
      · exact hcrcint.carried
      · exact hcdest
      · exact hcsource
      · exact hcreport
      · exact hcreatedc
      · exact hlife.carried
    · exact hcarried v hv) (by
      rw [List.length_append, hcount]
      simp only [List.length_cons, List.length_nil]
      split <;> omega) h.crcType
  refine ⟨raw, _, (encodePrimary_eq hdi hsi hri hfrag).trans hseal, henc, hdist, hdepth, ?_⟩
  have hcrclen := hcrc.length
  have hlen : ¬ ([Cbor.int 7, primaryFlags p, primaryCrcType p, dest, source, report,
      .array [time, seq], lifetime] ++ extra ++ crcs).length ≠
        expectLen frag (some (primaryCrcType p)) := by
    rw [not_not, List.length_append, List.length_append, hcount, hcrclen]
    rfl
  have hcheck : checkCrc raw (some (primaryCrcType p)) ([Cbor.int 7, primaryFlags p,
      primaryCrcType p, dest, source, report, .array [time, seq], lifetime] ++ extra ++ crcs)[
        ([Cbor.int 7, primaryFlags p, primaryCrcType p, dest, source, report, .array [time, seq],
          lifetime] ++ extra ++ crcs).length - 1]? = true := by
    rcases hcrc with ⟨hzero, rfl⟩ | ⟨_, crc, rfl, hcheck⟩
    · rw [hzero]
      rfl
    · rw [← List.getLast?_eq_getElem?, List.getLast?_append]
      exact hcheck
  have hseven : ¬ ([Cbor.int 7, primaryFlags p, primaryCrcType p, dest, source, report,
      .array [time, seq], lifetime] ++ extra ++ crcs)[0]? ≠ some (.int 7) := not_not.mpr rfl
  rw [decodePrimary, if_neg hseven]
  show (fragmentBit N (some (primaryFlags p)) >>= _) = _
  rw [hfrag, Outcome.ok_bind]
  show (if _ ≠ expectLen frag (some (primaryCrcType p)) then _ else
    if checkCrc raw (some (primaryCrcType p)) _ = false then _ else _) = _
  rw [if_neg hlen, if_neg (by rw [hcheck]; simp)]
  show (decodeEid (some dest) >>= _) = _
  rw [hdest.decode, Outcome.ok_bind, hsource.decode, Outcome.ok_bind, hreport.decode,
    Outcome.ok_bind]
  obtain ⟨hoffset, htotal⟩ := hfields crcs
  unfold PrimaryObject.filled
  rw [hcreated, hlifetime, ← hoffset, ← htotal]
  rfl

/-- Reading written items up to the break byte gives their values, each with its bytes. -/
theorem decodeRaws_written {its : List (Cbor × Bytes)} (h : ∀ p ∈ its,
    p.1.Distinct ∧ p.1.depth < Cbor.maxLevels ∧ Cbor.encode p.1 = .ok p.2) :
    ∀ {fuel : Nat}, its.length < fuel →
      decodeRaws fuel ((its.map Prod.snd).flatten ++ [0xff]) = .ok (its, []) := by
  induction its with
  | nil =>
      intro fuel hfuel
      obtain ⟨k, rfl⟩ := Nat.exists_eq_succ_of_ne_zero (Nat.ne_of_gt hfuel)
      rfl
  | cons p its ih =>
      intro fuel hfuel
      obtain ⟨v, raw⟩ := p
      rw [List.forall_mem_cons] at h
      obtain ⟨⟨hdist, hdepth, henc⟩, hrest⟩ := h
      obtain ⟨k, rfl⟩ := Nat.exists_eq_succ_of_ne_zero (Nat.ne_of_gt (Nat.zero_lt_of_lt hfuel))
      rw [List.length_cons] at hfuel
      have hread := Cbor.decodeAt_encode hdist hdepth raw
        ((its.map Prod.snd).flatten ++ [0xff]) henc
      obtain ⟨ib, bs, rfl, hne⟩ := Cbor.encode_ne_break henc
      rw [List.map_cons, List.flatten_cons, List.append_assoc, List.cons_append, decodeRaws,
        if_neg hne, ← List.cons_append, hread, Outcome.ok_bind]
      dsimp only
      rw [ih hrest (by omega), List.length_append, Nat.add_sub_cancel, List.take_left]
      rfl

theorem length_le_flatten {its : List (Cbor × Bytes)} (h : ∀ p ∈ its, Cbor.encode p.1 = .ok p.2) :
    its.length ≤ (its.map Prod.snd).flatten.length := by
  induction its with
  | nil => exact Nat.zero_le _
  | cons p its ih =>
      rw [List.forall_mem_cons] at h
      have hrest := ih h.2
      obtain ⟨ib, bs, hb, _⟩ := Cbor.encode_ne_break h.1
      rw [List.map_cons, List.flatten_cons, hb, List.length_append, List.length_cons,
        List.length_cons]
      omega

/-- Integers that differ are different members of a `Set`. -/
theorem sameKey_int {v w : Cbor} (h : v ≠ w) (hv : IntField v) (hw : IntField w) :
    Cbor.sameKey v w = false := by
  obtain ⟨z, rfl, _⟩ := hv
  obtain ⟨z', rfl, _⟩ := hw
  rw [← Bool.not_eq_true]
  exact fun hsame => h (Cbor.sameKey_eq hsame)

theorem checkNumbers_pairwise {bs : List Block} :
    ∀ {seen : List Cbor}, (∀ b ∈ bs, ∀ v ∈ seen, Cbor.sameKey v b.number = false) →
      (bs.Pairwise fun x y => Cbor.sameKey x.number y.number = false) →
      checkNumbers seen bs = .ok () := by
  induction bs with
  | nil => exact fun _ _ => rfl
  | cons b bs ih =>
      intro seen hseen hpair
      rw [List.pairwise_cons] at hpair
      have hfree : ¬ seen.any (Cbor.sameKey · b.number) = true := by
        rw [List.any_eq_true]
        rintro ⟨v, hv, hsame⟩
        rw [hseen b List.mem_cons_self v hv] at hsame
        cases hsame
      rw [checkNumbers, if_neg hfree]
      refine ih ?_ hpair.2
      intro c hc v hv
      rcases List.mem_append.mp hv with hv | hv
      · exact hseen c (List.mem_cons_of_mem _ hc) v hv
      · rw [List.mem_singleton.mp hv]
        exact hpair.1 c hc

theorem Readable.checkNumbers {o : BundleObject} (h : Readable N o) :
    checkNumbers [] (o.blocks.map BlockObject.filled) = .ok () := by
  refine checkNumbers_pairwise (fun _ _ v hv => by cases hv) ?_
  rw [List.pairwise_map]
  refine h.numbers.imp_of_mem fun {x y} hx hy hne => ?_
  obtain ⟨v, hxv, hv⟩ := (h.blocks x hx).number
  obtain ⟨w, hyw, hw⟩ := (h.blocks y hy).number
  unfold BlockObject.filled
  rw [hxv, hyw]
  refine sameKey_int (fun heq => hne ?_) hv hw
  rw [hxv, hyw]
  exact congrArg some heq

/-- **From the object and back**: what was written is read, with the defaults of the encoder in the
place of what was missing. -/
theorem decodeBundle_encoded {o : BundleObject} (h : Readable N o) :
    ∃ buf, encodeBundle N o = .ok buf ∧ decodeBundle N buf = .ok o.filled := by
  obtain ⟨praw, pv, hprimary, hpenc, hpdist, hpdepth, hpdec⟩ := decodePrimary_encoded h.primary
  obtain ⟨its, hblocks, hits, hcount, hbdec⟩ := decodeBlocks_encoded h.blocks
  refine ⟨0x9f :: (praw ++ (its.map Prod.snd).flatten) ++ [0xff], ?_, ?_⟩
  · rw [encodeBundle, hprimary, Outcome.ok_bind, if_neg (not_not.mpr h.payload), hblocks]
    rfl
  · have hall : ∀ p ∈ (pv, praw) :: its,
        p.1.Distinct ∧ p.1.depth < Cbor.maxLevels ∧ Cbor.encode p.1 = .ok p.2 :=
      List.forall_mem_cons.mpr ⟨⟨hpdist, hpdepth, hpenc⟩, hits⟩
    have hflat : praw ++ (its.map Prod.snd).flatten =
        (((pv, praw) :: its).map Prod.snd).flatten := rfl
    have hlen := length_le_flatten fun p hp => (hall p hp).2.2
    have hraws := @decodeRaws_written _ hall
      (((((pv, praw) :: its).map Prod.snd).flatten ++ [0xff]).length + 1) (by
        rw [List.length_append]
        omega)
    have hne : its ≠ [] := by
      intro hnil
      rw [hnil, List.length_nil] at hcount
      have hpayload := h.payload
      rw [List.length_eq_zero_iff.mp hcount.symm] at hpayload
      cases hpayload
    obtain ⟨q, qs, rfl⟩ := List.exists_cons_of_ne_nil hne
    rw [List.cons_append, hflat, decodeBundle, hraws, Outcome.ok_bind]
    dsimp only
    rw [if_neg (not_not.mpr rfl), hpdec, Outcome.ok_bind, hbdec, Outcome.ok_bind, if_neg, h.checkNumbers]
    · rfl
    · rw [not_not, List.getLast?_map, Option.map_map]
      obtain ⟨x, hx, htype⟩ := Option.map_eq_some_iff.mp h.payload
      rw [hx, Option.map_some, Function.comp_apply, BlockObject.filled, htype]
      rfl

/-- Nothing that has a default is `null`. -/
structure Given (b : Bundle) : Prop where
  flags : b.primary.flags ≠ .null
  crcType : b.primary.crcType ≠ .null
  blocks : ∀ x ∈ b.blocks, x.flags ≠ .null ∧ x.crcType ≠ .null

theorem Given.filled_toObject {b : Bundle} (h : Given b) : b.toObject.filled = b := by
  obtain ⟨primary, blocks⟩ := b
  have hprimary : primary.toObject.filled = primary := by
    have hf : primaryFlags primary.toObject = primary.flags := orElse_of_ne_null h.flags
    have hc : primaryCrcType primary.toObject = primary.crcType := orElse_of_ne_null h.crcType
    rw [PrimaryObject.filled, hf, hc]
    rfl
  have hblock : ∀ x ∈ blocks, x.toObject.filled = x := by
    intro x hx
    have hf : blockFlags x.toObject = x.flags := orElse_of_ne_null (h.blocks x hx).1
    have hc : blockCrcType x.toObject = x.crcType := orElse_of_ne_null (h.blocks x hx).2
    rw [BlockObject.filled, hf, hc]
    rfl
  have hblocks : (blocks.map Block.toObject).map BlockObject.filled = blocks := by
    rw [List.map_map]
    exact (List.map_congr_left hblock).trans (List.map_id _)
  show Bundle.mk primary.toObject.filled ((blocks.map Block.toObject).map BlockObject.filled) = _
  rw [hprimary, hblocks]

/-- The bytes of a bundle in the form the encoder writes: deterministic, with endpoint identifiers
and a timestamp of the usual forms. -/
structure UsualForm (buf : Bytes) : Prop where
  deterministic : DeterministicBundle buf
  size : buf.length ≤ Cbor.maxBuffer
  eids : ∀ p ∈ (items buf).head?, ∀ i ∈ [3, 4, 5], ∃ eid item,
    field p.1 i = some item ∧ EidForm eid item
  created : ∀ p ∈ (items buf).head?, ∃ t q, field p.1 6 = some (.array [t, q])

/-- **Encoding and decoding bundles are inverse.** A proper object comes back with the encoder's
defaults for what was missing, and as it was if nothing was; and bytes of the usual form come back
from the bundle they are read as, if its flags are given and its primary CRC type is `0` or counts as
one. -/
theorem bundle_codec_inverse (N : Node) :
    (∀ o, Proper N o → (encodeBundle N o).bind (decodeBundle N) = .ok o.filled) ∧
      (∀ b, Proper N b.toObject → Given b →
        (encodeBundle N b.toObject).bind (decodeBundle N) = .ok b) ∧
      ∀ buf b, UsualForm buf → decodeBundle N buf = .ok b → b.primary.flags ≠ .null →
        (∀ x ∈ b.blocks, x.flags ≠ .null) →
        (b.primary.crcType = .int 0 ∨ b.primary.crcType.truthy = true) →
        encodeBundle N b.toObject = .ok buf := by
  have hobject : ∀ o, Proper N o → (encodeBundle N o).bind (decodeBundle N) = .ok o.filled := by
    intro o h
    obtain ⟨buf, henc, hdec⟩ := decodeBundle_encoded h.readable
    rw [henc]
    exact hdec
  refine ⟨hobject, ?_, ?_⟩
  · intro b h hgiven
    rw [hobject _ h, hgiven.filled_toObject]
  · intro buf b h hdec hflags hblocks hcrc
    exact encodeBundle_decoded h.deterministic h.size hdec h.eids h.created hflags hblocks hcrc

/-- A fragment from an `ipn` node, with the flags and CRC types left to the encoder. -/
def sampleObject : BundleObject where
  primary := { flags := some (.int 1), dest := "dtn:" ++ "//clinic/in",
               source := "ipn:" ++ toString 7 ++ "." ++ toString 1,
               created := (.val (.int 815000000000), .val (.int 3)), lifetime := some (.int 3600000),
               fragmentOffset := some (.int 0), totalAduLength := some (.int 2) }
  blocks := [{ type := some (.int 10), number := some (.int 2), crcType := some (.int 1),
               data := [0x82, 5, 0] },
             { type := some (.int 1), number := some (.int 1), data := [1] }]

theorem sampleObject_proper : Proper sampleNode sampleObject := by
  have hint : ∀ z : Int, -18446744073709551616 ≤ z → z < 18446744073709551616 → IntField (.int z) :=
    fun z hlo hhi => ⟨z, rfl, hlo, hhi⟩
  refine ⟨⟨⟨1, rfl, by decide⟩, by decide +kernel, ⟨_, .dtn (by decide)⟩,
    ⟨_, .ipn (by decide) (by decide)⟩, ⟨_, .none⟩, by decide +kernel,
    ⟨_, _, rfl, hint _ (by decide) (by decide), hint _ (by decide) (by decide)⟩,
    ⟨_, rfl, hint _ (by decide) (by decide)⟩, ?_⟩, ?_, by decide +kernel, rfl⟩
  · intro frag hfrag
    have hone : fragmentBit sampleNode (some (primaryFlags sampleObject.primary)) = .ok 1 := by
      decide +kernel
    rw [hone] at hfrag
    cases hfrag
    exact ⟨_, _, rfl, rfl, hint _ (by decide) (by decide), hint _ (by decide) (by decide)⟩
  · intro b hb
    simp only [sampleObject, List.mem_cons, List.not_mem_nil, or_false] at hb
    rcases hb with rfl | rfl
    · exact ⟨⟨_, rfl, hint _ (by decide) (by decide)⟩, ⟨_, rfl, hint _ (by decide) (by decide)⟩,
        hint _ (by decide) (by decide), by decide +kernel, by decide⟩
    · exact ⟨⟨_, rfl, hint _ (by decide) (by decide)⟩, ⟨_, rfl, hint _ (by decide) (by decide)⟩,
        hint _ (by decide) (by decide), by decide +kernel, by decide⟩

theorem deterministic_small {n : Nat} (hn : n < 24) :
    Cbor.Deterministic [UInt8.ofNat (0 * 32 + n)] := .uint (Cbor.shortest_direct hn)

theorem deterministic_short {s : Bytes} (hs : s.length < 24) :
    Cbor.Deterministic ([UInt8.ofNat (2 * 32 + s.length)] ++ s) := .bytes (Cbor.shortest_direct hs)

theorem deterministic_array {items : List Bytes} (hlen : items.length < 24)
    (h : ∀ x ∈ items, Cbor.Deterministic x) :
    Cbor.Deterministic ([UInt8.ofNat (4 * 32 + items.length)] ++ items.flatten) :=
  .array (Cbor.shortest_direct hlen) h

/-- The primary block of the samples: `dtn:none` throughout, and a creation time of `[0, 0]`. -/
theorem deterministic_primary {t : Nat} {crcs : List Bytes} (ht : t < 24) (hlen : crcs.length < 8)
    (h : ∀ x ∈ crcs, Cbor.Deterministic x) :
    Cbor.Deterministic ([UInt8.ofNat (4 * 32 + (8 + crcs.length))] ++ ([[7], [0],
      [UInt8.ofNat (0 * 32 + t)], [0x82, 1, 0], [0x82, 1, 0], [0x82, 1, 0], [0x82, 0, 0], [0]] ++
        crcs).flatten) := by
  have hpair : ∀ {n : Nat}, n < 24 → Cbor.Deterministic [0x82, UInt8.ofNat (0 * 32 + n), 0] := by
    intro n hn
    refine @deterministic_array [[UInt8.ofNat (0 * 32 + n)], [0]] (show (2 : Nat) < 24 by decide) ?_
    simp only [List.forall_mem_cons]
    exact ⟨deterministic_small hn, deterministic_small (n := 0) (by decide), fun _ h => by cases h⟩
  have hcount : ([[7], [0], [UInt8.ofNat (0 * 32 + t)], [0x82, 1, 0], [0x82, 1, 0], [0x82, 1, 0],
      [0x82, 0, 0], [0]] ++ crcs).length = 8 + crcs.length := by
    rw [List.length_append]
    rfl
  rw [← hcount]
  refine deterministic_array (by omega) ?_
  rw [List.forall_mem_append]
  simp only [List.forall_mem_cons]
  refine ⟨⟨deterministic_small (n := 7) (by decide), deterministic_small (n := 0) (by decide),
    deterministic_small ht, hpair (n := 1) (by decide), hpair (n := 1) (by decide),
    hpair (n := 1) (by decide), hpair (n := 0) (by decide), deterministic_small (n := 0) (by decide),
    fun _ h => by cases h⟩, h⟩

theorem checkedWire_usual : UsualForm checkedWire := by
  refine ⟨⟨[[0x89, 7, 0, 1, 0x82, 1, 0, 0x82, 1, 0, 0x82, 1, 0, 0x82, 0, 0, 0, 0x42, 79, 241],
    [0x86, 1, 1, 0, 2, 0x41, 9, 0x44, 193, 195, 119, 229]], rfl, ?_⟩, by decide, ?_, ?_⟩
  · simp only [List.forall_mem_cons]
    refine ⟨@deterministic_primary 1 [[0x42, 79, 241]] (by decide) (by decide) ?_,
      @deterministic_array [[1], [1], [0], [2], [0x41, 9], [0x44, 193, 195, 119, 229]] (by decide) ?_,
      fun _ h => by cases h⟩
    · simp only [List.forall_mem_cons]
      exact ⟨@deterministic_short [79, 241] (by decide), fun _ h => by cases h⟩
    · simp only [List.forall_mem_cons]
      exact ⟨deterministic_small (n := 1) (by decide), deterministic_small (n := 1) (by decide),
        deterministic_small (n := 0) (by decide), deterministic_small (n := 2) (by decide),
        @deterministic_short [9] (by decide), @deterministic_short [193, 195, 119, 229] (by decide),
        fun _ h => by cases h⟩
  · have hfields : ∀ p ∈ (items checkedWire).head?, ∀ i ∈ [3, 4, 5],
        field p.1 i = some (.array [.int 1, .int 0]) := by decide +kernel
    exact fun p hp i hi => ⟨_, _, hfields p hp i hi, .none⟩
  · have hfield : ∀ p ∈ (items checkedWire).head?,
        field p.1 6 = some (.array [.int 0, .int 0]) := by decide +kernel
    exact fun p hp => ⟨_, _, hfield p hp⟩

/-- The round trips of `sampleObject` and of `checkedWire`. -/
theorem sampleObject_inverse :
    (encodeBundle sampleNode sampleObject).bind (decodeBundle sampleNode) =
        .ok sampleObject.filled ∧
      (encodeBundle sampleNode (wireBundle 1 2).toObject) = .ok checkedWire :=
  ⟨(bundle_codec_inverse sampleNode).1 _ sampleObject_proper,
    (bundle_codec_inverse sampleNode).2.2 _ _ checkedWire_usual (by decide +kernel)
      (fun h => by cases h) (by decide +kernel) (Or.inr rfl)⟩

/-- Flags of the payload block that are `null`. -/
def nullFlagsWire : Bytes :=
  [0x9f, 0x88, 7, 0, 0, 0x82, 1, 0, 0x82, 1, 0, 0x82, 1, 0, 0x82, 0, 0, 0,
    0x85, 1, 1, 0xf6, 0, 0x41, 9, 0xff]

theorem nullFlagsWire_usual : UsualForm nullFlagsWire := by
  refine ⟨⟨[[0x88, 7, 0, 0, 0x82, 1, 0, 0x82, 1, 0, 0x82, 1, 0, 0x82, 0, 0, 0],
    [0x85, 1, 1, 0xf6, 0, 0x41, 9]], rfl, ?_⟩, by decide, ?_, ?_⟩
  · simp only [List.forall_mem_cons]
    refine ⟨@deterministic_primary 0 [] (by decide) (by decide) (fun _ h => by cases h),
      @deterministic_array [[1], [1], [0xf6], [0], [0x41, 9]] (by decide) ?_, fun _ h => by cases h⟩
    simp only [List.forall_mem_cons]
    exact ⟨deterministic_small (n := 1) (by decide), deterministic_small (n := 1) (by decide),
      .null, deterministic_small (n := 0) (by decide), @deterministic_short [9] (by decide),
      fun _ h => by cases h⟩
  · have hfields : ∀ p ∈ (items nullFlagsWire).head?, ∀ i ∈ [3, 4, 5],
        field p.1 i = some (.array [.int 1, .int 0]) := by decide +kernel
    exact fun p hp i hi => ⟨_, _, hfields p hp i hi, .none⟩
  · have hfield : ∀ p ∈ (items nullFlagsWire).head?,
        field p.1 6 = some (.array [.int 0, .int 0]) := by decide +kernel
    exact fun p hp => ⟨_, _, hfield p hp⟩

/-- **Flags that are `null` are read and not written**: the encoder puts `0` in their place. And
primary flags that are a BigInt can be neither written nor read. -/
theorem nullFlags_lost :
    UsualForm nullFlagsWire ∧
      (∃ b, decodeBundle sampleNode nullFlagsWire = .ok b ∧
        encodeBundle sampleNode b.toObject = .ok (nullFlagsWire.set 21 0)) ∧
      encodeBundle sampleNode { sampleObject with primary :=
        { sampleObject.primary with flags := some (.int 18446744073709551615) } } =
          .error .typeError := by
  refine ⟨nullFlagsWire_usual, ?_, by decide +kernel⟩
  cases hdec : decodeBundle sampleNode nullFlagsWire with
  | error e =>
      have hok : (decodeBundle sampleNode nullFlagsWire).isOk = true := by decide +kernel
      rw [hdec] at hok
      cases hok
  | ok b =>
      refine ⟨b, rfl, ?_⟩
      have hround : ((decodeBundle sampleNode nullFlagsWire).bind fun b =>
          encodeBundle sampleNode b.toObject) = .ok (nullFlagsWire.set 21 0) := by decide +kernel
      rw [hdec] at hround
      exact hround

end Bundle

end DtnCustody
