/-
# DtnCustody.Transport.BundleCodec — `encodeBundle` and `decodeBundle` undo each other.

A block is an array of fields, sealed by a CRC that is computed with zeros in its place and checked
the same way; so sealing what was read gives the bytes it was read from (`seal_checked`), and reading
what was sealed gives the fields back (`seal_reads`). Endpoint identifiers have two writings, a string
and an item (`EidForm`).
-/
import DtnCustody.Transport.BundleShape
import DtnCustody.Transport.Encode

namespace DtnCustody

open Base Js

namespace Bundle

/-! ## Fields -/

/-- The fields of a block, as values of the language and as decoded values, are written alike. -/
inductive Writes : List Cbor.Item → List Cbor → Prop
  | nil : Writes [] []
  | cons {f : Cbor.Item} {v : Cbor} {fs : List Cbor.Item} {vs : List Cbor} :
      f.encodeItem = Cbor.encode v → Writes fs vs → Writes (f :: fs) (v :: vs)

variable {fs gs : List Cbor.Item} {vs ws : List Cbor}

theorem Writes.append (h : Writes fs vs) (h' : Writes gs ws) : Writes (fs ++ gs) (vs ++ ws) := by
  induction h with
  | nil => exact h'
  | cons hf _ ih => exact .cons hf ih

theorem Writes.length_eq (h : Writes fs vs) : fs.length = vs.length := by
  induction h with
  | nil => rfl
  | cons _ _ ih => rw [List.length_cons, List.length_cons, ih]

theorem Writes.encodeItems_eq (h : Writes fs vs) :
    Cbor.Item.encodeItems fs = Cbor.encodeAll vs := by
  induction h with
  | nil => rfl
  | cons hf _ ih => rw [Cbor.Item.encodeItems, Cbor.encodeAll, hf, ih]

theorem Writes.array (h : Writes fs vs) :
    (Cbor.Item.array fs).encodeItem = Cbor.encode (.array vs) := by
  rw [Cbor.Item.encodeItem, Cbor.encode, h.length_eq, h.encodeItems_eq]

theorem Writes.bstr (h : Writes fs vs) (b : Bytes) :
    Writes (fs ++ [.bstr b]) (vs ++ [.bytes b]) :=
  h.append (.cons (by rw [Cbor.Item.encodeItem, Cbor.encode]) .nil)

theorem encodeAll_concat (vs : List Cbor) (v : Cbor) :
    Cbor.encodeAll (vs ++ [v]) =
      (do let a ← Cbor.encodeAll vs; let b ← Cbor.encode v; return a ++ b) := by
  induction vs with
  | nil =>
      rw [List.nil_append, Cbor.encodeAll, Cbor.encodeAll]
      cases Cbor.encode v with
      | error e => rfl
      | ok b => simp [Cbor.encodeAll]
  | cons w vs ih =>
      rw [List.cons_append, Cbor.encodeAll, Cbor.encodeAll, ih]
      cases Cbor.encode w with
      | error e => rfl
      | ok a =>
          cases Cbor.encodeAll vs with
          | error e => rfl
          | ok b =>
              cases Cbor.encode v with
              | error e => rfl
              | ok c => simp

/-- The last byte string of an array ends its bytes, and can be replaced there by one of its length. -/
theorem encode_array_concat {c raw : Bytes}
    (h : Cbor.encode (.array (vs ++ [.bytes c])) = .ok raw) :
    ∃ front, raw = front ++ c ∧ ∀ z : Bytes, z.length = c.length →
      Cbor.encode (.array (vs ++ [.bytes z])) = .ok (front ++ z) := by
  obtain ⟨hd, hhd, h⟩ := Outcome.bind_eq_ok.mp h
  obtain ⟨tl, htl, h⟩ := Outcome.bind_eq_ok.mp h
  cases h
  rw [encodeAll_concat] at htl
  obtain ⟨a, ha, htl⟩ := Outcome.bind_eq_ok.mp htl
  obtain ⟨b, hb, htl⟩ := Outcome.bind_eq_ok.mp htl
  cases htl
  obtain ⟨hc, hhc, hb⟩ := Outcome.bind_eq_ok.mp hb
  cases hb
  refine ⟨hd ++ (a ++ hc), by simp only [List.append_assoc], fun z hz => ?_⟩
  have hlen : (vs ++ [Cbor.bytes z]).length = (vs ++ [Cbor.bytes c]).length := by
    rw [List.length_append, List.length_append]
    rfl
  rw [Cbor.encode, hlen, hhd, encodeAll_concat, ha, Cbor.encode, hz, hhc]
  simp only [Outcome.ok_bind, Outcome.pure_eq_ok, List.append_assoc]

/-! ## Sealing -/

theorem length_crcBytes (t : JsVal) (data : Bytes) : (crcBytes t data).length = crcLen t := by
  unfold crcBytes crcLen
  split
  · rw [length_beBytes]
  · split
    · rw [length_beBytes]
    · rfl

/-- A checked CRC is a byte string of the length of its type, computed with zeros in its place. -/
theorem checkCrc_iff {raw front crc : Bytes} {t : JsVal} (ht : t.isInt 0 = false)
    (hraw : raw = front ++ crc) : checkCrc raw t (some (.bytes crc)) = true ↔
      crc.length = crcLen t ∧ crcBytes t (front ++ List.replicate (crcLen t) 0) = crc := by
  unfold checkCrc
  rw [ht, if_neg (by simp)]
  dsimp only
  rw [Bool.and_eq_true, beq_iff_eq, beq_iff_eq]
  refine and_congr_right fun hlen => ?_
  have htake : raw.take (raw.length - crcLen t) = front := by
    rw [hraw, List.length_append, hlen, Nat.add_sub_cancel, List.take_left]
  rw [htake]

/-- **Sealing what was checked** gives the bytes it was checked on. -/
theorem seal_checked {t : JsVal} {crc raw : Bytes} (hfs : Writes fs vs) (ht : t.isInt 0 = false)
    (henc : Cbor.encode (.array (vs ++ [.bytes crc])) = .ok raw)
    (hcheck : checkCrc raw t (some (.bytes crc)) = true) : sealBlock fs t = .ok raw := by
  obtain ⟨front, hraw, hfront⟩ := encode_array_concat henc
  obtain ⟨hlen, hcrc⟩ := (checkCrc_iff ht hraw).mp hcheck
  have hzero : (List.replicate (crcLen t) (0 : UInt8)).length = crc.length := by
    rw [List.length_replicate, hlen]
  rw [sealBlock, if_neg (by simp [ht]), (hfs.bstr _).array, hfront _ hzero, Outcome.ok_bind, hcrc,
    (hfs.bstr _).array, henc]

/-- **What was sealed is checked.** -/
theorem seal_reads {t : JsVal} {raw : Bytes} (hfs : Writes fs vs) (ht : t.isInt 0 = false)
    (h : sealBlock fs t = .ok raw) : ∃ crc, Cbor.encode (.array (vs ++ [.bytes crc])) = .ok raw ∧
      checkCrc raw t (some (.bytes crc)) = true := by
  rw [sealBlock, if_neg (by simp [ht])] at h
  obtain ⟨zeroed, hzeroed, h⟩ := Outcome.bind_eq_ok.mp h
  rw [(hfs.bstr _).array] at hzeroed h
  refine ⟨_, h, ?_⟩
  obtain ⟨front, hz, hfront⟩ := encode_array_concat hzeroed
  have hlen : (crcBytes t zeroed).length = (List.replicate (crcLen t) (0 : UInt8)).length := by
    rw [length_crcBytes, List.length_replicate]
  rw [hfront _ hlen, Except.ok.injEq] at h
  rw [checkCrc_iff ht h.symm, ← hz]
  exact ⟨length_crcBytes t zeroed, rfl⟩

theorem seal_zero {t : JsVal} (hfs : Writes fs vs) (ht : t.isInt 0 = true) :
    sealBlock fs t = Cbor.encode (.array vs) := by
  rw [sealBlock, if_pos ht, hfs.array]

/-! ## Endpoint identifiers -/

/-- **The endpoint identifiers of the round trip**, as strings and as items. -/
inductive EidForm : String → Cbor → Prop
  | none : EidForm "dtn:none" (.array [.int 1, .int 0])
  | dtn {path : String} : isDtnPath path.toList = true →
      EidForm ("dtn:" ++ path) (.array [.int 1, .text path])
  | ipn {node service : Nat} : node ≤ 9007199254740991 → service ≤ 9007199254740991 →
      EidForm ("ipn:" ++ toString node ++ "." ++ toString service)
        (.array [.int 2, .array [.int node, .int service]])

theorem encodeItem_int {n : Nat} (h : n ≤ 9007199254740991) :
    (Cbor.Item.num (.fin (n : ℚ))).encodeItem = Cbor.encode (.int n) := by
  have hnum : ((n : ℚ)).num = n := Rat.num_natCast n
  have hden : ((n : ℚ)).den = 1 := Rat.den_natCast n
  rw [Cbor.Item.encodeItem, Cbor.encode, if_neg (by simp [hden]), hnum, if_neg (by omega),
    if_neg (by omega), Int.toNat_natCast, Cbor.lengthHead, if_pos h]

theorem isDigit_of_mem {n : Nat} {c : Char} (h : c ∈ (toString n).toList) : isDigit c = true :=
  Nat.isDigit_of_mem_toDigits (b := 10) (by decide) (by decide) (by rwa [← Nat.toList_repr])

theorem numberOfDigits_toString {n : Nat} (h : n ≤ 9007199254740991) :
    numberOfDigits (toString n).toList = .fin n := by
  have hn : Nat.ofDigitChars 10 (toString n).toList 0 = n := by
    have hlist : (toString n).toList = Nat.toDigits 10 n := Nat.toList_repr
    rw [hlist, Nat.ofDigitChars_toDigits (by decide) (by decide)]
  have hbig : (9007199254740991 : Nat) < 2 ^ 1024 - 2 ^ 970 := by decide +kernel
  rw [numberOfDigits, hn, if_pos (lt_of_le_of_lt h hbig)]

theorem ipnParts_toString (node service : Nat) :
    ipnParts ((toString node).toList ++ '.' :: (toString service).toList) =
      some ((toString node).toList, (toString service).toList) := by
  have hne : ∀ n : Nat, (toString n).toList ≠ [] := by
    intro n h
    rw [show (toString n).toList = Nat.toDigits 10 n from Nat.toList_repr] at h
    exact Nat.toDigits_ne_nil h
  have hdigits : ∀ c ∈ (toString node).toList, isDigit c = true := fun c hc => isDigit_of_mem hc
  have hdot : isDigit '.' = false := by decide
  rw [ipnParts, List.dropWhile_append_of_pos hdigits, List.takeWhile_append_of_pos hdigits,
    List.dropWhile_cons_of_neg (by simp [hdot]), List.takeWhile_cons_of_neg (by simp [hdot]),
    List.append_nil]
  exact if_pos ⟨hne node, hne service, List.all_eq_true.mpr fun c hc => isDigit_of_mem hc⟩

theorem encodeEid_dtn {path : String} (hpath : isDtnPath path.toList = true) :
    encodeEid ("dtn:" ++ path) =
      .ok (.array [.num (.fin 1), .text (utf16 path.toList)]) := by
  have hne : "dtn:" ++ path ≠ "dtn:none" := by
    intro h
    have hlist := congrArg String.toList h
    rw [String.toList_append] at hlist
    have hnone : path.toList = "none".toList := by
      exact List.append_cancel_left hlist
    rw [hnone] at hpath
    exact absurd hpath (by decide)
  rw [encodeEid, if_neg hne, String.toList_append]
  show (if isDtnPath path.toList = true then _ else _) = _
  rw [if_pos hpath]
  rfl

theorem encodeEid_ipnParts {eid : String} {rest : List Char} (hne : eid ≠ "dtn:none")
    (hlist : eid.toList = 'i' :: 'p' :: 'n' :: ':' :: rest) :
    encodeEid eid = match ipnParts rest with
      | some (node, service) =>
          .ok (.array [.num (.fin 2), .array [.num (numberOfDigits node), .num (numberOfDigits service)]])
      | none => .error (.error ("unsupported EID " ++ eid)) := by
  rw [encodeEid, if_neg hne, hlist]
  rfl

theorem encodeEid_ipn {node service : Nat} (hnode : node ≤ 9007199254740991)
    (hservice : service ≤ 9007199254740991) :
    encodeEid ("ipn:" ++ toString node ++ "." ++ toString service) =
      .ok (.array [.num (.fin 2), .array [.num (.fin node), .num (.fin service)]]) := by
  have hlist : ("ipn:" ++ toString node ++ "." ++ toString service).toList =
      'i' :: 'p' :: 'n' :: ':' ::
        ((toString node).toList ++ '.' :: (toString service).toList) := by
    simp [String.toList_append]
  have hne : "ipn:" ++ toString node ++ "." ++ toString service ≠ "dtn:none" := by
    intro h
    have hchars := congrArg String.toList h
    rw [hlist] at hchars
    exact absurd (List.cons.inj hchars).1 (by decide)
  rw [encodeEid_ipnParts hne hlist, ipnParts_toString]
  dsimp only
  rw [numberOfDigits_toString hnode, numberOfDigits_toString hservice]

/-- An identifier is written as its item. -/
theorem EidForm.encode {eid : String} {v : Cbor} (h : EidForm eid v) :
    ∃ item, encodeEid eid = .ok item ∧ item.encodeItem = Cbor.encode v := by
  cases h with
  | none =>
      refine ⟨_, rfl, ?_⟩
      exact (Writes.cons (encodeItem_int (n := 1) (by decide))
        (.cons (encodeItem_int (n := 0) (by decide)) .nil)).array
  | @dtn path hpath =>
      refine ⟨_, encodeEid_dtn hpath, ?_⟩
      refine (Writes.cons (encodeItem_int (n := 1) (by decide)) (.cons ?_ .nil)).array
      rw [Cbor.Item.encodeItem, Cbor.encode, toUtf8, scalars_utf16]
  | @ipn node service hnode hservice =>
      refine ⟨_, encodeEid_ipn hnode hservice, ?_⟩
      refine (Writes.cons (encodeItem_int (n := 2) (by decide)) (.cons ?_ .nil)).array
      exact (Writes.cons (encodeItem_int hnode) (.cons (encodeItem_int hservice) .nil)).array

/-- An item is read as its identifier. -/
theorem EidForm.decode {eid : String} {v : Cbor} (h : EidForm eid v) :
    decodeEid (some v) = .ok eid := by
  cases h with
  | none => simp [decodeEid]
  | dtn hpath => simp [decodeEid, Cbor.toText]
  | ipn hnode hservice =>
      simp only [decodeEid, Cbor.toText]
      rw [if_neg (by simp)]
      rfl

/-- An item has one identifier. -/
theorem EidForm.unique {eid eid' : String} {v : Cbor} (h : EidForm eid v)
    (h' : decodeEid (some v) = .ok eid') : eid' = eid := by
  rw [h.decode, Except.ok.injEq] at h'
  exact h'.symm

/-! ## From the bytes and back -/

theorem orElse_of_ne_null {v d : Cbor} (h : v ≠ .null) : JsVal.orElse (some v) d = v := by
  cases v <;> first | rfl | exact absurd rfl h

theorem checkCrc_bytes {raw : Bytes} {t v : JsVal} (ht : t.isInt 0 = false)
    (h : checkCrc raw t v = true) : ∃ crc, v = some (.bytes crc) := by
  unfold checkCrc at h
  rw [ht, if_neg (by simp)] at h
  split at h
  · exact ⟨_, rfl⟩
  · cases h

theorem isInt_zero_iff {v : Cbor} : JsVal.isInt (some v) 0 = true ↔ v = .int 0 := by
  rw [JsVal.isInt_iff, Option.some.injEq]

/-- The CRC field of a checked block is missing for type 0 and a byte string otherwise. -/
theorem BlockParts.cases {v : Cbor} {raw : Bytes} {b : Block} {more : List Cbor}
    (h : BlockParts v raw b more) : (b.crcType = .int 0 ∧ more = []) ∨
      (JsVal.isInt (some b.crcType) 0 = false ∧ b.crcType ≠ .null ∧
        ∃ crc, more = [.bytes crc] ∧ checkCrc raw (some b.crcType) (some (.bytes crc)) = true) := by
  have hlen := h.length
  cases hzero : JsVal.isInt (some b.crcType) 0 with
  | true =>
      rw [isInt_zero_iff] at hzero
      rw [hzero] at hlen
      exact Or.inl ⟨hzero, List.length_eq_zero_iff.mp (by
        have hfalsy : Cbor.truthy (.int 0) = false := rfl
        rw [hfalsy] at hlen
        simpa using hlen)⟩
  | false =>
      obtain ⟨crc, hcrc⟩ := checkCrc_bytes hzero h.check
      have hcheck := h.check
      rw [hcrc] at hcheck
      have hone : more.length = 1 := by
        have hpos : 0 < more.length := by
          cases more with
          | nil => cases hcrc
          | cons _ _ => simp
        split at hlen <;> omega
      obtain ⟨c, rfl⟩ := List.length_eq_one_iff.mp hone
      cases hcrc
      refine Or.inr ⟨rfl, ?_, crc, rfl, hcheck⟩
      intro hnull
      rw [hnull] at hlen
      cases hlen

theorem writes_block {b : Block} (hflags : b.flags ≠ .null) (hcrc : b.crcType ≠ .null) :
    Writes [fieldItem b.toObject.type, fieldItem b.toObject.number, .ofValue (blockFlags b.toObject),
      .ofValue (blockCrcType b.toObject), .bstr b.toObject.data]
      [b.type, b.number, b.flags, b.crcType, .bytes b.data] := by
  have hf : blockFlags b.toObject = b.flags := orElse_of_ne_null hflags
  have hc : blockCrcType b.toObject = b.crcType := orElse_of_ne_null hcrc
  rw [hf, hc]
  exact .cons (Cbor.Item.encodeItem_ofValue _) (.cons (Cbor.Item.encodeItem_ofValue _)
    (.cons (Cbor.Item.encodeItem_ofValue _) (.cons (Cbor.Item.encodeItem_ofValue _)
      (.cons (by rw [Cbor.Item.encodeItem, Cbor.encode]; rfl) .nil))))

/-- **A block that was read is written as it was.** -/
theorem encodeBlock_decoded {i : Nat} {v : Cbor} {raw : Bytes} {b : Block}
    (h : decodeBlock i v raw = .ok b) (henc : Cbor.encode v = .ok raw) (hflags : b.flags ≠ .null) :
    encodeBlock b.toObject = .ok raw := by
  obtain ⟨more, hparts⟩ := decodeBlock_parts h
  rw [hparts.value] at henc
  rcases hparts.cases with ⟨hzero, rfl⟩ | ⟨hzero, hnull, crc, rfl, hcheck⟩
  · have hnull : b.crcType ≠ .null := by
      rw [hzero]
      intro h
      cases h
    have hc : blockCrcType b.toObject = b.crcType := orElse_of_ne_null hnull
    have htype : JsVal.isInt (some (blockCrcType b.toObject)) 0 = true := by
      rw [hc, isInt_zero_iff, hzero]
    rw [List.append_nil] at henc
    rw [encodeBlock, seal_zero (writes_block hflags hnull) htype, henc]
  · have hc : blockCrcType b.toObject = b.crcType := orElse_of_ne_null hnull
    rw [← hc] at hzero hcheck
    exact seal_checked (writes_block hflags hnull) hzero henc hcheck

theorem encodeBlocks_decoded {items : List (Cbor × Bytes)} :
    ∀ {i : Nat} {bs : List Block}, decodeBlocks i items = .ok bs →
      (∀ p ∈ items, Cbor.encode p.1 = .ok p.2) → (∀ b ∈ bs, b.flags ≠ .null) →
      encodeBlocks (bs.map Block.toObject) = .ok (items.map Prod.snd).flatten := by
  induction items with
  | nil =>
      intro i bs h _ _
      cases h
      rfl
  | cons p items ih =>
      intro i bs h henc hflags
      obtain ⟨v, raw⟩ := p
      obtain ⟨b, hb, h⟩ := Outcome.bind_eq_ok.mp h
      obtain ⟨rest, hrest, h⟩ := Outcome.bind_eq_ok.mp h
      cases h
      rw [List.forall_mem_cons] at henc hflags
      rw [List.map_cons, encodeBlocks, encodeBlock_decoded hb henc.1 hflags.1,
        ih hrest henc.2 hflags.2]
      rfl

variable {N : Node}

/-- The timestamp of two elements. -/
theorem index_two {t q : Cbor} {s s' : Slot}
    (h : (Cbor.array [t, q]).index 0 = .ok s ∧ (Cbor.array [t, q]).index 1 = .ok s') :
    s = .val t ∧ s' = .val q := by
  obtain ⟨h0, h1⟩ := h
  cases h0
  cases h1
  exact ⟨rfl, rfl⟩

/-- The fields that are sealed. -/
theorem encodePrimary_eq {p : PrimaryObject} {dest source reportTo : Cbor.Item} {frag : Nat}
    (hdest : encodeEid p.dest = .ok dest) (hsource : encodeEid p.source = .ok source)
    (hreport : encodeEid (p.reportTo.getD "dtn:none") = .ok reportTo)
    (hfrag : fragmentBit N (some (primaryFlags p)) = .ok frag) :
    encodePrimary N p = sealBlock
      ([.num (.fin 7), .ofValue (primaryFlags p), .ofValue (primaryCrcType p), dest, source, reportTo,
        .array [slotItem p.created.1, slotItem p.created.2], fieldItem p.lifetime] ++
        if frag = 0 then [] else [fieldItem p.fragmentOffset, fieldItem p.totalAduLength])
      (some (primaryCrcType p)) := by
  rw [encodePrimary, hdest, Outcome.ok_bind, hsource, Outcome.ok_bind, hreport, Outcome.ok_bind,
    hfrag, Outcome.ok_bind]
  by_cases hzero : frag = 0
  · rw [if_pos hzero, if_pos hzero, List.append_nil]
  · rw [if_neg hzero, if_neg hzero]

/-- **A primary block that was read is written as it was.** -/
theorem encodePrimary_decoded {v : Cbor} {raw : Bytes} {p : Primary}
    (h : decodePrimary N raw v = .ok p) (henc : Cbor.encode v = .ok raw)
    (heids : ∀ i ∈ [3, 4, 5], ∃ eid item, field v i = some item ∧ EidForm eid item)
    (htime : ∃ t q, field v 6 = some (.array [t, q])) (hflags : p.flags ≠ .null)
    (hcrc : p.crcType = .int 0 ∨ p.crcType.truthy = true) :
    encodePrimary N p.toObject = .ok raw := by
  obtain ⟨frag, dest, source, reportTo, created, tail, hp⟩ := decodePrimary_parts h
  have hv := hp.value
  subst hv
  -- the items of the endpoint identifiers and of the timestamp
  obtain ⟨_, _, hitem, hdest⟩ := heids 3 (by simp)
  cases hitem
  obtain ⟨_, _, hitem, hsource⟩ := heids 4 (by simp)
  cases hitem
  obtain ⟨_, _, hitem, hreport⟩ := heids 5 (by simp)
  cases hitem
  obtain ⟨t, q, hitem⟩ := htime
  cases hitem
  obtain ⟨ht, hq⟩ := index_two hp.times
  have hd := hdest.unique hp.eids.1
  have hs := hsource.unique hp.eids.2.1
  have hr := hreport.unique hp.eids.2.2
  rw [← hd] at hdest
  rw [← hs] at hsource
  rw [← hr] at hreport
  obtain ⟨di, hdi, hde⟩ := hdest.encode
  obtain ⟨si, hsi, hse⟩ := hsource.encode
  obtain ⟨ri, hri, hre⟩ := hreport.encode
  have hnull : p.crcType ≠ .null := by
    rintro h
    rw [h] at hcrc
    rcases hcrc with hcrc | hcrc <;> cases hcrc
  have hf : primaryFlags p.toObject = p.flags := orElse_of_ne_null hflags
  have hc : primaryCrcType p.toObject = p.crcType := orElse_of_ne_null hnull
  have hfields : Writes [.num (.fin 7), .ofValue p.flags, .ofValue p.crcType, di, si, ri,
      .array [slotItem p.created.1, slotItem p.created.2], fieldItem (some p.lifetime)]
      [.int 7, p.flags, p.crcType, dest, source, reportTo, .array [t, q], p.lifetime] := by
    have hslots : Writes [slotItem p.created.1, slotItem p.created.2] [t, q] := by
      rw [ht, hq]
      exact .cons (Cbor.Item.encodeItem_ofValue _) (.cons (Cbor.Item.encodeItem_ofValue _) .nil)
    exact .cons (encodeItem_int (n := 7) (by decide)) (.cons (Cbor.Item.encodeItem_ofValue _)
      (.cons (Cbor.Item.encodeItem_ofValue _) (.cons hde (.cons hse (.cons hre (.cons hslots.array
        (.cons (Cbor.Item.encodeItem_ofValue _) .nil)))))))
  have hhead := encodePrimary_eq (p := p.toObject) hdi hsi hri (by rw [hf]; exact hp.bit)
  rw [hf, hc] at hhead
  change _ = sealBlock ([.num (.fin 7), .ofValue p.flags, .ofValue p.crcType, di, si, ri,
    .array [slotItem p.created.1, slotItem p.created.2], fieldItem (some p.lifetime)] ++
    if frag = 0 then [] else [fieldItem p.fragmentOffset, fieldItem p.totalAduLength])
    (some p.crcType) at hhead
  -- the fragment fields, and what stands behind them
  obtain ⟨extra, crcs, hextra, htail, hcount⟩ : ∃ extra crcs,
      Writes (if frag = 0 then [] else [fieldItem p.fragmentOffset, fieldItem p.totalAduLength])
        extra ∧ tail = extra ++ crcs ∧ crcs.length = if p.crcType.truthy then 1 else 0 := by
    have hlen := hp.length
    have hfrag := hp.fragment
    by_cases hzero : frag = 0
    · refine ⟨[], tail, ?_, rfl, ?_⟩
      · rw [if_pos hzero]
        exact .nil
      · rw [if_pos hzero, Nat.zero_add] at hlen
        exact hlen
    · rw [if_neg hzero] at hlen
      rw [if_neg hzero, if_neg hzero] at hfrag
      match tail, hlen, hfrag with
      | a :: b :: crcs, hlen, hfrag =>
          refine ⟨[a, b], crcs, ?_, rfl, ?_⟩
          · rw [if_neg hzero, hfrag.1, hfrag.2]
            exact .cons (Cbor.Item.encodeItem_ofValue _) (.cons (Cbor.Item.encodeItem_ofValue _) .nil)
          · simp only [List.length_cons] at hlen
            omega
      | [a], hlen, _ => exact absurd hlen (by simp; split <;> omega)
      | [], hlen, _ => exact absurd hlen (by simp; split <;> omega)
  have hall := hfields.append hextra
  rw [hhead]
  cases hzero : JsVal.isInt (some p.crcType) 0 with
  | true =>
      have hempty : crcs = [] := by
        rw [isInt_zero_iff] at hzero
        rw [hzero] at hcount
        exact List.length_eq_zero_iff.mp hcount
      rw [hempty, List.append_nil] at htail
      rw [seal_zero hall hzero, ← htail, henc]
  | false =>
      have htruthy : p.crcType.truthy = true := by
        refine hcrc.resolve_left fun h => ?_
        rw [isInt_zero_iff.mpr h] at hzero
        cases hzero
      rw [htruthy, if_pos rfl] at hcount
      obtain ⟨c, rfl⟩ := List.length_eq_one_iff.mp hcount
      have hcheck := hp.check
      have hlast : (p.lifetime :: tail).getLast? = some c := by
        rw [htail, ← List.cons_append, List.getLast?_append]
        rfl
      rw [hlast] at hcheck
      obtain ⟨crc, hcrc⟩ := checkCrc_bytes hzero hcheck
      cases hcrc
      refine seal_checked hall hzero ?_ hcheck
      rw [List.append_assoc, ← htail]
      exact henc

/-- Bytes of a bundle in deterministic form, but for the outer array. -/
def DeterministicBundle (buf : Bytes) : Prop :=
  ∃ raws : List Bytes, buf = 0x9f :: raws.flatten ++ [0xff] ∧
    ∀ raw ∈ raws, Cbor.Deterministic raw

/-- Reading encodings up to the break byte gives their values, each with its bytes. -/
theorem decodeRaws_encodings {raws : List Bytes}
    (h : ∀ raw ∈ raws, ∃ v : Cbor, v.Distinct ∧ Cbor.encode v = .ok raw) :
    ∀ {fuel : Nat} {its : List (Cbor × Bytes)} {rest : Bytes},
      decodeRaws fuel (raws.flatten ++ [0xff]) = .ok (its, rest) →
        its.map Prod.snd = raws ∧ ∀ p ∈ its, Cbor.encode p.1 = .ok p.2 := by
  induction raws with
  | nil =>
      intro fuel its rest hread
      cases fuel with
      | zero => cases hread
      | succ fuel =>
          cases hread
          exact ⟨rfl, fun _ hp => by cases hp⟩
  | cons raw raws ih =>
      intro fuel its rest hread
      rw [List.forall_mem_cons] at h
      obtain ⟨⟨v, hv, hraw⟩, hrest⟩ := h
      obtain ⟨ib, bs, rfl, hne⟩ := Cbor.encode_ne_break hraw
      rw [List.flatten_cons, List.append_assoc] at hread
      cases fuel with
      | zero => cases hread
      | succ fuel =>
          rw [List.cons_append, decodeRaws, if_neg hne] at hread
          obtain ⟨⟨w, r⟩, hw, hread⟩ := Outcome.bind_eq_ok.mp hread
          obtain ⟨⟨ws, r'⟩, hws, hread⟩ := Outcome.bind_eq_ok.mp hread
          cases hread
          rw [← List.cons_append] at hw
          obtain ⟨rfl, rfl⟩ := Cbor.decodeAt_encode_eq hv hraw hw
          obtain ⟨hsnd, henc⟩ := ih hrest hws
          have htake : (ib :: (bs ++ (raws.flatten ++ [0xff]))).take
              ((ib :: (bs ++ (raws.flatten ++ [0xff]))).length - (raws.flatten ++ [0xff]).length) =
                ib :: bs := by
            rw [← List.cons_append, List.length_append, Nat.add_sub_cancel, List.take_left]
          refine ⟨?_, List.forall_mem_cons.mpr ⟨?_, henc⟩⟩
          · rw [List.map_cons, hsnd]
            exact congrArg (· :: raws) htake
          · show Cbor.encode w = .ok (List.take _ _)
            rw [htake, hraw]

/-- **From the wire and back**: deterministic bytes, with endpoint identifiers and a timestamp of the
usual forms, and no flags or CRC type for which the encoder would put a default. -/
theorem encodeBundle_decoded {buf : Bytes} {b : Bundle} (hdet : DeterministicBundle buf)
    (hlen : buf.length ≤ Cbor.maxBuffer) (h : decodeBundle N buf = .ok b)
    (heids : ∀ p ∈ (items buf).head?, ∀ i ∈ [3, 4, 5], ∃ eid item,
      field p.1 i = some item ∧ EidForm eid item)
    (htime : ∀ p ∈ (items buf).head?, ∃ t q, field p.1 6 = some (.array [t, q]))
    (hflags : b.primary.flags ≠ .null) (hblocks : ∀ x ∈ b.blocks, x.flags ≠ .null)
    (hcrc : b.primary.crcType = .int 0 ∨ b.primary.crcType.truthy = true) :
    encodeBundle N b.toObject = .ok buf := by
  obtain ⟨raws, hbuf, hraws⟩ := hdet
  obtain ⟨p, rest, hparts⟩ := decodeBundle_parts N h
  have hsize : ∀ raw ∈ raws, raw.length ≤ Cbor.maxBuffer := by
    intro raw hraw
    have := (List.sublist_flatten_of_mem hraw).length_le
    rw [hbuf, List.length_append, List.length_cons] at hlen
    omega
  have hread : ∃ r, decodeRaws buf.length (raws.flatten ++ [0xff]) = .ok (items buf, r) := by
    have hitems := hparts.items
    have htail : buf.tail = raws.flatten ++ [0xff] := by
      rw [hbuf]
      rfl
    unfold items at hitems ⊢
    rw [htail] at hitems ⊢
    split at hitems
    · rename_i its r heq
      rw [heq]
      exact ⟨r, rfl⟩
    · cases hitems
  obtain ⟨r, hread⟩ := hread
  obtain ⟨hsnd, henc⟩ := decodeRaws_encodings
    (fun raw hraw => (hraws raw hraw).encodes (hsize raw hraw)) hread
  rw [hparts.items] at hsnd henc heids htime
  rw [List.forall_mem_cons] at henc
  have hprimary := encodePrimary_decoded hparts.primary henc.1 (heids p rfl) (htime p rfl) hflags hcrc
  have hrest := encodeBlocks_decoded hparts.blocks henc.2 hblocks
  have hlast : (b.toObject.blocks.getLast?.map BlockObject.type) = some (some payloadType) := by
    have hlast := hparts.last
    show ((b.blocks.map Block.toObject).getLast?).map BlockObject.type = _
    rw [List.getLast?_map, Option.map_map]
    obtain ⟨x, hx, htype⟩ := Option.map_eq_some_iff.mp hlast
    rw [hx, ← htype]
    rfl
  rw [encodeBundle]
  show (encodePrimary N b.primary.toObject >>= _) = _
  rw [hprimary, Outcome.ok_bind, if_neg (not_not.mpr hlast)]
  show (encodeBlocks (b.blocks.map Block.toObject) >>= _) = _
  rw [hrest, Outcome.ok_bind, hbuf, ← hsnd]
  rfl

end Bundle

end DtnCustody
