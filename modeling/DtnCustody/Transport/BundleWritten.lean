/-
# DtnCustody.Transport.BundleWritten — whatever `encodeBundle` wrote, `decodeBundle` reads.

The encoder takes endpoint identifiers that it does not give back: `ipn:01.1` and `ipn:1.1` are written
alike. So the identifiers of the bundle that is read are some that are written as those of the object
(`encodeEid_reads`); every other field is the object's own, with the defaults of the encoder
(`decodeBundle_written`). No bound is assumed on a length: what was written fits.
-/
import DtnCustody.Transport.BundleInverse

namespace DtnCustody

open Base Js

namespace Bundle

variable {N : Node}

/-! ## What was written, field by field -/

theorem encodeItems_each {fs : List Cbor.Item} {b : Bytes} (h : Cbor.Item.encodeItems fs = .ok b) :
    ∀ f ∈ fs, ∃ c, f.encodeItem = .ok c := by
  induction fs generalizing b with
  | nil => exact fun f hf => by cases hf
  | cons f fs ih =>
      rw [Cbor.Item.encodeItems] at h
      obtain ⟨c, hc, h⟩ := Outcome.bind_eq_ok.mp h
      obtain ⟨d, hd, _⟩ := Outcome.bind_eq_ok.mp h
      exact List.forall_mem_cons.mpr ⟨⟨c, hc⟩, ih hd⟩

theorem encodeArray_each {fs : List Cbor.Item} {b : Bytes}
    (h : (Cbor.Item.array fs).encodeItem = .ok b) : ∀ f ∈ fs, ∃ c, f.encodeItem = .ok c := by
  rw [Cbor.Item.encodeItem] at h
  obtain ⟨_, _, h⟩ := Outcome.bind_eq_ok.mp h
  obtain ⟨c, hc, _⟩ := Outcome.bind_eq_ok.mp h
  exact encodeItems_each hc

theorem sealBlock_each {fs : List Cbor.Item} {t : JsVal} {raw : Bytes}
    (h : sealBlock fs t = .ok raw) : ∀ f ∈ fs, ∃ c, f.encodeItem = .ok c := by
  unfold sealBlock at h
  split at h
  · exact encodeArray_each h
  · obtain ⟨zeroed, hzeroed, _⟩ := Outcome.bind_eq_ok.mp h
    exact fun f hf => encodeArray_each hzeroed f (List.mem_append_left _ hf)

theorem length_le_of_bstr {b c : Bytes} (h : (Cbor.Item.bstr b).encodeItem = .ok c) :
    b.length ≤ Cbor.maxBuffer := by
  rw [Cbor.Item.encodeItem] at h
  obtain ⟨_, hhd, _⟩ := Outcome.bind_eq_ok.mp h
  exact (Cbor.lengthHead_ok hhd).1

/-! ## Endpoint identifiers -/

/-- Digits that were written spell a number that is read back. -/
theorem numberOfDigits_written {cs : List Char} {b : Bytes}
    (h : (Cbor.Item.num (numberOfDigits cs)).encodeItem = .ok b) :
    ∃ n : Nat, n ≤ 9007199254740991 ∧ numberOfDigits cs = .fin n := by
  unfold numberOfDigits at h ⊢
  dsimp only at h ⊢
  split at h
  · rename_i hlt
    rw [if_pos hlt]
    refine ⟨_, ?_, rfl⟩
    rw [Cbor.Item.encodeItem, if_neg (by simp), Rat.num_natCast, if_neg (by omega)] at h
    simpa using (Cbor.lengthHead_ok h).1
  · cases h

/-- **An identifier that was written is written like one that is read back.** -/
theorem encodeEid_reads {eid : String} {item : Cbor.Item} {b : Bytes} (h : encodeEid eid = .ok item)
    (hitem : item.encodeItem = .ok b) : ∃ eid', encodeEid eid' = .ok item ∧ EidReads eid' := by
  unfold encodeEid at h
  split at h
  · cases h
    exact ⟨"dtn:none", rfl, _, .none, carried_pair (carried_int (n := 1) (by decide))
      (carried_int (n := 0) (by decide)) ⟨by decide, by decide⟩⟩
  · split at h
    · rename_i path hlist
      split at h
      · rename_i hpath
        cases h
        have hchars : (String.ofList path).toList = path := String.toList_ofList
        refine ⟨"dtn:" ++ String.ofList path, ?_, _, .dtn (by rwa [hchars]), ?_⟩
        · rw [encodeEid_dtn (by rwa [hchars]), hchars]
        · obtain ⟨c, hc⟩ := encodeArray_each hitem (.text (utf16 path)) (by simp)
          rw [Cbor.Item.encodeItem, toUtf8, scalars_utf16] at hc
          obtain ⟨_, hhd, _⟩ := Outcome.bind_eq_ok.mp hc
          refine carried_pair (carried_int (n := 1) (by decide)) (carried_text ?_)
            ⟨by decide, Nat.zero_le _⟩
          rw [hchars]
          exact (Cbor.lengthHead_ok hhd).1
      · cases h
    · rename_i rest hlist
      split at h
      · rename_i node service hparts
        cases h
        obtain ⟨c, hc⟩ := encodeArray_each hitem _ (List.mem_cons_of_mem _ List.mem_cons_self)
        obtain ⟨c1, hc1⟩ := encodeArray_each hc _ List.mem_cons_self
        obtain ⟨c2, hc2⟩ := encodeArray_each hc _ (List.mem_cons_of_mem _ List.mem_cons_self)
        obtain ⟨n, hn, hnode⟩ := numberOfDigits_written hc1
        obtain ⟨m, hm, hservice⟩ := numberOfDigits_written hc2
        rw [hnode, hservice]
        refine ⟨_, encodeEid_ipn hn hm, _, .ipn hn hm, ?_⟩
        have hinner : Carried (.array [.int n, .int m]) :=
          carried_pair (carried_int hn) (carried_int hm) ⟨Nat.zero_le _, Nat.zero_le _⟩
        exact carried_pair (carried_int (n := 2) (by decide)) hinner
          ⟨by decide, by simp [Cbor.depth, Cbor.depthAll]⟩
      · cases h
    · cases h

/-- The second identifier is read where the first one was written. -/
def ReadAs (eid eid' : String) : Prop := EidReads eid' ∧ encodeEid eid' = encodeEid eid

/-- What is read does not depend on the bundle around it. -/
theorem ReadAs.unique {eid a b : String} (ha : ReadAs eid a) (hb : ReadAs eid b) : a = b := by
  obtain ⟨⟨v, hv, hvdist, _, bytes, hbytes⟩, hwritten⟩ := ha
  obtain ⟨⟨w, hw, hwdist, _, _⟩, hwritten'⟩ := hb
  obtain ⟨item, hitem, hitemv⟩ := hv.encode
  obtain ⟨item', hitem', hitemw⟩ := hw.encode
  rw [hwritten, ← hwritten', hitem', Except.ok.injEq] at hitem
  have hvalue : v = w := by
    apply Cbor.encode_inj hvdist hwdist hbytes
    rw [← hitemw, hitem, hitemv, hbytes]
  rw [hvalue] at hv
  exact hw.unique hv.decode

/-! ## The bundle -/

/-- The primary block with other endpoint identifiers. -/
def withEids (p : PrimaryObject) (dest source reportTo : String) : PrimaryObject :=
  { p with dest, source, reportTo := some reportTo }

/-- The object with other endpoint identifiers. -/
def readdressed (o : BundleObject) (dest source reportTo : String) : BundleObject :=
  { o with primary := withEids o.primary dest source reportTo }

/-- **A primary block that was written** is written so with identifiers that are read back. -/
theorem encodePrimary_eids {p : PrimaryObject} {raw : Bytes} (h : encodePrimary N p = .ok raw) :
    ∃ d s r, ReadAs p.dest d ∧ ReadAs p.source s ∧ EidReads r ∧
      encodePrimary N (withEids p d s r) = .ok raw := by
  have hwritten := h
  rw [encodePrimary] at h
  obtain ⟨dest, hdest, h⟩ := Outcome.bind_eq_ok.mp h
  obtain ⟨source, hsource, h⟩ := Outcome.bind_eq_ok.mp h
  obtain ⟨report, hreport, h⟩ := Outcome.bind_eq_ok.mp h
  obtain ⟨frag, hfrag, _⟩ := Outcome.bind_eq_ok.mp h
  rw [encodePrimary_eq hdest hsource hreport hfrag] at hwritten
  have heach := fun f hf => sealBlock_each hwritten f (List.mem_append_left _ hf)
  simp only [List.forall_mem_cons] at heach
  obtain ⟨_, _, _, ⟨bd, hbd⟩, ⟨bs, hbs⟩, ⟨br, hbr⟩, _⟩ := heach
  obtain ⟨d, hd, hdreads⟩ := encodeEid_reads hdest hbd
  obtain ⟨s, hs, hsreads⟩ := encodeEid_reads hsource hbs
  obtain ⟨r, hr, hrreads⟩ := encodeEid_reads hreport hbr
  refine ⟨d, s, r, ⟨hdreads, hd.trans hdest.symm⟩, ⟨hsreads, hs.trans hsource.symm⟩, hrreads, ?_⟩
  rw [← hwritten]
  exact encodePrimary_eq (p := withEids p d s r) hd hs hr hfrag

/-- The fields of an object have the types that are written for them, whatever the lengths. -/
structure Typed (N : Node) (o : BundleObject) : Prop where
  flags : ∃ z : Int, primaryFlags o.primary = .int z ∧ Cbor.isNumber z = true
  crcType : primaryCrcType o.primary ∈ [.int 0, .int 1, .int 2]
  created : ∃ time seq, o.primary.created = (.val time, .val seq) ∧ IntField time ∧ IntField seq
  lifetime : ∃ v, o.primary.lifetime = some v ∧ IntField v
  fragment : ∀ frag, fragmentBit N (some (primaryFlags o.primary)) = .ok frag →
    if frag = 0 then o.primary.fragmentOffset = none ∧ o.primary.totalAduLength = none
    else ∃ offset total, o.primary.fragmentOffset = some offset ∧
      o.primary.totalAduLength = some total ∧ IntField offset ∧ IntField total
  blocks : ∀ b ∈ o.blocks, (∃ v, b.type = some v ∧ IntField v) ∧
    (∃ v, b.number = some v ∧ IntField v) ∧ IntField (blockFlags b) ∧
    blockCrcType b ∈ [.int 0, .int 1, .int 2]
  numbers : o.blocks.Pairwise fun x y => x.number ≠ y.number

theorem encodeBlocks_data {bs : List BlockObject} {buf : Bytes} (h : encodeBlocks bs = .ok buf) :
    ∀ b ∈ bs, b.data.length ≤ Cbor.maxBuffer := by
  induction bs generalizing buf with
  | nil => exact fun b hb => by cases hb
  | cons b bs ih =>
      rw [encodeBlocks] at h
      obtain ⟨raw, hraw, h⟩ := Outcome.bind_eq_ok.mp h
      obtain ⟨rest, hrest, _⟩ := Outcome.bind_eq_ok.mp h
      obtain ⟨c, hc⟩ := sealBlock_each hraw (.bstr b.data) (by simp)
      exact List.forall_mem_cons.mpr ⟨length_le_of_bstr hc, ih hrest⟩

/-- **What was written is read**, with endpoint identifiers that are written the same way. -/
theorem decodeBundle_written {o : BundleObject} {buf : Bytes} (ht : Typed N o)
    (h : encodeBundle N o = .ok buf) : ∃ d s r, ReadAs o.primary.dest d ∧
      ReadAs o.primary.source s ∧ decodeBundle N buf = .ok (readdressed o d s r).filled := by
  have hwritten := h
  rw [encodeBundle] at h
  obtain ⟨raw, hraw, h⟩ := Outcome.bind_eq_ok.mp h
  split at h
  · cases h
  · rename_i hpayload
    obtain ⟨blocks, hblocks, h⟩ := Outcome.bind_eq_ok.mp h
    cases h
    obtain ⟨d, s, r, hd, hs, hr, hsame⟩ := encodePrimary_eids hraw
    have hdata := encodeBlocks_data hblocks
    have hreadable : Readable N (readdressed o d s r) :=
      ⟨⟨ht.flags, ht.crcType, hd.1, hs.1, hr, ht.created, ht.lifetime, ht.fragment⟩,
        fun b hb => ⟨(ht.blocks b hb).1, (ht.blocks b hb).2.1, (ht.blocks b hb).2.2.1,
          (ht.blocks b hb).2.2.2, hdata b hb⟩, ht.numbers, not_not.mp hpayload⟩
    obtain ⟨buf', henc, hdec⟩ := decodeBundle_encoded hreadable
    refine ⟨d, s, r, hd, hs, ?_⟩
    rw [encodeBundle] at henc
    show decodeBundle N _ = _
    rw [← hdec]
    congr 1
    have hwrite : encodeBundle N (readdressed o d s r) = encodeBundle N o := by
      rw [encodeBundle, encodeBundle]
      show (encodePrimary N (withEids o.primary d s r) >>= _) = _
      rw [hsame, hraw]
      rfl
    rw [← encodeBundle, hwrite, hwritten, Except.ok.injEq] at henc
    exact henc

end Bundle

end DtnCustody
