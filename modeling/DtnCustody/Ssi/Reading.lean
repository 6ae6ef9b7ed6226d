/-
# DtnCustody.Ssi.Reading — what a claim says, whatever has been cleared before it.

A credit is kept under the text of the bundle's identity and of the custodian, with a bar between. The
text of an identity is a JSON array, so it shows where it ends, and **the key names the two**
(`creditKey_inj`). Every receipt in the block of a claim can be encoded again (`readClaim_encodes`), so
its leaf can always be made.
-/
import DtnCustody.Json.Parse
import DtnCustody.Ssi.Settle

namespace DtnCustody

open Base Js

/-! ## The text of an identity -/

/-- The numbers of a decoded value are written as words. -/
theorem Cbor.toJson_print {N : Node} (v : Cbor) :
    ∀ {j : Json}, v.toJson = .ok j → Json.NumbersPrint N j := by
  have all : ∀ {xs : List Cbor} {js : List Json}, toJsonAll xs = .ok js →
      (∀ x ∈ xs, ∀ {j : Json}, x.toJson = .ok j → Json.NumbersPrint N j) →
        ∀ j ∈ js, Json.NumbersPrint N j := by
    intro xs
    induction xs with
    | nil => intro js h _ j hj; cases h; cases hj
    | cons x xs ih =>
        intro js h hx j hj
        rw [List.forall_mem_cons] at hx
        obtain ⟨y, hy, h⟩ := Outcome.bind_eq_ok.mp h
        obtain ⟨ys, hys, h⟩ := Outcome.bind_eq_ok.mp h
        cases h
        rcases List.mem_cons.mp hj with rfl | hj
        · exact hx.1 hy
        · exact ih hys hx.2 j hj
  have inside : ∀ {ys : List Json}, (∀ j ∈ ys, Json.NumbersPrint N j) →
      Json.NumbersPrint N (.arr ys) := by
    intro ys h q hq
    rw [Json.within, List.mem_cons] at hq
    rcases hq with hq | hq
    · cases hq
    · obtain ⟨j, hj, hq⟩ := Json.mem_withinAll.mp hq
      exact h j hj q hq
  induction v using induct with
  | int z =>
      intro j h q hq
      rw [toJson] at h
      split at h
      · rename_i hz
        cases h
        rw [Json.int, Json.within, List.mem_singleton] at hq
        · cases hq
          simp only [isNumber, Bool.and_eq_true, decide_eq_true_eq] at hz
          exact Json.isWord_int (by omega)
        all_goals simp
      · cases h
  | bytes b =>
      intro j h q hq
      rw [toJson] at h
      cases h
      rw [Json.within, List.mem_cons] at hq
      rcases hq with hq | hq
      · cases hq
      · obtain ⟨p, hp, hq⟩ := Json.mem_withinFields.mp hq
        simp only [List.mem_cons, List.not_mem_nil, or_false] at hp
        rcases hp with rfl | rfl
        · rw [Json.text, Json.within, List.mem_singleton] at hq
          · cases hq
          all_goals simp
        · refine inside (fun j hj => ?_) q hq
          obtain ⟨x, _, rfl⟩ := List.mem_map.mp hj
          intro q hq
          rw [Json.int, Json.within, List.mem_singleton] at hq
          · cases hq
            exact Json.isWord_int (by have := x.toNat_lt; omega)
          all_goals simp
  | array xs ih =>
      intro j h
      rw [toJson] at h
      obtain ⟨ys, hys, h⟩ := Outcome.bind_eq_ok.mp h
      cases h
      exact inside (all hys fun x hx => ih x hx)
  | indef xs ih =>
      intro j h q hq
      rw [toJson] at h
      obtain ⟨ys, hys, h⟩ := Outcome.bind_eq_ok.mp h
      cases h
      rw [Json.within, List.mem_cons] at hq
      rcases hq with hq | hq
      · cases hq
      · obtain ⟨p, hp, hq⟩ := Json.mem_withinFields.mp hq
        rw [List.mem_singleton] at hp
        cases hp
        exact inside (all hys fun x hx => ih x hx) q hq
  | map kvs =>
      intro j h q hq
      rw [toJson] at h
      cases h
      simp [Json.within, Json.withinFields] at hq
  | null =>
      intro j h q hq
      cases h
      simp [Json.within] at hq
  | bool b =>
      intro j h q hq
      cases h
      simp [Json.within] at hq
  | text s =>
      intro j h q hq
      cases h
      simp [Json.within] at hq

theorem Slot.toJson_print {N : Node} {s : Slot} {j : Json} (h : s.toJson = .ok j) :
    Json.NumbersPrint N j := by
  cases s with
  | val v => exact v.toJson_print h
  | undefined =>
      cases h
      intro q hq
      simp [Json.within] at hq
  | half u =>
      cases h
      intro q hq
      simp [Json.within] at hq

/-- An identity is written as an array whose numbers are words. -/
theorem Identity.toJson_print {N : Node} {id : Identity} {j : Json} (h : id.toJson = .ok j) :
    (∃ xs, j = .arr xs) ∧ Json.NumbersPrint N j := by
  obtain ⟨time, htime, h⟩ := Outcome.bind_eq_ok.mp h
  obtain ⟨seq, hseq, h⟩ := Outcome.bind_eq_ok.mp h
  obtain ⟨frag, hfrag, h⟩ := Outcome.bind_eq_ok.mp h
  cases h
  have hparts : ∀ x ∈ frag, Json.NumbersPrint N x := by
    unfold fragmentJson at hfrag
    split at hfrag
    · cases hfrag
      intro _ hx
      cases hx
    · obtain ⟨o, ho, hfrag⟩ := Outcome.bind_eq_ok.mp hfrag
      obtain ⟨t, ht, hfrag⟩ := Outcome.bind_eq_ok.mp hfrag
      cases hfrag
      exact List.forall_mem_cons.mpr ⟨Slot.toJson_print ho,
        List.forall_mem_cons.mpr ⟨Slot.toJson_print ht, fun _ hx => by cases hx⟩⟩
  refine ⟨⟨_, rfl⟩, fun q hq => ?_⟩
  rw [Json.within, List.mem_cons] at hq
  rcases hq with hq | hq
  · cases hq
  · obtain ⟨x, hx, hq⟩ := Json.mem_withinAll.mp hq
    rcases List.mem_cons.mp hx with rfl | hx
    · simp [Json.within] at hq
    · rcases List.mem_cons.mp hx with rfl | hx
      · rw [Json.within, List.mem_cons] at hq
        rcases hq with hq | hq
        · cases hq
        · obtain ⟨y, hy, hqy⟩ := Json.mem_withinAll.mp hq
          simp only [List.mem_cons, List.not_mem_nil, or_false] at hy
          rcases hy with rfl | rfl
          · exact Slot.toJson_print htime q hqy
          · exact Slot.toJson_print hseq q hqy
      · exact hparts x hx q hq

/-! ## What is in a claim can be encoded -/

namespace Bundle

variable {N : Node}

/-- The data of a block is an element of the array that it was read as. -/
theorem decodeBlocks_data {raws : List (Cbor × Bytes)} :
    ∀ {i : Nat} {bs : List Block}, decodeBlocks i raws = .ok bs →
      ∀ x ∈ bs, ∃ p ∈ raws, ∃ xs, p.1 = .array xs ∧ .bytes x.data ∈ xs := by
  induction raws with
  | nil => intro i bs h x hx; cases h; cases hx
  | cons p raws ih =>
      intro i bs h x hx
      rw [decodeBlocks] at h
      obtain ⟨y, hy, h⟩ := Outcome.bind_eq_ok.mp h
      obtain ⟨ys, hys, h⟩ := Outcome.bind_eq_ok.mp h
      cases h
      rcases List.mem_cons.mp hx with rfl | hx
      · obtain ⟨more, hparts⟩ := decodeBlock_parts hy
        exact ⟨p, List.mem_cons_self, _, hparts.value, by simp⟩
      · obtain ⟨q, hq, hrest⟩ := ih hys x hx
        exact ⟨q, List.mem_cons_of_mem _ hq, hrest⟩

/-- **The data of a block is no longer than the bundle.** -/
theorem decodeBundle_data_le {buf : Bytes} {b : Bundle} (h : decodeBundle N buf = .ok b) :
    ∀ x ∈ b.blocks, x.data.length ≤ buf.length := by
  intro x hx
  obtain ⟨bs, first, rest, rfl, hraws, _, hblocks, _, _⟩ := decodeBundle_ok h
  obtain ⟨p, hp, xs, hxs, hmem⟩ := decodeBlocks_data hblocks x hx
  obtain ⟨before, r, rfl, hread⟩ := decodeRaws_item hraws p (List.mem_cons_of_mem _ hp)
  rw [hxs] at hread
  have hlen := Cbor.decodeAt_array_bytes_le hread hmem
  rw [List.length_cons, List.length_append]
  omega

end Bundle

namespace Cbor

theorem encodeAll_each {xs : List Cbor} (h : ∃ b, encodeAll xs = .ok b) :
    ∀ x ∈ xs, ∃ b, encode x = .ok b := by
  induction xs with
  | nil => exact fun _ hx => by cases hx
  | cons x xs ih =>
      obtain ⟨b, h⟩ := h
      obtain ⟨c, hc, h⟩ := Outcome.bind_eq_ok.mp h
      obtain ⟨cs, hcs, _⟩ := Outcome.bind_eq_ok.mp h
      exact List.forall_mem_cons.mpr ⟨⟨c, hc⟩, ih ⟨cs, hcs⟩⟩

theorem encodeAll_of_each {xs : List Cbor} (h : ∀ x ∈ xs, ∃ b, encode x = .ok b) :
    ∃ b, encodeAll xs = .ok b := by
  induction xs with
  | nil => exact ⟨[], rfl⟩
  | cons x xs ih =>
      rw [List.forall_mem_cons] at h
      obtain ⟨⟨c, hc⟩, hrest⟩ := h
      obtain ⟨cs, hcs⟩ := ih hrest
      exact ⟨c ++ cs, by rw [encodeAll, hc, hcs]; rfl⟩

/-- The front of an array that can be encoded can be encoded. -/
theorem encodes_front {xs ys : List Cbor} (h : ∃ b, encode (.array (xs ++ ys)) = .ok b) :
    ∃ b, encode (.array xs) = .ok b := by
  obtain ⟨b, h⟩ := h
  rw [encode] at h
  obtain ⟨hd, hhd, h⟩ := Outcome.bind_eq_ok.mp h
  obtain ⟨body, hbody, _⟩ := Outcome.bind_eq_ok.mp h
  have hall := encodeAll_each ⟨body, hbody⟩
  obtain ⟨body', hbody'⟩ := encodeAll_of_each fun x hx => hall x (List.mem_append_left ys hx)
  have hlen := (lengthHead_ok hhd).1
  rw [List.length_append] at hlen
  obtain ⟨hd', hhd'⟩ := @Item.exists_lengthHead 4 xs.length
    (show xs.length ≤ 9007199254740991 by omega)
  exact ⟨hd' ++ body', by rw [encode, hhd', hbody']; rfl⟩

end Cbor

namespace Settle

open ReceiptV2 (Fields readBlockItems)

variable {H : SettleHost} {P : Params}

/-- The text of a bundle identity. -/
def IsIdentity (H : SettleHost) (text : JsString) : Prop :=
  ∃ (id : Identity) (j : Json), id.toJson = .ok j ∧ text = Json.stringify H.toNode j

theorem identityText_isIdentity {b : Bundle} {text : JsString} (h : identityText H b = .ok text) :
    IsIdentity H text := by
  obtain ⟨id, _, h⟩ := Outcome.bind_eq_ok.mp h
  obtain ⟨j, hj, h⟩ := Outcome.bind_eq_ok.mp h
  cases h
  exact ⟨id, j, hj, rfl⟩

/-- **The key of a credit names the bundle and the custodian.** -/
theorem creditKey_inj {id id' : JsString} {hop hop' : String} (hid : IsIdentity H id)
    (hid' : IsIdentity H id') (h : creditKey id hop = creditKey id' hop') : id = id' ∧ hop = hop' := by
  obtain ⟨x, j, hj, rfl⟩ := hid
  obtain ⟨y, j', hj', rfl⟩ := hid'
  have hbar : ∀ s : JsString, JsonText.Ends (js "|" ++ s) := by
    intro s u hu
    cases hu
    decide
  have ht := (Identity.toJson_print (N := H.toNode) hj).2.tidy
  have ht' := (Identity.toJson_print (N := H.toNode) hj').2.tidy
  unfold creditKey at h
  rw [List.append_assoc, List.append_assoc, Json.stringify_eq_write, Json.stringify_eq_write] at h
  obtain ⟨htext, hrest⟩ := JsonText.write_append_inj _ ht ht' (hbar _) (hbar _) h
  exact ⟨by rw [Json.stringify_eq_write, Json.stringify_eq_write, htext],
    js_inj.mp (List.append_cancel_left hrest)⟩

/-! ## The receipts of a claim -/

theorem map_item_judgeAll {before : List Cbor} {pairs : List (Cbor × Fields)} {found : List Finding}
    (h : judgeAll H P before pairs = .ok found) : found.map (fun x => (x.item, x.f)) = pairs := by
  induction pairs generalizing before found with
  | nil => cases h; rfl
  | cons p pairs ih =>
      obtain ⟨item, f⟩ := p
      rw [judgeAll] at h
      obtain ⟨v, _, h⟩ := Outcome.bind_eq_ok.mp h
      obtain ⟨rest, hrest, h⟩ := Outcome.bind_eq_ok.mp h
      cases h
      rw [List.map_cons, ih hrest]

theorem map_item_final (c : Claim) (found : List Finding) :
    (finalFindings H c found).map (fun x => (x.item, x.f)) = found.map fun x => (x.item, x.f) := by
  induction found with
  | nil => rfl
  | cons x found ih => rw [finalFindings, List.map_cons, List.map_cons, ih]

/-- The items of a block were decoded as an array. -/
theorem itemsOf_encodes {b : Bundle} {items : List Cbor}
    (hdata : ∀ x ∈ b.blocks, x.data.length ≤ Cbor.addressable) (h : itemsOf b = .ok items) :
    ∃ e, Cbor.encode (.array items) = .ok e := by
  obtain ⟨block, hblock, h⟩ := Outcome.bind_eq_ok.mp h
  have decoded : ∀ {items : List Cbor}, block = .v1 items ∨ block = .v2 items →
      ∃ x ∈ b.blocks, Cbor.decode x.data = .ok (.array items) := by
    intro items hitems
    unfold readBlockItems at hblock
    split at hblock
    · cases hblock
      rcases hitems with h | h <;> cases h
    · rename_i x hx
      have hmem : x ∈ b.blocks := List.mem_of_mem_filter (hx ▸ List.mem_singleton_self x)
      obtain ⟨v, hv, hblock⟩ := Outcome.bind_eq_ok.mp hblock
      split at hblock
      · cases hblock
      · split at hblock
        · cases hblock
          rcases hitems with h | h
          · cases h; exact ⟨x, hmem, hv⟩
          · cases h
        · split at hblock
          · cases hblock
            rcases hitems with h | h
            · cases h
            · cases h; exact ⟨x, hmem, hv⟩
          · cases hblock
      · cases hblock
    · cases hblock
  have encoded : block = .v1 items ∨ block = .v2 items → ∃ e, Cbor.encode (.array items) = .ok e := by
    intro hitems
    obtain ⟨x, hx, hdec⟩ := decoded hitems
    exact Cbor.decode_encodes (hdata x hx) hdec
  cases block with
  | none => cases h; exact ⟨_, rfl⟩
  | v1 items => cases h; exact encoded (Or.inl rfl)
  | v2 items => cases h; exact encoded (Or.inr rfl)

/-- The items of the findings are those of the block. -/
theorem examine_items {b : Bundle} {found : List Finding} (h : examine H P b = .ok found) :
    itemsOf b = .ok (found.map Finding.item) := by
  obtain ⟨items, hitems, h⟩ := Outcome.bind_eq_ok.mp h
  obtain ⟨f, hf, h⟩ := Outcome.bind_eq_ok.mp h
  have hpairs := map_item_judgeAll h
  have hfst := congrArg (List.map Prod.fst) hpairs
  rw [List.map_map, List.map_fst_zip (Outcome.mapM_eq_ok hf).length_eq.le] at hfst
  rw [hitems, ← hfst]
  rfl

/-- **The receipts of a claim can be encoded.** -/
theorem readClaim_encodes {c : Claim} {id : JsString} {n : Nat} {found : List Finding}
    (h : readClaim H P c = .ok (.opened id n found)) :
    ∀ x ∈ finalFindings H c found, ∃ leaf, leafOf H x.item = .ok leaf := by
  obtain ⟨b, hb, h⟩ := Outcome.bind_eq_ok.mp h
  obtain ⟨id', _, h⟩ := Outcome.bind_eq_ok.mp h
  obtain ⟨payload, _, h⟩ := Outcome.bind_eq_ok.mp h
  have hdata : ∀ x ∈ b.blocks, x.data.length ≤ Cbor.addressable := fun x hx =>
    (Bundle.decodeBundle_data_le hb x hx).trans c.fits
  split at h
  · cases h
  · obtain ⟨found', hfound, h⟩ := Outcome.bind_eq_ok.mp h
    split at h
    · cases h
    · cases h
      obtain ⟨e, he⟩ := itemsOf_encodes hdata (examine_items hfound)
      rw [Cbor.encode] at he
      obtain ⟨_, _, he⟩ := Outcome.bind_eq_ok.mp he
      obtain ⟨body, hbody, _⟩ := Outcome.bind_eq_ok.mp he
      intro x hx
      have hitem : x.item ∈ found.map Finding.item := by
        have hpair : (x.item, x.f) ∈ found.map fun y => (y.item, y.f) := by
          rw [← map_item_final (H := H) c found]
          exact List.mem_map_of_mem (f := fun y : Finding => (y.item, y.f)) hx
        obtain ⟨y, hy, heq⟩ := List.mem_map.mp hpair
        exact List.mem_map.mpr ⟨y, hy, congrArg Prod.fst heq⟩
      obtain ⟨leaf, hleaf⟩ := Cbor.encodeAll_each ⟨body, hbody⟩ _ hitem
      exact ⟨_, by rw [leafOf, hleaf]; rfl⟩

theorem readClaim_isIdentity {c : Claim} {id : JsString} {n : Nat} {found : List Finding}
    (h : readClaim H P c = .ok (.opened id n found)) : IsIdentity H id := by
  obtain ⟨b, _, h⟩ := Outcome.bind_eq_ok.mp h
  obtain ⟨id', hid, h⟩ := Outcome.bind_eq_ok.mp h
  obtain ⟨payload, _, h⟩ := Outcome.bind_eq_ok.mp h
  split at h
  · cases h
  · obtain ⟨found', _, h⟩ := Outcome.bind_eq_ok.mp h
    split at h
    · cases h
    · cases h
      exact identityText_isIdentity hid

end Settle

end DtnCustody
