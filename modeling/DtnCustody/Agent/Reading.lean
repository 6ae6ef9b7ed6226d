/-
# DtnCustody.Agent.Reading — a signed record that travels as its canonical text.

A record is written by `canonicalize` and read by `JSON.parse`. For a flat record, one whose properties
are strings and numbers, what is read has the same properties in the order of their keys, so it has
the same content identifier and verifies as the record did (`verifyRecord_parse`).
-/
import DtnCustody.Agent.Receipt
import DtnCustody.Json.Look
import DtnCustody.Json.Parse

namespace DtnCustody

open Base Js

namespace Json

variable {N : Node}

/-! ## Flat objects -/

/-- The properties of a flat object: their names are different and none is `__proto__`, and none of
them is an array or an object. -/
structure Flat (fields : List (JsString × Json)) : Prop where
  keys : DistinctKeys fields
  noProto : ∀ p ∈ fields, p.1 ≠ js "__proto__"
  values : ∀ p ∈ fields, p.2.isObject = false

theorem mapObjects_of_flat {v : Json} (h : v.isObject = false)
    (f : List (JsString × Json) → List (JsString × Json)) : mapObjects f v = v := by
  cases v <;> first | rfl | cases h

theorem within_of_flat {v : Json} (h : v.isObject = false) : v.within = [v] := by
  cases v <;> first | rfl | cases h

variable {fields other : List (JsString × Json)}

theorem Flat.copied (h : Flat fields) :
    (obj fields).copied = obj (assign (sortFields fields)) := by
  rw [Json.copied, mapObjects, mapFields_eq_map]
  congr 3
  conv_rhs => rw [← List.map_id fields]
  apply List.map_congr_left
  intro p hp
  rw [mapObjects_of_flat (h.values p hp)]
  rfl

theorem Flat.mem_within (h : Flat fields) {u : Json} (hu : u ∈ (obj fields).within) :
    u = obj fields ∨ ∃ p ∈ fields, u = p.2 := by
  rw [within, List.mem_cons, mem_withinFields] at hu
  rcases hu with hu | ⟨p, hp, hu⟩
  · exact Or.inl hu
  · rw [within_of_flat (h.values p hp), List.mem_singleton] at hu
    exact Or.inr ⟨p, hp, hu⟩

theorem Flat.distinct (h : Flat fields) :
    ∀ fields', .obj fields' ∈ (obj fields).within → DistinctKeys fields' := by
  intro fields' hf
  rcases h.mem_within hf with hf | ⟨p, hp, hf⟩
  · cases hf
    exact h.keys
  · have hflat := h.values p hp
    rw [← hf] at hflat
    cases hflat

theorem Flat.nesting_le (h : Flat fields) : (obj fields).nesting ≤ 1 := by
  have hparts : ∀ ps : List (JsString × Json), (∀ p ∈ ps, p.2.isObject = false) →
      nestingFields ps = 0 := by
    intro ps
    induction ps with
    | nil => exact fun _ => rfl
    | cons p ps ih =>
        intro hps
        rw [List.forall_mem_cons] at hps
        obtain ⟨k, v⟩ := p
        have hv : nesting v = 0 := by
          cases v <;> first | rfl | cases hps.1
        rw [nestingFields, nestingField, hv, ih hps.2]
        rfl
  rw [nesting, hparts fields h.values]

theorem Flat.sublist (h : Flat fields) (hsub : ∀ p ∈ other, p ∈ fields) (hkeys : DistinctKeys other) :
    Flat other :=
  ⟨hkeys, fun p hp => h.noProto p (hsub p hp), fun p hp => h.values p (hsub p hp)⟩

/-- A fresh object with the properties of a flat one. -/
theorem Flat.assign_perm (h : Flat fields) : (assign fields).Perm fields := by
  have hall : (fields.filter fun p => p.1 ≠ js "__proto__") = fields :=
    List.filter_eq_self.mpr fun p hp => by simpa using h.noProto p hp
  rw [assign, hall]
  exact ownOrder_perm fields

/-- Properties with different names are sorted in one way. -/
theorem sortFields_of_perm (hkeys : DistinctKeys fields) (hperm : fields.Perm other) :
    sortFields fields = sortFields other := by
  have hother : DistinctKeys other := (hperm.map Prod.fst).nodup_iff.mp hkeys
  refine @List.Perm.eq_of_pairwise _ (fun p q => p.1 < q.1) _ _ ?_
    (List.pairwise_map.mp (pairwise_lt_sortFields hkeys))
    (List.pairwise_map.mp (pairwise_lt_sortFields hother))
    ((sortFields_perm fields).trans (hperm.trans (sortFields_perm other).symm))
  intro p q _ _ hpq hqp
  exact absurd hqp (List.lt_asymm hpq)

/-! ## The record that is read -/

/-- The properties of a flat object in the order of enumeration of its copy. -/
def recopied (fields : List (JsString × Json)) : List (JsString × Json) := assign (sortFields fields)

theorem Flat.recopied_perm (h : Flat fields) : (recopied fields).Perm fields := by
  have hsort : Flat (sortFields fields) := h.sublist mem_of_mem_sortFields
    (((sortFields_perm fields).map _).nodup_iff.mpr h.keys)
  exact hsort.assign_perm.trans (sortFields_perm fields)

theorem Flat.recopied (h : Flat fields) : Flat (recopied fields) :=
  h.sublist (fun _ => h.recopied_perm.mem_iff.mp)
    ((h.recopied_perm.map Prod.fst).nodup_iff.mpr h.keys)

/-- The properties that count towards the content. -/
def contentOf (fields : List (JsString × Json)) : List (JsString × Json) :=
  fields.filter fun p => !(credentialFields.any fun name => p.1 = js name)

theorem Flat.contentOf (h : Flat fields) : Flat (contentOf fields) :=
  h.sublist (fun _ hp => (List.mem_filter.mp hp).1) (h.keys.sublist (List.filter_sublist.map _))

theorem Flat.assign (h : Flat fields) : Flat (assign fields) :=
  h.sublist (fun _ => h.assign_perm.mem_iff.mp) ((h.assign_perm.map Prod.fst).nodup_iff.mpr h.keys)

/-- **The record that is read has the content identifier of the one that was written.** -/
theorem Flat.contentId_recopied (h : Flat fields) :
    (obj (Json.recopied fields)).contentId N = (obj fields).contentId N := by
  have hid : ∀ {ps : List (JsString × Json)}, Flat ps → (obj ps).contentId N =
      .ok (js "0x" ++ sha256hex N (stringify N
        (obj (Json.assign (sortFields (Json.assign (Json.contentOf ps))))))) := by
    intro ps hps
    have hflat := hps.contentOf.assign
    have hdepth := hflat.nesting_le
    have hcanon : canonicalize N (obj ps).pickContent =
        .ok (stringify N (obj (Json.assign (sortFields (Json.assign (Json.contentOf ps)))))) := by
      show canonicalize N (obj (Json.assign (Json.contentOf ps))) = _
      rw [canonicalize, sortKeysDeep_eq _ (by unfold maxDepth; omega), hflat.copied]
      rfl
    rw [contentId, hcanon]
    rfl
  rw [hid h, hid h.recopied]
  congr 6
  apply sortFields_of_perm h.recopied.contentOf.assign.keys
  exact h.recopied.contentOf.assign_perm.trans
    ((h.recopied_perm.filter _).trans h.contentOf.assign_perm.symm)

theorem Flat.get_recopied (h : Flat fields) {name : String} (hname : name ≠ "__proto__") :
    (obj (Json.recopied fields)).get name = (obj fields).get name := by
  have hsort := ((sortFields_perm fields).map Prod.fst).nodup_iff.mpr h.keys
  show property (Json.assign (sortFields fields)) (js name) = property fields (js name)
  rw [property_assign hsort (fun heq => hname (js_inj.mp heq)), property_sortFields h.keys]

end Json

namespace Receipt

variable {H : Host}

/-- A verdict rests on the content identifier and the credentials alone. -/
theorem verifyObject_congr {v w : Json} (hid : v.contentId H.toNode = w.contentId H.toNode)
    (hget : ∀ name ∈ Json.credentialFields, v.get name = w.get name) :
    verifyObject H v = verifyObject H w := by
  have hclaim := hget "claimId" (by decide)
  have hsig := hget "sig" (by decide)
  have hpub := hget "signerPub" (by decide)
  unfold verifyObject
  rw [hid, hclaim, hsig, hpub]

theorem flat_signed {content : List (JsString × Json)} (hflat : Json.Flat content)
    (hplain : Plain content) {claimId sig pub : Json} (hvalues : claimId.isObject = false ∧
      sig.isObject = false ∧ pub.isObject = false) :
    Json.Flat (content ++ [(js "claimId", claimId), (js "sig", sig), (js "signerPub", pub)]) := by
  refine ⟨?_, ?_, ?_⟩
  · rw [Json.DistinctKeys, List.map_append]
    refine List.Nodup.append hflat.keys (by simp [js_inj]) ?_
    intro k hk hcred
    obtain ⟨p, hp, rfl⟩ := List.mem_map.mp hk
    simp only [List.map_cons, List.map_nil, List.mem_cons, List.not_mem_nil, or_false] at hcred
    rcases hcred with hcred | hcred | hcred
    · exact hplain p hp _ (by decide) hcred
    · exact hplain p hp _ (by decide) hcred
    · exact hplain p hp _ (by decide) hcred
  · intro p hp
    rcases List.mem_append.mp hp with hp | hp
    · exact hflat.noProto p hp
    · simp only [List.mem_cons, List.not_mem_nil, or_false] at hp
      rcases hp with rfl | rfl | rfl <;> simp [js_inj]
  · intro p hp
    rcases List.mem_append.mp hp with hp | hp
    · exact hflat.values p hp
    · simp only [List.mem_cons, List.not_mem_nil, or_false] at hp
      rcases hp with rfl | rfl | rfl
      · exact hvalues.1
      · exact hvalues.2.1
      · exact hvalues.2.2

/-- **A signed flat record verifies after it was written and read.** -/
theorem verifyRecord_parse {kp : AgentKey} (hkey : Signs H kp) {content : List (JsString × Json)}
    (hplain : Plain content) (hflat : Json.Flat content)
    (hnum : ∀ p ∈ content, ∀ x, p.2 = .num x → ∃ z : Int, x = .fin z ∧ z.natAbs ≤ 2 ^ 53)
    {v : Json} (hsign : signRecord H kp content = .ok v) {s : JsString}
    (hs : v.canonicalize H.toNode = .ok s) : WellFormed s ∧ ∃ w, Json.parse H.toNode s = some w ∧
      w.isObject = true ∧ verifyRecord H (some w) = .ok (.ok (.str kp.pub)) ∧
      ∀ name, name ≠ "__proto__" → w.get name = v.get name := by
  have hverify := verifyRecord_signRecord hkey hplain hsign
  obtain ⟨claimId, _, rfl⟩ := signRecord_eq hplain hsign
  set fields := content ++ [(js "claimId", Json.str claimId),
    (js "sig", .str (signClaim H kp.priv claimId)), (js "signerPub", .str kp.pub)] with hfields
  have hall : Json.Flat fields := flat_signed hflat hplain ⟨rfl, rfl, rfl⟩
  have hnumbers : Json.NumbersParse H.toNode (.obj fields) := by
    intro x hx
    rcases hall.mem_within hx with hx | ⟨p, hp, hx⟩
    · cases hx
    · rcases List.mem_append.mp hp with hp | hp
      · obtain ⟨z, rfl, hz⟩ := hnum p hp x hx.symm
        exact ⟨z, rfl, Json.isWord_int hz, Json.ofWord_int hz⟩
      · simp only [List.mem_cons, List.not_mem_nil, or_false] at hp
        rcases hp with rfl | rfl | rfl <;> cases hx
  have hread := Json.parse_canonicalize hs hall.distinct hnumbers
  rw [hall.copied] at hread
  refine ⟨Json.wellFormed_canonicalize hs hnumbers, _, hread, rfl, ?_,
    fun name hname => hall.get_recopied hname⟩
  rw [← hverify]
  apply verifyObject_congr hall.contentId_recopied
  intro name hname
  apply hall.get_recopied
  rintro rfl
  exact absurd hname (by decide)

end Receipt

end DtnCustody
