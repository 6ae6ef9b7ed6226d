/-
# DtnCustody.Json.KeyOrder — when `canonicalize` writes the canonical form.

The canonical form lists the keys of every object in code-unit order (`sorted`). `sortKeysDeep` sorts
and then inserts into a fresh object, so its keys come in the order of enumeration (`copied`). The
two agree on a value when, in each of its objects, no key is `__proto__` and no key that spells an
array index comes, in code-unit order, after one that enumeration puts behind it.
-/
import DtnCustody.Js.Sample
import DtnCustody.Json.Text

namespace DtnCustody

open Base Js

namespace Json

/-! ## Lists of properties -/

/-- Enumeration can put a property of key `a` before one of key `b`. -/
def MayPrecede (a b : JsString) : Prop :=
  ∀ n, arrayIndex? b = some n → ∃ m, arrayIndex? a = some m ∧ m ≤ n

/-- **The keys of an object whose copy lists them in code-unit order.** -/
structure InOrder (fields : List (JsString × Json)) : Prop where
  noProto : ∀ p ∈ fields, p.1 ≠ js "__proto__"
  indices : ∀ p ∈ fields, ∀ q ∈ fields, p.1 < q.1 → MayPrecede p.1 q.1

def DistinctKeys (fields : List (JsString × Json)) : Prop := (fields.map Prod.fst).Nodup

instance (fields : List (JsString × Json)) : Decidable (DistinctKeys fields) :=
  inferInstanceAs (Decidable (List.Nodup _))

theorem sortFields_perm (fields : List (JsString × Json)) : (sortFields fields).Perm fields :=
  List.perm_insertionSort _ _

theorem ownOrder_perm (fields : List (JsString × Json)) : (ownOrder fields).Perm fields := by
  refine ((List.perm_insertionSort _ _).append_right _).trans ?_
  have h := List.filter_append_perm (fun p : JsString × Json => (arrayIndex? p.1).isSome) fields
  have hnot : (fun p : JsString × Json => !(arrayIndex? p.1).isSome) =
      fun p => (arrayIndex? p.1).isNone := by
    funext p
    exact Option.not_isSome _
  rwa [hnot] at h

theorem pairwise_ownOrder (fields : List (JsString × Json)) :
    (ownOrder fields).Pairwise fun p q => MayPrecede p.1 q.1 := by
  refine List.pairwise_append.mpr ⟨?_, ?_, ?_⟩
  · have hsorted := List.pairwise_insertionSort
      (fun p q : JsString × Json => (arrayIndex? p.1).getD 0 ≤ (arrayIndex? q.1).getD 0)
      (fields.filter fun p => (arrayIndex? p.1).isSome)
    refine List.Pairwise.imp_of_mem ?_ hsorted
    intro p q hp _ hle n hn
    rw [List.mem_insertionSort, List.mem_filter] at hp
    obtain ⟨m, hm⟩ := Option.isSome_iff_exists.mp hp.2
    rw [hm, hn] at hle
    exact ⟨m, hm, hle⟩
  · refine List.pairwise_of_forall_mem_list ?_
    intro p _ q hq n hn
    rw [List.mem_filter, hn] at hq
    cases hq.2
  · intro p _ q hq n hn
    rw [List.mem_filter, hn] at hq
    cases hq.2

theorem indexed_append_named {fields : List (JsString × Json)}
    (h : fields.Pairwise fun p q => MayPrecede p.1 q.1) :
    fields.filter (fun p => (arrayIndex? p.1).isSome) ++
      fields.filter (fun p => (arrayIndex? p.1).isNone) = fields := by
  induction fields with
  | nil => rfl
  | cons p fields ih =>
      rw [List.pairwise_cons] at h
      cases hp : arrayIndex? p.1 with
      | some n =>
          rw [List.filter_cons_of_pos (by simp [hp]), List.filter_cons_of_neg (by simp [hp]),
            List.cons_append, ih h.2]
      | none =>
          -- nothing behind a name is an index
          have hnamed : ∀ q ∈ p :: fields, arrayIndex? q.1 = none := by
            refine List.forall_mem_cons.mpr ⟨hp, fun q hq => ?_⟩
            rw [Option.eq_none_iff_forall_ne_some]
            intro n hn
            obtain ⟨m, hm, _⟩ := h.1 q hq n hn
            rw [hp] at hm
            cases hm
          rw [List.filter_eq_nil_iff.mpr fun q hq => by simp [hnamed q hq],
            List.filter_eq_self.mpr fun q hq => by simp [hnamed q hq], List.nil_append]

theorem ownOrder_eq {fields : List (JsString × Json)}
    (h : fields.Pairwise fun p q => MayPrecede p.1 q.1) : ownOrder fields = fields := by
  have hsorted : (fields.filter fun p => (arrayIndex? p.1).isSome).Pairwise
      fun p q => (arrayIndex? p.1).getD 0 ≤ (arrayIndex? q.1).getD 0 := by
    refine List.Pairwise.imp_of_mem ?_ (h.filter _)
    intro p q _ hq hpq
    rw [List.mem_filter] at hq
    obtain ⟨n, hn⟩ := Option.isSome_iff_exists.mp hq.2
    obtain ⟨m, hm, hle⟩ := hpq n hn
    rwa [hm, hn]
  unfold ownOrder
  dsimp only
  rw [hsorted.insertionSort_eq, indexed_append_named h]

/-- Distinct keys in code-unit order: each is before those that follow. -/
theorem pairwise_lt_sortFields {fields : List (JsString × Json)} (h : DistinctKeys fields) :
    ((sortFields fields).map Prod.fst).Pairwise (· < ·) := by
  have hle : (sortFields fields).Pairwise fun p q => p.1 ≤ q.1 := List.pairwise_insertionSort _ _
  have hne : ((sortFields fields).map Prod.fst).Nodup :=
    ((sortFields_perm fields).map _).nodup_iff.mpr h
  refine (List.pairwise_map.mpr hle).imp₂ ?_ hne
  intro a b hab hne
  exact (List.le_iff_lt_or_eq.mp hab).resolve_right hne

theorem mayPrecede_of_pairwise {keys : List JsString}
    (h : keys.Pairwise fun a b => a < b ∧ MayPrecede a b) {a b : JsString} (ha : a ∈ keys)
    (hb : b ∈ keys) (hlt : a < b) : MayPrecede a b := by
  obtain ⟨i, hi, rfl⟩ := List.getElem_of_mem ha
  obtain ⟨j, hj, rfl⟩ := List.getElem_of_mem hb
  have hpair := List.pairwise_iff_getElem.mp h
  rcases Nat.lt_trichotomy i j with hij | rfl | hji
  · exact (hpair i j hi hj hij).2
  · exact absurd hlt (List.lt_irrefl _)
  · exact absurd hlt (List.lt_asymm (hpair j i hj hi hji).1)

/-- **The copy of an object with distinct keys** lists them in code-unit order if they are in order,
and only then. -/
theorem InOrder.assign_eq {fields : List (JsString × Json)} (hkeys : DistinctKeys fields)
    (h : InOrder fields) : assign (sortFields fields) = sortFields fields := by
  have hmem : ∀ {p}, p ∈ sortFields fields → p ∈ fields := (sortFields_perm fields).mem_iff.mp
  unfold assign
  rw [List.filter_eq_self.mpr fun p hp => by simpa using h.noProto p (hmem hp)]
  refine ownOrder_eq (List.Pairwise.imp_of_mem ?_ (List.pairwise_map.mp (pairwise_lt_sortFields hkeys)))
  intro p q hp hq hlt
  exact h.indices p (hmem hp) q (hmem hq) hlt

theorem InOrder.of_keys {fields : List (JsString × Json)} (hkeys : DistinctKeys fields)
    (h : (assign (sortFields fields)).map Prod.fst = (sortFields fields).map Prod.fst) :
    InOrder fields := by
  have hmem : ∀ {p}, p ∈ fields → p ∈ sortFields fields := (sortFields_perm fields).mem_iff.mpr
  refine ⟨?_, ?_⟩
  · have hlen := congrArg List.length h
    rw [List.length_map, List.length_map, assign, (ownOrder_perm _).length_eq,
      List.length_filter_eq_length_iff] at hlen
    exact fun p hp => of_decide_eq_true (hlen p (hmem hp))
  · have hbefore : ((sortFields fields).map Prod.fst).Pairwise fun a b => a < b ∧ MayPrecede a b := by
      refine (pairwise_lt_sortFields hkeys).and ?_
      rw [← h, List.pairwise_map]
      exact pairwise_ownOrder _
    intro p hp q hq hlt
    exact mayPrecede_of_pairwise hbefore (List.mem_map_of_mem (hmem hp))
      (List.mem_map_of_mem (hmem hq)) hlt

/-! ## Values with the properties of every object rearranged -/

mutual

/-- `f` applied to the properties of every object, from the inside out. -/
def mapObjects (f : List (JsString × Json) → List (JsString × Json)) : Json → Json
  | .arr xs => .arr (mapAll f xs)
  | .obj fields => .obj (f (mapFields f fields))
  | v => v

def mapAll (f : List (JsString × Json) → List (JsString × Json)) : List Json → List Json
  | [] => []
  | x :: rest => mapObjects f x :: mapAll f rest

def mapFields (f : List (JsString × Json) → List (JsString × Json)) :
    List (JsString × Json) → List (JsString × Json)
  | [] => []
  | p :: rest => mapField f p :: mapFields f rest

def mapField (f : List (JsString × Json) → List (JsString × Json)) :
    JsString × Json → JsString × Json
  | (k, v) => (k, mapObjects f v)

end

/-- The canonical form: the keys of every object in code-unit order. -/
def sorted (v : Json) : Json := mapObjects sortFields v

/-- What `sortKeysDeep` returns. -/
def copied (v : Json) : Json := mapObjects (fun fields => assign (sortFields fields)) v

variable {f : List (JsString × Json) → List (JsString × Json)}

theorem mapAll_eq_map (xs : List Json) : mapAll f xs = xs.map (mapObjects f) := by
  induction xs with
  | nil => rfl
  | cons x xs ih => rw [mapAll, ih, List.map_cons]

theorem mapFields_eq_map (fields : List (JsString × Json)) :
    mapFields f fields = fields.map fun p => (p.1, mapObjects f p.2) := by
  induction fields with
  | nil => rfl
  | cons p fields ih =>
      obtain ⟨k, v⟩ := p
      rw [mapFields, ih, List.map_cons, mapField]

theorem sortFields_map (g : Json → Json) (fields : List (JsString × Json)) :
    sortFields (fields.map fun p => (p.1, g p.2)) =
      (sortFields fields).map fun p => (p.1, g p.2) := by
  refine (List.map_insertionSort _ _ _ _ ?_).symm
  intro p _ q _
  exact Iff.rfl

theorem assign_map (g : Json → Json) (fields : List (JsString × Json)) :
    assign (fields.map fun p => (p.1, g p.2)) = (assign fields).map fun p => (p.1, g p.2) := by
  unfold assign ownOrder
  simp only [List.filter_map, Function.comp_def, List.map_append]
  congr 1
  refine (List.map_insertionSort _ _ _ _ ?_).symm
  intro p _ q _
  exact Iff.rfl

variable {N : Node}

theorem written_copied_eq_iff (v : Json) :
    (∀ fields, .obj fields ∈ v.within → DistinctKeys fields) →
      (written N (copied v) = written N (sorted v) ↔
        ∀ fields, .obj fields ∈ v.within → InOrder fields) := by
  induction v using induct with
  | arr xs ih =>
      intro hkeys
      have hparts : ∀ x ∈ xs, (written N (copied x) = written N (sorted x) ↔
          ∀ fields, .obj fields ∈ x.within → InOrder fields) :=
        fun x hx => ih x hx fun fields hf => hkeys fields (mem_within_arr hx hf)
      unfold copied sorted at hparts ⊢
      rw [mapObjects, mapObjects, written, written, writtenAll_eq_map, writtenAll_eq_map,
        mapAll_eq_map, mapAll_eq_map, JsonText.arr.injEq, List.map_map, List.map_map,
        List.map_inj_left]
      constructor
      · intro h fields hf
        rw [within, List.mem_cons, mem_withinAll] at hf
        rcases hf with hf | ⟨x, hx, hf⟩
        · cases hf
        · exact (hparts x hx).mp (h x hx) fields hf
      · intro h x hx
        exact (hparts x hx).mpr fun fields hf => h fields (mem_within_arr hx hf)
  | obj fields ih =>
      intro hkeys
      have hdistinct : DistinctKeys fields := hkeys fields (mem_within_self _)
      have hparts : ∀ p ∈ fields, (written N (copied p.2) = written N (sorted p.2) ↔
          ∀ fields, .obj fields ∈ p.2.within → InOrder fields) :=
        fun p hp => ih p hp fun fields hf => hkeys fields (mem_within_obj hp hf)
      have hmem : ∀ {p}, p ∈ sortFields fields ↔ p ∈ fields := (sortFields_perm fields).mem_iff
      unfold copied sorted at hparts ⊢
      rw [mapObjects, mapObjects, written, written, writtenFields_eq_map, writtenFields_eq_map,
        mapFields_eq_map, mapFields_eq_map, JsonText.obj.injEq, sortFields_map, sortFields_map,
        assign_map, List.map_map, List.map_map]
      constructor
      · intro h
        have hown : InOrder fields := by
          refine InOrder.of_keys hdistinct ?_
          have hfst := congrArg (List.map Prod.fst) h
          rwa [List.map_map, List.map_map] at hfst
        rw [hown.assign_eq hdistinct, List.map_inj_left] at h
        intro fields' hf
        rw [within, List.mem_cons, mem_withinFields] at hf
        rcases hf with hf | ⟨p, hp, hf⟩
        · cases hf
          exact hown
        · exact (hparts p hp).mp (congrArg Prod.snd (h p (hmem.mpr hp))) fields' hf
      · intro h
        rw [(h fields (mem_within_self _)).assign_eq hdistinct, List.map_inj_left]
        intro p hp
        have hval := (hparts p (hmem.mp hp)).mpr fun fields hf =>
          h fields (mem_within_obj (hmem.mp hp) hf)
        exact congrArg (Prod.mk p.1) hval
  | _ =>
      intro _
      refine ⟨fun _ fields hf => ?_, fun _ => rfl⟩
      rw [within, List.mem_singleton] at hf
      · cases hf
      all_goals simp

/-- The words of a rearranged value are words of the value. -/
theorem num_mem_within_mapObjects {f : List (JsString × Json) → List (JsString × Json)}
    (hf : ∀ fields, ∀ p ∈ f fields, p ∈ fields) {x : JsNum} (v : Json) :
    .num x ∈ (mapObjects f v).within → .num x ∈ v.within := by
  induction v using induct with
  | arr xs ih =>
      intro h
      rw [mapObjects, within, List.mem_cons, mem_withinAll, mapAll_eq_map] at h
      rcases h with h | ⟨y, hy, h⟩
      · cases h
      · obtain ⟨w, hw, rfl⟩ := List.mem_map.mp hy
        exact mem_within_arr hw (ih w hw h)
  | obj fields ih =>
      intro h
      rw [mapObjects, within, List.mem_cons, mem_withinFields, mapFields_eq_map] at h
      rcases h with h | ⟨p, hp, h⟩
      · cases h
      · obtain ⟨q, hq, rfl⟩ := List.mem_map.mp (hf _ p hp)
        exact mem_within_obj hq (ih q hq h)
  | _ => exact fun h => h

theorem mem_of_mem_sortFields {fields : List (JsString × Json)} :
    ∀ p ∈ sortFields fields, p ∈ fields := fun _ => (sortFields_perm fields).mem_iff.mp

theorem mem_of_mem_copy {fields : List (JsString × Json)} :
    ∀ p ∈ assign (sortFields fields), p ∈ fields := by
  intro p hp
  rw [assign, (ownOrder_perm _).mem_iff] at hp
  exact mem_of_mem_sortFields p (List.mem_filter.mp hp).1

/-! ## The depth limit -/

mutual

/-- How many arrays and objects are around the innermost value, it included if it is one. -/
def nesting : Json → Nat
  | .arr xs => nestingAll xs + 1
  | .obj fields => nestingFields fields + 1
  | _ => 0

def nestingAll : List Json → Nat
  | [] => 0
  | x :: rest => max (nesting x) (nestingAll rest)

def nestingFields : List (JsString × Json) → Nat
  | [] => 0
  | p :: rest => max (nestingField p) (nestingFields rest)

def nestingField : JsString × Json → Nat
  | (_, v) => nesting v

end

theorem nesting_le_of_mem {xs : List Json} {x : Json} (h : x ∈ xs) :
    nesting x < nesting (arr xs) := by
  rw [nesting]
  induction xs with
  | nil => cases h
  | cons y xs ih =>
      rw [nestingAll]
      rcases List.mem_cons.mp h with rfl | h
      · omega
      · have := ih h
        omega

theorem nesting_le_of_mem_fields {fields : List (JsString × Json)} {p : JsString × Json}
    (h : p ∈ fields) : nesting p.2 < nesting (obj fields) := by
  rw [nesting]
  induction fields with
  | nil => cases h
  | cons q fields ih =>
      obtain ⟨k, v⟩ := q
      rw [nestingFields, nestingField]
      rcases List.mem_cons.mp h with rfl | h
      · dsimp only
        omega
      · have := ih h
        omega

theorem sortAll_eq {depth : Nat} {xs : List Json} {g : Json → Json}
    (h : ∀ x ∈ xs, sortKeysDeep depth x = .ok (g x)) : sortAll depth xs = .ok (xs.map g) := by
  induction xs with
  | nil => rfl
  | cons x xs ih =>
      rw [List.forall_mem_cons] at h
      rw [sortAll, h.1, ih h.2]
      rfl

theorem sortValues_eq {depth : Nat} {fields : List (JsString × Json)} {g : Json → Json}
    (h : ∀ p ∈ fields, sortKeysDeep depth p.2 = .ok (g p.2)) :
    sortValues depth fields = .ok (fields.map fun p => (p.1, g p.2)) := by
  induction fields with
  | nil => rfl
  | cons p fields ih =>
      obtain ⟨k, v⟩ := p
      rw [List.forall_mem_cons] at h
      rw [sortValues, sortValue, h.1, ih h.2]
      rfl

/-- **Within the limit `sortKeysDeep` returns the copy.** -/
theorem sortKeysDeep_eq (v : Json) :
    ∀ {depth : Nat}, depth + nesting v ≤ maxDepth → sortKeysDeep depth v = .ok (copied v) := by
  induction v using induct with
  | arr xs ih =>
      intro depth h
      have hle : ¬ maxDepth < depth := by omega
      have hparts : ∀ x ∈ xs, sortKeysDeep (depth + 1) x = .ok (copied x) := by
        intro x hx
        have := nesting_le_of_mem hx
        exact ih x hx (by omega)
      rw [sortKeysDeep, if_neg hle, sortAll_eq hparts, copied, mapObjects, mapAll_eq_map]
      rfl
  | obj fields ih =>
      intro depth h
      have hle : ¬ maxDepth < depth := by omega
      have hparts : ∀ p ∈ fields, sortKeysDeep (depth + 1) p.2 = .ok (copied p.2) := by
        intro p hp
        have := nesting_le_of_mem_fields hp
        exact ih p hp (by omega)
      rw [sortKeysDeep, if_neg hle, sortValues_eq hparts, copied, mapObjects, mapFields_eq_map]
      rfl
  | _ =>
      intro depth h
      have hle : ¬ maxDepth < depth := by omega
      rw [sortKeysDeep, if_neg hle]
      · rfl
      all_goals simp

theorem sortAll_ok {depth : Nat} {xs ys : List Json} {g : Json → Json}
    (hparts : ∀ x ∈ xs, ∀ y, sortKeysDeep depth x = .ok y → y = g x)
    (h : sortAll depth xs = .ok ys) : ys = xs.map g := by
  induction xs generalizing ys with
  | nil =>
      cases h
      rfl
  | cons x xs ih =>
      rw [List.forall_mem_cons] at hparts
      rw [sortAll] at h
      obtain ⟨y, hy, h⟩ := Outcome.bind_eq_ok.mp h
      obtain ⟨rest, hrest, h⟩ := Outcome.bind_eq_ok.mp h
      cases h
      rw [hparts.1 y hy, ih hparts.2 hrest, List.map_cons]

theorem sortValues_ok {depth : Nat} {fields out : List (JsString × Json)} {g : Json → Json}
    (hparts : ∀ p ∈ fields, ∀ y, sortKeysDeep depth p.2 = .ok y → y = g p.2)
    (h : sortValues depth fields = .ok out) : out = fields.map fun p => (p.1, g p.2) := by
  induction fields generalizing out with
  | nil =>
      cases h
      rfl
  | cons p fields ih =>
      obtain ⟨k, v⟩ := p
      rw [List.forall_mem_cons] at hparts
      rw [sortValues, sortValue] at h
      obtain ⟨q, hq, h⟩ := Outcome.bind_eq_ok.mp h
      obtain ⟨y, hy, hq⟩ := Outcome.bind_eq_ok.mp hq
      obtain ⟨rest, hrest, h⟩ := Outcome.bind_eq_ok.mp h
      cases hq
      cases h
      rw [hparts.1 y hy, ih hparts.2 hrest, List.map_cons]

/-- What `sortKeysDeep` returns is the copy. -/
theorem copied_of_sortKeysDeep (v : Json) :
    ∀ {depth : Nat} {t : Json}, sortKeysDeep depth v = .ok t → t = copied v := by
  induction v using induct with
  | arr xs ih =>
      intro depth t h
      rw [sortKeysDeep] at h
      split at h
      · cases h
      · obtain ⟨ys, hys, h⟩ := Outcome.bind_eq_ok.mp h
        cases h
        rw [sortAll_ok (fun x hx y hy => ih x hx hy) hys, copied, mapObjects, mapAll_eq_map]
        rfl
  | obj fields ih =>
      intro depth t h
      rw [sortKeysDeep] at h
      split at h
      · cases h
      · obtain ⟨out, hout, h⟩ := Outcome.bind_eq_ok.mp h
        cases h
        rw [sortValues_ok (fun p hp y hy => ih p hp hy) hout, copied, mapObjects, mapFields_eq_map]
        rfl
  | _ =>
      intro depth t h
      rw [sortKeysDeep] at h
      · split at h
        · cases h
        · cases h
          rfl
      all_goals simp

theorem canonicalize_ok {v : Json} {s : JsString} (h : canonicalize N v = .ok s) :
    s = (written N (copied v)).write := by
  obtain ⟨t, ht, h⟩ := Outcome.bind_eq_ok.mp h
  cases h
  rw [copied_of_sortKeysDeep v ht, stringify_eq_write]

/-! ## The canonical form -/

variable (N) in
/-- The canonical text of a value: keys of every object in code-unit order, arrays in their order,
no white space. -/
def canonicalText (v : Json) : JsString := stringify N (sorted v)

/-- **When `canonicalize` writes the canonical text**: exactly when in every object of the value, at
every level, the keys are in order. -/
theorem canonicalize_eq_canonicalText_iff {v : Json} (hnest : v.nesting ≤ maxDepth)
    (hkeys : ∀ fields, .obj fields ∈ v.within → DistinctKeys fields) (hnum : NumbersPrint N v) :
    canonicalize N v = .ok (canonicalText N v) ↔
      ∀ fields, .obj fields ∈ v.within → InOrder fields := by
  have hcopy : canonicalize N v = .ok (written N (copied v)).write := by
    rw [canonicalize, sortKeysDeep_eq v (by omega), ← stringify_eq_write]
    rfl
  rw [hcopy, canonicalText, stringify_eq_write, Except.ok.injEq, ← written_copied_eq_iff v hkeys]
  refine ⟨JsonText.write_inj ?_ ?_, congrArg _⟩
  · exact NumbersPrint.tidy _ fun q hq =>
      hnum q (num_mem_within_mapObjects (fun _ => mem_of_mem_copy) v hq)
  · exact NumbersPrint.tidy _ fun q hq =>
      hnum q (num_mem_within_mapObjects (fun _ => mem_of_mem_sortFields) v hq)

/-- `{"b":1,"a":[2,{"10":3,"x":4}]}`: an index among the keys, before the others in code-unit order. -/
def orderedSample : Json :=
  .obj [(js "b", .int 1), (js "a", .arr [.int 2, .obj [(js "10", .int 3), (js "x", .int 4)]])]

theorem orderedSample_canonical :
    canonicalize sampleNode orderedSample = .ok (canonicalText sampleNode orderedSample) ↔
      ∀ fields, .obj fields ∈ orderedSample.within → InOrder fields := by
  have hwithin : orderedSample.within =
      [orderedSample, .int 1, .arr [.int 2, .obj [(js "10", .int 3), (js "x", .int 4)]], .int 2,
        .obj [(js "10", .int 3), (js "x", .int 4)], .int 3, .int 4] := rfl
  refine canonicalize_eq_canonicalText_iff (by decide) ?_ ?_
  · intro fields hf
    rw [hwithin] at hf
    simp only [orderedSample, Json.int, List.mem_cons, List.not_mem_nil, or_false,
      Json.obj.injEq, reduceCtorEq, false_or] at hf
    rcases hf with rfl | rfl <;> decide
  · intro q hq
    rw [hwithin] at hq
    simp only [orderedSample, Json.int, List.mem_cons, List.not_mem_nil, or_false,
      Json.num.injEq, JsNum.fin.injEq, reduceCtorEq, false_or] at hq
    rcases hq with rfl | rfl | rfl | rfl <;> decide +kernel

/-- **Index keys are put in number order**: `"10"` comes before `"9"` in code-unit order, and after it
in what is written. -/
theorem indexKeys_not_canonical :
    canonicalize sampleNode (.obj [(js "9", .int 1), (js "10", .int 2)]) =
        .ok (js "\x7b\"9\":1,\"10\":2\x7d") ∧
      canonicalText sampleNode (.obj [(js "9", .int 1), (js "10", .int 2)]) =
        js "\x7b\"10\":2,\"9\":1\x7d" ∧
      canonicalize sampleNode (.obj [(js "9", .int 1), (js "10", .int 2)]) ≠
        .ok (canonicalText sampleNode (.obj [(js "9", .int 1), (js "10", .int 2)])) := by
  decide +kernel

end Json

end DtnCustody
