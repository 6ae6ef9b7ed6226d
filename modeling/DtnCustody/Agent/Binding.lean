/-
# DtnCustody.Agent.Binding — what a content identifier binds.

Two records with one content identifier have one copied content (`copied_eq_of_contentId`), so they
show the same at every place outside their credentials that no key `__proto__` leads to. Below such a
key the identifier binds nothing: `protoKey_unbound` adds to a signed record, and it still verifies.
-/
import DtnCustody.Agent.Path
import DtnCustody.Json.Look

namespace DtnCustody

open Base Js

namespace Json

/-! ## The content of a record -/

/-- The key of an array element. -/
def indexKey (i : Nat) : JsString := js (toString i)

theorem indexKey_injective : Function.Injective indexKey := by
  intro i j h
  have hdigits : Nat.toDigits 10 i = Nat.toDigits 10 j := by
    rw [← Nat.toList_repr, ← Nat.toList_repr]
    exact congrArg String.toList (js_inj.mp h)
  rw [← Nat.ofDigitChars_toDigits (b := 10) (n := i) (by decide) (by decide), hdigits,
    Nat.ofDigitChars_toDigits (by decide) (by decide)]

/-- An index key is none of the names that records give a meaning. -/
theorem indexKey_ne {i : Nat} {name : String} {c : Char} (hmem : c ∈ name.toList)
    (hc : c.isDigit = false) : indexKey i ≠ js name := by
  intro h
  have hlist : Nat.toDigits 10 i = name.toList := by
    rw [← Nat.toList_repr]
    exact congrArg String.toList (js_inj.mp h)
  have hdigit := Nat.isDigit_of_mem_toDigits (by decide) (by decide) (hlist ▸ hmem)
  rw [hc] at hdigit
  cases hdigit

def isCredential (k : JsString) : Bool := credentialFields.any fun name => k = js name

/-- The places in the credential fields of a record. -/
def InCredential (path : List Step) : Prop := ∃ k, path.head? = some (.key k) ∧ isCredential k = true

/-- **The same content**: at every place outside the credential fields. -/
def SameContent (v w : Json) : Prop := ∀ path, ¬ InCredential path → v.look path = w.look path

/-- The same at every place that a key `__proto__` leads to. -/
def SameUnderProto (v w : Json) : Prop :=
  ∀ path, proto ∈ path → ¬ InCredential path → v.look path = w.look path

def isArray : Json → Bool
  | .arr _ => true
  | _ => false

/-- What `JSON.parse` returns: no object has a key twice, and numbers are finite and read back. -/
structure Parsed (N : Node) (v : Json) : Prop where
  keys : ∀ fields, .obj fields ∈ v.within → DistinctKeys fields
  numbers : NumbersReadBack N v

variable {N : Node}

theorem ownFields_arr (xs : List Json) :
    (arr xs).ownFields = xs.zipIdx.map fun p => (indexKey p.2, p.1) := rfl

theorem within_ownFields {v : Json} {p : JsString × Json} (hp : p ∈ v.ownFields) :
    ∀ u ∈ p.2.within, u ∈ v.within := by
  intro u hu
  cases v with
  | obj fields => exact mem_within_obj hp hu
  | arr xs =>
      rw [ownFields_arr] at hp
      obtain ⟨⟨x, i⟩, hx, rfl⟩ := List.mem_map.mp hp
      exact mem_within_arr (List.fst_mem_of_mem_zipIdx hx) hu
  | _ => cases hp

theorem distinctKeys_indices (xs : List Json) : DistinctKeys (arr xs).ownFields := by
  rw [ownFields_arr, DistinctKeys, List.map_map]
  have hsnd : (xs.zipIdx.map Prod.snd).Nodup := by
    rw [List.zipIdx_map_snd]
    exact List.nodup_range'
  have hkeys := hsnd.map indexKey_injective
  rwa [List.map_map] at hkeys

theorem distinctKeys_ownFields {v : Json} (h : Parsed N v) : DistinctKeys v.ownFields := by
  cases v with
  | obj fields => exact h.keys fields (mem_within_self _)
  | arr xs => exact distinctKeys_indices xs
  | _ => exact List.nodup_nil

theorem property_indices (xs : List Json) (i : Nat) :
    property (arr xs).ownFields (indexKey i) = xs[i]? := by
  refine Option.ext fun u => ?_
  rw [property_eq_some_iff (distinctKeys_indices xs), ownFields_arr, List.mem_map]
  constructor
  · rintro ⟨⟨x, j⟩, hx, h⟩
    obtain ⟨hkey, rfl⟩ := Prod.mk.inj h
    rw [← indexKey_injective hkey]
    exact List.mk_mem_zipIdx_iff_getElem?.mp hx
  · intro h
    exact ⟨(u, i), List.mk_mem_zipIdx_iff_getElem?.mpr h, rfl⟩

/-- The content of a record, before `__proto__` is lost. -/
def contentFields (v : Json) : List (JsString × Json) :=
  v.ownFields.filter fun p => !(isCredential p.1)

theorem pickContent_eq (v : Json) : v.pickContent = .obj (assign v.contentFields) := rfl

theorem mem_contentFields {v : Json} {p : JsString × Json} (hp : p ∈ assign v.contentFields) :
    p ∈ v.ownFields := by
  rw [assign, (ownOrder_perm _).mem_iff] at hp
  exact (List.mem_filter.mp (List.mem_filter.mp hp).1).1

theorem Parsed.pickContent {v : Json} (h : Parsed N v) : Parsed N v.pickContent := by
  have hwithin : ∀ u ∈ v.pickContent.within, u = v.pickContent ∨ u ∈ v.within := by
    intro u hu
    rw [pickContent_eq, within, List.mem_cons, mem_withinFields] at hu
    rcases hu with hu | ⟨p, hp, hu⟩
    · exact Or.inl hu
    · exact Or.inr (within_ownFields (mem_contentFields hp) u hu)
  refine ⟨?_, ?_⟩
  · intro fields hf
    rcases hwithin _ hf with hf | hf
    · rw [pickContent_eq, obj.injEq] at hf
      rw [hf, DistinctKeys, assign, ((ownOrder_perm _).map Prod.fst).nodup_iff]
      exact (distinctKeys_ownFields h).sublist
        ((List.filter_sublist.trans List.filter_sublist).map _)
    · exact h.keys fields hf
  · intro x hx
    rcases hwithin _ hx with hx | hx
    · rw [pickContent_eq] at hx
      cases hx
    · exact h.numbers x hx

/-- A property of the content. -/
theorem property_pickContent {v : Json} (h : Parsed N v) {k : JsString}
    (hcred : isCredential k = false) (hproto : k ≠ js "__proto__") :
    property (assign v.contentFields) k = property v.ownFields k := by
  have hkeys := distinctKeys_ownFields h
  have hfilter : DistinctKeys v.contentFields := hkeys.sublist (List.filter_sublist.map _)
  rw [property_assign hfilter hproto]
  refine Option.ext fun u => ?_
  rw [property_eq_some_iff hfilter, property_eq_some_iff hkeys, contentFields, List.mem_filter]
  simp [hcred]

/-! ## One identifier, one content -/

theorem copied_eq_of_contentId (hinj : Function.Injective N.sha256) {v w : Json} (hv : Parsed N v)
    (hw : Parsed N w) {id : JsString} (hidv : v.contentId N = .ok id)
    (hidw : w.contentId N = .ok id) : copied v.pickContent = copied w.pickContent := by
  have htidy : ∀ {u : Json}, Parsed N u → NumbersReadBack N (copied u.pickContent) := by
    intro u hu x hx
    exact hu.pickContent.numbers x (num_mem_within_mapObjects (fun _ => mem_of_mem_copy) _ hx)
  obtain ⟨s, hs, hidv⟩ := Outcome.bind_eq_ok.mp hidv
  obtain ⟨t, ht, hidw⟩ := Outcome.bind_eq_ok.mp hidw
  cases hidv
  have hid := List.append_cancel_left (Except.ok.inj hidw)
  have hbytes := hinj (Hex.encode_injective hid)
  rw [canonicalize_ok hs, canonicalize_ok ht] at hbytes
  have hwf : ∀ {u : Json}, Parsed N u → (written N (copied u.pickContent)).Tidy :=
    fun hu => (htidy hu).print.tidy _
  have htext := toUtf8_inj (JsonText.wellFormed_write _ (hwf hw)) (JsonText.wellFormed_write _ (hwf hv))
    hbytes
  exact (written_inj _ (htidy hw) (htidy hv) (JsonText.write_inj (hwf hw) (hwf hv) htext)).symm

/-- What is found in a record at a place in its content. -/
theorem look_key {v : Json} (h : Parsed N v) {fields : List (JsString × Json)} (hv : v = .obj fields)
    {k : JsString} (hcred : isCredential k = false) {path : List Step} (hk : .key k ≠ proto)
    (hpath : proto ∉ path) : v.look (.key k :: path) = (copied v.pickContent).look (.key k :: path) := by
  have hne : k ≠ js "__proto__" := fun heq => hk (congrArg Step.key heq)
  rw [look_copied (by simp [hpath, Ne.symm hk]) h.pickContent.keys, look, look, pickContent_eq]
  show (v.child (.key k)).bind _ = (property (assign v.contentFields) k).bind _
  rw [property_pickContent h hcred hne, hv]
  rfl

theorem isCredential_indexKey (i : Nat) : isCredential (indexKey i) = false := by
  have hclaim := @indexKey_ne i "claimId" 'c' (by decide) (by decide)
  have hsig := @indexKey_ne i "sig" 's' (by decide) (by decide)
  have hpub := @indexKey_ne i "signerPub" 's' (by decide) (by decide)
  simp [isCredential, credentialFields, hclaim, hsig, hpub]

theorem look_index {xs : List Json} (h : Parsed N (.arr xs)) (i : Nat) {path : List Step}
    (hpath : proto ∉ path) : (arr xs).look (.index i :: path) =
      (copied (arr xs).pickContent).look (.key (indexKey i) :: path) := by
  have hne : indexKey i ≠ js "__proto__" := indexKey_ne (c := '_') (by decide) (by decide)
  have hk : proto ≠ .key (indexKey i) := fun heq => hne (Step.key.inj heq).symm
  rw [look_copied (by simp [hpath, hk]) h.pickContent.keys, look, look, pickContent_eq]
  show (xs[i]?).bind _ = (property (assign (arr xs).contentFields) (indexKey i)).bind _
  rw [property_pickContent h (isCredential_indexKey i) hne, property_indices]

theorem isSome_look_index (xs : List Json) (i : Nat) :
    ((arr xs).look [.index i]).isSome = true ↔ i < xs.length := by
  show ((xs[i]?).bind fun u => some u.shape).isSome = true ↔ _
  cases hi : xs[i]? with
  | none => simpa using List.getElem?_eq_none_iff.mp hi
  | some u => simpa using (List.getElem?_eq_some_iff.mp hi).1

/-- Equal contents show the same at every place that `__proto__` does not lead to. -/
theorem look_eq_of_copied {v w : Json} (hv : Parsed N v) (hw : Parsed N w)
    (hobj : v.isObject = true ∧ w.isObject = true) (harr : v.isArray = w.isArray)
    (h : copied v.pickContent = copied w.pickContent) {path : List Step} (hproto : proto ∉ path)
    (hcred : ¬ InCredential path) : v.look path = w.look path := by
  cases v with
  | arr xs =>
      cases w with
      | arr ys =>
          have hindex : ∀ i path, proto ∉ path →
              (arr xs).look (.index i :: path) = (arr ys).look (.index i :: path) := by
            intro i path hpath
            rw [look_index hv i hpath, look_index hw i hpath, h]
          cases path with
          | nil =>
              have hlen : xs.length = ys.length := by
                have hiff : ∀ i, i < xs.length ↔ i < ys.length := by
                  intro i
                  rw [← isSome_look_index xs, ← isSome_look_index ys, hindex i [] (by simp)]
                have h1 := hiff xs.length
                have h2 := hiff ys.length
                omega
              rw [look, look, shape, shape, hlen]
          | cons s path =>
              rw [List.mem_cons, not_or] at hproto
              cases s with
              | index i => exact hindex i path hproto.2
              | key k => rfl
      | _ => cases harr
  | obj fields =>
      cases w with
      | obj fields' =>
          cases path with
          | nil => rfl
          | cons s path =>
              rw [List.mem_cons, not_or] at hproto
              cases s with
              | index i => rfl
              | key k =>
                  have hk : isCredential k = false := by
                    by_contra hk
                    exact hcred ⟨k, rfl, by simpa using hk⟩
                  rw [look_key hv rfl hk (Ne.symm hproto.1) hproto.2,
                    look_key hw rfl hk (Ne.symm hproto.1) hproto.2, h]
      | arr ys => cases harr
      | _ => cases hobj.2
  | _ => cases hobj.1

/-- **When one identifier means one content**: exactly when both records are arrays or both objects,
and they agree below every key `__proto__`. -/
theorem sameContent_iff (hinj : Function.Injective N.sha256) {v w : Json} (hv : Parsed N v)
    (hw : Parsed N w) (hobj : v.isObject = true ∧ w.isObject = true) {id : JsString}
    (hidv : v.contentId N = .ok id) (hidw : w.contentId N = .ok id) :
    SameContent v w ↔ v.isArray = w.isArray ∧ SameUnderProto v w := by
  constructor
  · intro h
    refine ⟨?_, fun path _ hcred => h path hcred⟩
    have hshape := h [] (by rintro ⟨k, hk, _⟩; cases hk)
    cases v <;> cases w <;> first | rfl | exact absurd hshape (by simp [look, shape])
  · rintro ⟨harr, hunder⟩ path hcred
    by_cases hproto : proto ∈ path
    · exact hunder path hproto hcred
    · exact look_eq_of_copied hv hw hobj harr (copied_eq_of_contentId hinj hv hw hidv hidw) hproto
        hcred

end Json

namespace Receipt

/-! ## Signed records -/

theorem toLowerCase_encode (bs : Bytes) : toLowerCase (Hex.encode bs) = Hex.encode bs := by
  have hdigit : ∀ n < 16, toLowerCase [Hex.digit n] = [Hex.digit n] := by decide
  induction bs with
  | nil => rfl
  | cons b bs ih =>
      have hb := b.toNat_lt
      have hhi := List.cons.inj (hdigit (b.toNat / 16) (by omega))
      have hlo := List.cons.inj (hdigit (b.toNat % 16) (by omega))
      show _ :: _ :: toLowerCase (Hex.encode bs) = _ :: _ :: Hex.encode bs
      rw [ih, hhi.1, hlo.1]

variable {H : Host}

theorem toLowerCase_contentId {v : Json} {id : JsString} (h : v.contentId H.toNode = .ok id) :
    toLowerCase id = id := by
  obtain ⟨s, _, h⟩ := Outcome.bind_eq_ok.mp h
  cases h
  show toLowerCase (js "0x") ++ toLowerCase (Hex.encode _) = _
  rw [toLowerCase_encode]
  rfl

/-- A record that verifies names its own content, but for the case of letters. -/
theorem contentId_of_verifyRecord {v : Json} {signer : Json}
    (h : verifyRecord H (some v) = .ok (.ok signer)) :
    v.isObject = true ∧ ∃ claimed, JsonVal.toStr H.toNode (v.get "claimId") = .ok claimed ∧
      v.contentId H.toNode = .ok (toLowerCase claimed) := by
  unfold verifyRecord at h
  dsimp only at h
  split at h
  · rename_i hobj
    obtain ⟨id, hid, h⟩ := Outcome.bind_eq_ok.mp h
    obtain ⟨claimed, hclaimed, h⟩ := Outcome.bind_eq_ok.mp h
    split at h
    · cases h
    · rename_i heq
      rw [not_not, toLowerCase_contentId hid] at heq
      exact ⟨hobj, claimed, hclaimed, heq ▸ hid⟩
  · cases h

/-- **What a content identifier binds.** Two records with one identifier have the same content exactly
when they agree in being arrays and below every key `__proto__`; so do two records that verify with
one `claimId`. -/
theorem contentId_binds_iff (hinj : Function.Injective H.sha256) {v w : Json}
    (hv : Json.Parsed H.toNode v) (hw : Json.Parsed H.toNode w)
    (hobj : v.isObject = true ∧ w.isObject = true)
    (h : (∃ id, v.contentId H.toNode = .ok id ∧ w.contentId H.toNode = .ok id) ∨
      (v.get "claimId" = w.get "claimId" ∧
        (∃ signer, verifyRecord H (some v) = .ok (.ok signer)) ∧
        ∃ signer, verifyRecord H (some w) = .ok (.ok signer))) :
    Json.SameContent v w ↔ v.isArray = w.isArray ∧ Json.SameUnderProto v w := by
  rcases h with ⟨id, hidv, hidw⟩ | ⟨hclaim, ⟨_, hverv⟩, ⟨_, hverw⟩⟩
  · exact Json.sameContent_iff hinj hv hw hobj hidv hidw
  · obtain ⟨_, claimed, hclaimed, hidv⟩ := contentId_of_verifyRecord hverv
    obtain ⟨_, claimed', hclaimed', hidw⟩ := contentId_of_verifyRecord hverw
    rw [hclaim, hclaimed'] at hclaimed
    cases hclaimed
    exact Json.sameContent_iff hinj hv hw hobj hidv hidw

/-- A runtime that reads the number 7. -/
def readingHost : Host :=
  { Path.sampleHost with stringToNumber := fun s => if s = js "7" then .fin 7 else .nan }

/-- `{"kind":"custody/1","hops":[7]}`, and the same in another order with a credential. -/
def plainRecord : Json := .obj [(js "kind", .text "custody/1"), (js "hops", .arr [.int 7])]

def reorderedRecord : Json :=
  .obj [(js "hops", .arr [.int 7]), (js "sig", .text "x"), (js "kind", .text "custody/1")]

theorem reorderedRecord_binds :
    Json.SameContent plainRecord reorderedRecord ↔
      plainRecord.isArray = reorderedRecord.isArray ∧
        Json.SameUnderProto plainRecord reorderedRecord := by
  have hinj : Function.Injective readingHost.sha256 := sampleHash_injective
  have hnumber : ∀ x, x = JsNum.fin 7 → ∃ q, x = .fin q ∧
      Json.IsNumberText (Prim.numToString readingHost.toNode x) ∧
        readingHost.stringToNumber (Prim.numToString readingHost.toNode x) = x := by
    rintro x rfl
    exact ⟨7, rfl, by decide +kernel, by decide +kernel⟩
  have hwithin : plainRecord.within =
      [plainRecord, .text "custody/1", .arr [.int 7], .int 7] := rfl
  have hwithin' : reorderedRecord.within =
      [reorderedRecord, .arr [.int 7], .int 7, .text "x", .text "custody/1"] := rfl
  have hparsed : Json.Parsed readingHost.toNode plainRecord := by
    constructor
    · intro fields hf
      rw [hwithin] at hf
      simp only [plainRecord, Json.int, Json.text, List.mem_cons, List.not_mem_nil, or_false,
        Json.obj.injEq, reduceCtorEq] at hf
      subst hf
      decide
    · intro x hx
      rw [hwithin] at hx
      simp only [plainRecord, Json.int, Json.text, List.mem_cons, List.not_mem_nil, or_false,
        Json.num.injEq, reduceCtorEq, false_or] at hx
      exact hnumber x hx
  have hparsed' : Json.Parsed readingHost.toNode reorderedRecord := by
    constructor
    · intro fields hf
      rw [hwithin'] at hf
      simp only [reorderedRecord, Json.int, Json.text, List.mem_cons, List.not_mem_nil, or_false,
        Json.obj.injEq, reduceCtorEq] at hf
      subst hf
      decide
    · intro x hx
      rw [hwithin'] at hx
      simp only [reorderedRecord, Json.int, Json.text, List.mem_cons, List.not_mem_nil, or_false,
        Json.num.injEq, reduceCtorEq, false_or] at hx
      exact hnumber x hx
  have hid : ∃ id, plainRecord.contentId readingHost.toNode = .ok id ∧
      reorderedRecord.contentId readingHost.toNode = .ok id := by
    refine ⟨js "0x" ++ Json.sha256hex readingHost.toNode
      (js "\x7b\"hops\":[7],\"kind\":\"custody/1\"\x7d"), ?_, ?_⟩
    all_goals decide +kernel
  exact contentId_binds_iff hinj hparsed hparsed' ⟨rfl, rfl⟩ (Or.inl hid)

/-- A record with one more property, named `__proto__`. -/
def withProto (v : Json) : Json := .obj (v.ownFields ++ [(js "__proto__", .text "anything")])

/-- **A key `__proto__` is bound by nothing**: added to a signed record it changes the content, and the
record verifies as before. -/
theorem protoKey_unbound :
    let r := Path.genuine "b1"
    r.contentId Path.sampleHost.toNode = (withProto r).contentId Path.sampleHost.toNode ∧
      (verifyRecord Path.sampleHost (some r)).map RecordVerdict.isOk = .ok true ∧
      (verifyRecord Path.sampleHost (some (withProto r))).map RecordVerdict.isOk = .ok true ∧
      ¬ Json.SameContent r (withProto r) := by
  refine ⟨by decide +kernel, by decide +kernel, by decide +kernel, fun h => ?_⟩
  have hlook : (Path.genuine "b1").look [Json.proto] ≠ (withProto (Path.genuine "b1")).look [Json.proto] := by
    decide +kernel
  refine hlook (h _ ?_)
  rintro ⟨k, hk, hcred⟩
  cases hk
  exact absurd hcred (by decide)

end Receipt

end DtnCustody
