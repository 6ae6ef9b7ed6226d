/-
# DtnCustody.Ground.Sealed — what the seal of a station ledger binds.

Whatever records stand under a seal that `verifyLedger` accepts, each of them prints its own content id
(`leaf_of_verified`), and so its leaf is the digest in that id, or an empty array, whose bytes are none.
As many leaves with the same root are the same leaves (`MerkleTree.root_inj`), and the number of records
is in the seal. So the contents are those that were sealed, one by one and in their order.
-/
import DtnCustody.Agent.Path
import DtnCustody.Ground.Ledger

namespace DtnCustody

open Base Js

namespace Ground

/-! ## Hexadecimal in either case -/

theorem digit?_toLowerCase (u : UInt16) :
    Hex.digit? (if 65 ≤ u.toNat ∧ u.toNat ≤ 90 then u + 32 else u) = Hex.digit? u := by
  split
  · rename_i h
    have hall : ∀ n < 91, 65 ≤ n → Hex.digit? (UInt16.ofNat n + 32) = Hex.digit? (UInt16.ofNat n) := by
      decide +kernel
    have hu := hall u.toNat (by omega) h.1
    rwa [UInt16.ofNat_toNat] at hu
  · rfl

/-- Lowering letters changes nothing in what is read. -/
theorem decode_toLowerCase : ∀ s : JsString, Hex.decode (toLowerCase s) = Hex.decode s
  | [] => rfl
  | [_] => rfl
  | u :: v :: rest => by
      show Hex.decode ((if _ then _ else u) :: (if _ then _ else v) :: toLowerCase rest) = _
      rw [Hex.decode, Hex.decode, digit?_toLowerCase, digit?_toLowerCase, decode_toLowerCase rest]

theorem comma_notMem_idText (d : Bytes) : (44 : UInt16) ∉ idText d := by
  have hdigit : ∀ n < 16, Hex.digit n ≠ 44 := by decide
  intro h
  rcases List.mem_append.mp h with h | h
  · exact absurd h (by decide)
  · obtain ⟨b, _, hb⟩ := List.mem_flatMap.mp h
    have hlt := b.toNat_lt
    simp only [List.mem_cons, List.not_mem_nil, or_false] at hb
    rcases hb with hb | hb
    · exact hdigit (b.toNat / 16) (by omega) hb.symm
    · exact hdigit (b.toNat % 16) (by omega) hb.symm

/-- Text that lowers to an id is the digest behind its first two letters. -/
theorem decode_of_lower {s : JsString} {d : Bytes} (h : toLowerCase s = idText d) :
    Hex.decode (s.drop 2) = d := by
  have hdrop : toLowerCase (s.drop 2) = (toLowerCase s).drop 2 := List.map_drop
  rw [← decode_toLowerCase, hdrop, h]
  exact Hex.decode_encode d

/-- A comma is a comma in either case. -/
theorem comma_mem_toLowerCase {s : JsString} (h : (44 : UInt16) ∈ s) : (44 : UInt16) ∈ toLowerCase s :=
  List.mem_map.mpr ⟨44, h, by decide⟩

/-- An array that prints as an id has one element at most. -/
theorem length_of_joinStr {N : Node} {xs : List Json} {s : JsString} {d : Bytes}
    (h : Json.joinStr N xs = .ok s) (hs : toLowerCase s = idText d) : xs.length ≤ 1 := by
  match xs with
  | [] => exact Nat.zero_le 1
  | [_] => exact Nat.le_refl 1
  | x :: y :: rest =>
      obtain ⟨a, b, rfl⟩ : ∃ a b, s = a ++ js "," ++ b := by
        rw [Json.joinStr] at h
        split at h
        · obtain ⟨a, -, h⟩ := Outcome.bind_eq_ok.mp h
          obtain ⟨b, -, h⟩ := Outcome.bind_eq_ok.mp h
          cases h
          exact ⟨a, b, rfl⟩
        · obtain ⟨a, -, h⟩ := Outcome.bind_eq_ok.mp h
          obtain ⟨b, -, h⟩ := Outcome.bind_eq_ok.mp h
          cases h
          exact ⟨a, b, rfl⟩
      have hcomma : (44 : UInt16) ∈ a ++ js "," ++ b :=
        List.mem_append_left _ (List.mem_append_right _ (by decide))
      exact absurd (hs ▸ comma_mem_toLowerCase hcomma) (comma_notMem_idText d)

/-! ## The leaf of a record that verifies -/

variable {H : StationHost}

/-- A leaf with its bytes those of the digest, or an array of nothing. -/
def LeafOf (leaf : Json) (d : Bytes) : Prop := (∃ s, leaf = .str s ∧ Hex.decode s = d) ∨ leaf = .arr []

theorem leaf_of_verified {r signer leaf : Json}
    (hverify : Receipt.verifyRecord H.toHost (some r) = .ok (.ok signer)) (hleaf : leafOf r = .ok leaf) :
    ∃ x, r.contentId H.toNode = .ok (idText (H.sha256 x)) ∧ LeafOf leaf (H.sha256 x) := by
  obtain ⟨hobj, claimed, hclaimed, hid⟩ := Receipt.contentId_of_verifyRecord hverify
  obtain ⟨x, hx⟩ := contentId_eq hid
  refine ⟨x, hx ▸ hid, ?_⟩
  have hget : JsonVal.get (some r) "claimId" = .ok (r.get "claimId") := by
    cases r <;> first | rfl | cases hobj
  rw [leafOf, hget, Outcome.ok_bind] at hleaf
  cases hclaim : r.get "claimId" with
  | none =>
      rw [hclaim] at hleaf
      cases hleaf
  | some v =>
      rw [hclaim] at hleaf hclaimed
      cases v with
      | str s =>
          cases hleaf
          cases hclaimed
          exact .inl ⟨_, rfl, decode_of_lower hx⟩
      | arr xs =>
          cases hleaf
          have hshort := length_of_joinStr hclaimed hx
          rw [List.drop_eq_nil_of_le (by omega)]
          exact .inr rfl
      | _ => cases hleaf

/-! ## The root of a list of leaves -/

/-- The bytes of a leaf. -/
theorem un_leaf (hempty : H.bufferOf (.arr []) = some []) {leaf : Json} {d : Bytes} (h : LeafOf leaf d) :
    ∃ b, Merkle.un H.toHost leaf = .ok b ∧ (b = d ∨ b = []) := by
  rcases h with ⟨s, rfl, hs⟩ | rfl
  · exact ⟨d, congrArg Except.ok hs, .inl rfl⟩
  · refine ⟨[], ?_, .inr rfl⟩
    unfold Merkle.un JsonVal.toBuffer
    dsimp only
    rw [hempty]

theorem un_hexLeaf (d : Bytes) : Merkle.un H.toHost (hexLeaf d) = .ok d := Merkle.un_encode H.toHost d

theorem mapM_un_hexLeaf (ds : List Bytes) :
    (ds.map hexLeaf).mapM (fun x => Merkle.un H.toHost x) = .ok ds := by
  induction ds with
  | nil => rfl
  | cons d ds ih =>
      rw [List.map_cons, List.mapM_cons, un_hexLeaf, ih]
      rfl

/-- The root over the bytes of two leaves or more. -/
theorem rootOf_many {leaves : List Json} (hmany : 2 ≤ leaves.length) {root : Json}
    (h : rootOf H leaves = .ok root) : ∃ bytes top,
      leaves.mapM (fun x => Merkle.un H.toHost x) = .ok bytes ∧ root = .str (Hex.encode top) ∧
        (MerkleTree.nextLayer H.sha256)^[Nat.clog 2 leaves.length] bytes = [top] := by
  match leaves with
  | x :: y :: rest =>
      obtain ⟨bytes, hbytes, h⟩ := Outcome.bind_eq_ok.mp h
      obtain ⟨tree, htree, h⟩ := Outcome.bind_eq_ok.mp h
      cases h
      have hlen : bytes.length = (x :: y :: rest).length := (Outcome.mapM_eq_ok hbytes).length_eq.symm
      have hne : bytes ≠ [] := by
        rintro rfl
        cases hlen
      obtain ⟨tree', top, htree', htop, hroot, -⟩ := Merkle.buildTree_eq H.toNode hne
      rw [htree] at htree'
      cases htree'
      exact ⟨bytes, top, hbytes, by rw [hroot], hlen ▸ htop⟩

/-- **Leaves under a root that is that of as many digests have their bytes.** -/
theorem bytes_of_root (hH : MerkleTree.CollisionFree H.sha256) {xs : List Bytes} {leaves : List Json}
    {bytes : List Bytes} (hbytes : leaves.mapM (fun x => Merkle.un H.toHost x) = .ok bytes)
    (hblank : ∀ b ∈ bytes, MerkleTree.Blank H.sha256 b) (hlen : leaves.length = xs.length)
    {root root' : Json} (hroot : rootOf H ((xs.map H.sha256).map hexLeaf) = .ok root)
    (hroot' : rootOf H leaves = .ok root') (heq : JsonVal.strictEq (some root') (some root) = true) :
    bytes = xs.map H.sha256 := by
  by_cases hmany : 2 ≤ xs.length
  · obtain ⟨bytes', top, hbytes', rfl, htop⟩ := rootOf_many (by simpa using hmany) hroot
    obtain ⟨bytes'', top', hbytes'', rfl, htop'⟩ := rootOf_many (hlen ▸ hmany) hroot'
    rw [mapM_un_hexLeaf] at hbytes'
    cases hbytes'
    rw [hbytes] at hbytes''
    cases hbytes''
    have htops : top' = top := Hex.encode_injective (Json.str.inj (Option.some.inj (JsonVal.eq_of_strictEq heq)))
    have hdigests : MerkleTree.Digests H.sha256 (xs.map H.sha256) := by
      intro d hd
      obtain ⟨x, -, rfl⟩ := List.mem_map.mp hd
      exact ⟨x, rfl⟩
    have hcount : (xs.map H.sha256).length = bytes.length := by
      rw [List.length_map, ← hlen]
      exact (Outcome.mapM_eq_ok hbytes).length_eq
    refine (MerkleTree.root_inj hH (Nat.clog 2 leaves.length) hdigests hblank hcount ?_).symm
    rw [List.length_map, List.length_map, ← hlen] at htop
    rw [htop, htop', htops]
  · match xs, leaves, hlen with
    | [], [], _ => cases hroot
    | [x], [leaf], _ =>
        cases hroot
        cases hroot'
        rw [Option.some.inj (JsonVal.eq_of_strictEq heq), List.mapM_cons, un_hexLeaf] at hbytes
        cases hbytes
        rfl
    | x :: y :: rest, _, _ => exact absurd (Nat.le_add_left 2 rest.length) hmany

/-! ## Whatever verifies under a seal -/

theorem checkRecords_ok {pub : JsString} {rs : List Json} (h : checkRecords H pub rs = .ok none) :
    ∀ r ∈ rs, Receipt.verifyRecord H.toHost (some r) = .ok (.ok (.str pub)) := by
  induction rs with
  | nil =>
      intro r hr
      cases hr
  | cons x rest ih =>
      obtain ⟨v, hv, h⟩ := Outcome.bind_eq_ok.mp h
      cases v with
      | fail reason =>
          obtain ⟨id, -, h⟩ := Outcome.bind_eq_ok.mp h
          cases h
      | ok signer =>
          simp only at h
          split at h
          · rename_i hsigner
            rw [Option.some.inj (JsonVal.eq_of_strictEq hsigner)] at hv
            exact List.forall_mem_cons.mpr ⟨hv, ih h⟩
          · obtain ⟨id, -, h⟩ := Outcome.bind_eq_ok.mp h
            cases h

/-- What was checked when a ledger verifies. -/
theorem verifyLedger_ok {L : Ledger} {pub : JsString} {files : Option (JsMap JsString Bytes)} {r : Report}
    (h : verifyLedger H L (some pub) files = .ok (.ok r)) :
    (∀ x ∈ L.records, Receipt.verifyRecord H.toHost (some x) = .ok (.ok (.str pub))) ∧
      (∃ root, sealRoot H L.records = .ok root ∧
        JsonVal.strictEq (some root) (L.sealRecord.get "root") = true) ∧
      JsonVal.strictEq (L.sealRecord.get "recordCount") (some (.int L.records.length)) = true ∧
      recheckGiven H files (ofKind "manifest/1" L.records) = .ok none := by
  rw [verifyLedger, Option.getD_some] at h
  split at h
  · cases h
  · obtain ⟨failed, hchecked, h⟩ := Outcome.bind_eq_ok.mp h
    cases failed with
    | some f => cases h
    | none =>
        obtain ⟨root, hroot, h⟩ := Outcome.bind_eq_ok.mp h
        split at h
        · rename_i hseal
          obtain ⟨altered, hfiles, h⟩ := Outcome.bind_eq_ok.mp h
          cases altered with
          | some f => cases h
          | none =>
              rw [Bool.and_eq_true] at hseal
              have hall := checkRecords_ok hchecked
              exact ⟨fun x hx => hall x (List.mem_append_left _ hx), ⟨root, hroot, hseal.1⟩, hseal.2,
                hfiles⟩
        · cases h

/-- The record has an id, and its leaf the digest in it, or nothing. -/
def IdAndBytes (H : StationHost) (r : Json) (b : Bytes) : Prop :=
  ∃ x, r.contentId H.toNode = .ok (idText (H.sha256 x)) ∧ (b = H.sha256 x ∨ b = [])

/-- The bytes of the leaves of records that verify: the digests in their ids, or none. -/
theorem bytes_of_verified (hempty : H.bufferOf (.arr []) = some []) {pub : JsString} {rs leaves : List Json}
    (hverify : ∀ r ∈ rs, Receipt.verifyRecord H.toHost (some r) = .ok (.ok (.str pub)))
    (hleaves : rs.mapM leafOf = .ok leaves) :
    ∃ bytes, leaves.mapM (fun x => Merkle.un H.toHost x) = .ok bytes ∧
      List.Forall₂ (IdAndBytes H) rs bytes := by
  have hall := Outcome.mapM_eq_ok hleaves
  clear hleaves
  induction hall with
  | nil => exact ⟨[], rfl, .nil⟩
  | @cons r leaf rs leaves hleaf _ ih =>
      obtain ⟨hr, hrs⟩ := List.forall_mem_cons.mp hverify
      obtain ⟨x, hid, hx⟩ := leaf_of_verified hr hleaf
      obtain ⟨b, hb, hblank⟩ := un_leaf hempty hx
      obtain ⟨bytes, hbytes, hids⟩ := ih hrs
      refine ⟨b :: bytes, ?_, .cons ⟨x, hid, hblank⟩ hids⟩
      rw [List.mapM_cons, hb, hbytes]
      rfl

theorem blank_of_verified {rs : List Json} {bytes : List Bytes}
    (h : List.Forall₂ (IdAndBytes H) rs bytes) : ∀ b ∈ bytes, MerkleTree.Blank H.sha256 b := by
  induction h with
  | nil =>
      intro b hb
      cases hb
  | cons hfirst _ ih =>
      obtain ⟨x, -, hb⟩ := hfirst
      exact List.forall_mem_cons.mpr ⟨hb.symm.imp id fun hx => ⟨x, hx⟩, ih⟩

/-- Records whose leaves are the digests of others have the ids of those. -/
theorem ids_of_bytes (hH : MerkleTree.CollisionFree H.sha256) {rs records : List Json} {xs : List Bytes}
    (h' : List.Forall₂ (IdAndBytes H) rs (xs.map H.sha256))
    (h : List.Forall₂ (fun r x => r.contentId H.toNode = .ok (idText (H.sha256 x))) records xs) :
    List.Forall₂ (fun a b => ∃ id, a.contentId H.toNode = .ok id ∧ b.contentId H.toNode = .ok id) rs
      records := by
  induction h generalizing rs with
  | nil =>
      cases h'
      exact .nil
  | @cons r x records xs hid _ ih =>
      cases h' with
      | cons hfirst hrest =>
          obtain ⟨y, hidy, hxy⟩ := hfirst
          have hsame := hxy.resolve_right (hH.ne_nil x)
          exact .cons ⟨_, hsame ▸ hidy, hid⟩ (ih hrest)

variable {kp : AgentKey} {i : Input} {L : Ledger}

/-- **The seal binds the contents**: whatever records stand under it and verify have the ids of those that
were sealed, one by one. -/
theorem ids_of_sealed (hH : MerkleTree.CollisionFree H.sha256) (hempty : H.bufferOf (.arr []) = some [])
    (hbuilt : Built H kp i L) {rs : List Json} {files : Option (JsMap JsString Bytes)} {report : Report}
    (h : verifyLedger H { L with records := rs } (some kp.pub) files = .ok (.ok report)) :
    List.Forall₂ (fun a b => ∃ id, a.contentId H.toNode = .ok id ∧ b.contentId H.toNode = .ok id) rs
      L.records := by
  obtain ⟨hverify, ⟨root', hroot', heq⟩, hcount, -⟩ := verifyLedger_ok h
  obtain ⟨root, hroot, hseal⟩ := hbuilt.sealed
  have hsealRoot : L.sealRecord.get "root" = some root := by
    rw [Receipt.get_signRecord H.toHost hseal (by decide) (by decide) (by decide)]
    rfl
  have hsealCount : L.sealRecord.get "recordCount" = some (.int L.records.length) := by
    rw [Receipt.get_signRecord H.toHost hseal (by decide) (by decide) (by decide)]
    rfl
  obtain ⟨xs, hleaves, hids⟩ := leaves_of_made hbuilt.made
  obtain ⟨leaves, hleaves', hroot'⟩ := Outcome.bind_eq_ok.mp hroot'
  obtain ⟨bytes, hbytes, hids'⟩ := bytes_of_verified hempty hverify hleaves'
  rw [sealRoot, hleaves] at hroot
  have hlen : leaves.length = xs.length := by
    have hlength : L.records.length = rs.length := by
      rw [show ({ L with records := rs } : Ledger).sealRecord.get "recordCount" = _ from hsealCount]
        at hcount
      have hint := Json.num.inj (Option.some.inj (JsonVal.eq_of_strictEq_int hcount))
      exact_mod_cast JsNum.fin.inj hint
    rw [← (Outcome.mapM_eq_ok hleaves').length_eq, ← hids.length_eq]
    exact hlength.symm
  have hsame := bytes_of_root hH hbytes (blank_of_verified hids') hlen hroot hroot' (hsealRoot ▸ heq)
  exact ids_of_bytes hH (hsame ▸ hids') hids

/-! ## Products -/

theorem fingerprint_fields {bytes : Bytes} {size : JsonVal} {fp : Fingerprint}
    (h : fingerprint H bytes size = .ok fp) :
    fp.chunkSize = size.getD defaultChunkSize ∧ fp.sha256 = Hex.encode (H.sha256 bytes) := by
  obtain ⟨cs, -, h⟩ := Outcome.bind_eq_ok.mp h
  obtain ⟨tree, -, h⟩ := Outcome.bind_eq_ok.mp h
  cases h
  exact ⟨rfl, rfl⟩

theorem strictEq_str (s t : JsString) :
    JsonVal.strictEq (some (.str s)) (some (.str t)) = decide (s = t) := by
  rw [JsonVal.strictEq, beq_eq_decide]

/-- **A product is as its manifest says exactly when it is the file that was received.** -/
theorem recheck_iff (hinj : Function.Injective H.sha256) {f : File} {m : Json}
    (hm : ManifestOf H kp i f m) (files : JsMap JsString Bytes) :
    recheck H files m = .ok none ↔ files.get? f.name = some f.bytes := by
  obtain ⟨fp, pass, hfp, hroot, hmeta⟩ := hm.content
  obtain ⟨hsize, hsha⟩ := fingerprint_fields hfp
  have hname : JsonVal.get (some (.obj (manifestMeta i f fp pass))) "name" = .ok (some (.str f.name)) :=
    rfl
  have hchunk : JsonVal.get (some (.obj (manifestMeta i f fp pass))) "chunkSize" =
      .ok (some fp.chunkSize) := rfl
  have hhash : JsonVal.get (some (.obj (manifestMeta i f fp pass))) "sha256" =
      .ok (some (.str fp.sha256)) := rfl
  rw [recheck, hmeta]
  simp only [hname, hchunk, hhash, hroot, Outcome.ok_bind, fileNamed, strictEq_str]
  cases hget : files.get? f.name with
  | none =>
      constructor
      · intro h
        cases h
      · intro h
        cases h
  | some b =>
      rw [Option.some.injEq]
      constructor
      · intro h
        obtain ⟨fp', hfp', h⟩ := Outcome.bind_eq_ok.mp h
        split at h
        · rename_i hsame
          rw [Bool.and_eq_true, decide_eq_true_eq, decide_eq_true_eq, (fingerprint_fields hfp').2, hsha]
            at hsame
          exact hinj (Hex.encode_injective hsame.2)
        · cases h
      · rintro rfl
        have hagain : fingerprint H f.bytes (some fp.chunkSize) = .ok fp := by
          rw [hsize]
          exact hfp
        show (fingerprint H f.bytes (some fp.chunkSize) >>= _) = _
        rw [hagain, Outcome.ok_bind, decide_eq_true rfl, decide_eq_true rfl]
        rfl

theorem recheckAll_iff (files : JsMap JsString Bytes) (ms : List Json) :
    recheckAll H files ms = .ok none ↔ ∀ m ∈ ms, recheck H files m = .ok none := by
  induction ms with
  | nil => exact ⟨fun _ m hm => (by cases hm), fun _ => rfl⟩
  | cons m rest ih =>
      rw [List.forall_mem_cons, ← ih, recheckAll]
      constructor
      · intro h
        obtain ⟨found, hfound, h⟩ := Outcome.bind_eq_ok.mp h
        cases found with
        | some f => cases h
        | none => exact ⟨hfound, h⟩
      · rintro ⟨hm, hrest⟩
        rw [hm, Outcome.ok_bind]
        exact hrest

theorem mem_ofKind {kind : String} {rs : List Json} {r : Json} :
    r ∈ ofKind kind rs ↔ r ∈ rs ∧ r.get "kind" = some (.text kind) := by
  rw [ofKind, List.mem_filter]
  refine and_congr_right fun _ => ⟨fun h => ?_, fun h => ?_⟩
  · cases hget : r.get "kind" with
    | none =>
        rw [hget] at h
        cases h
    | some v =>
        rw [hget] at h
        rw [Option.some.inj (JsonVal.eq_of_strictEq h), Json.text]
  · rw [h]
    exact (strictEq_str _ _).trans (decide_eq_true rfl)

/-- The products on disk pass exactly when they are the files that were received. -/
theorem recheckGiven_iff (hinj : Function.Injective H.sha256) (hbuilt : Built H kp i L)
    (files : JsMap JsString Bytes) :
    recheckGiven H (some files) (ofKind "manifest/1" L.records) = .ok none ↔
      ∀ f ∈ i.files, files.get? f.name = some f.bytes := by
  rw [recheckGiven, recheckAll_iff]
  constructor
  · intro h f hf
    obtain ⟨m, hm, hmanifest⟩ := hbuilt.covered f hf
    exact (recheck_iff hinj hmanifest files).mp (h m (mem_ofKind.mpr ⟨hm, hmanifest.kind⟩))
  · intro h m hm
    obtain ⟨hmem, hkind⟩ := mem_ofKind.mp hm
    obtain ⟨f, hf, hmanifest⟩ := hbuilt.manifest m hmem hkind
    exact (recheck_iff hinj hmanifest files).mpr (h f hf)

/-! ## Ledgers -/

/-- `verifyLedger` says ok under a key. -/
def Accepts (H : StationHost) (L : Ledger) (pub : JsString) (files : Option (JsMap JsString Bytes)) :
    Prop := ∃ r, verifyLedger H L (some pub) files = .ok (.ok r)

theorem checkRecords_of_verified {pub : JsString} {rs : List Json}
    (h : ∀ r ∈ rs, Receipt.verifyRecord H.toHost (some r) = .ok (.ok (.str pub))) :
    checkRecords H pub rs = .ok none := by
  induction rs with
  | nil => rfl
  | cons r rs ih =>
      obtain ⟨hr, hrs⟩ := List.forall_mem_cons.mp h
      rw [checkRecords, hr, Outcome.ok_bind]
      show (if JsonVal.strictEq (some (.str pub)) (some (.str pub)) = true then _ else _) = _
      rw [if_pos ((strictEq_str pub pub).trans (decide_eq_true rfl))]
      exact ih hrs

/-- The root of leaves that are text is text. -/
theorem rootOf_str {ds : List Bytes} {root : Json} (h : rootOf H (ds.map hexLeaf) = .ok root) :
    ∃ s, root = .str s := by
  match ds with
  | [] => cases h
  | [d] =>
      cases h
      exact ⟨_, rfl⟩
  | d :: e :: rest =>
      obtain ⟨_, top, -, rfl, -⟩ := rootOf_many (by simp) h
      exact ⟨_, rfl⟩

/-- A ledger that was built is accepted, with products given, exactly when these are as they were. -/
theorem accepts_iff (hkey : Receipt.Signs H.toHost kp) (hbuilt : Built H kp i L)
    (files : Option (JsMap JsString Bytes)) :
    Accepts H L kp.pub files ↔ recheckGiven H files (ofKind "manifest/1" L.records) = .ok none := by
  constructor
  · rintro ⟨r, h⟩
    exact (verifyLedger_ok h).2.2.2
  · intro hfiles
    obtain ⟨root, hroot, hseal⟩ := hbuilt.sealed
    have hchecked : checkRecords H kp.pub (L.records ++ [L.sealRecord]) = .ok none := by
      refine checkRecords_of_verified fun r hr => ?_
      rcases List.mem_append.mp hr with hr | hr
      · exact (hbuilt.made r hr).verify hkey
      · rw [List.mem_singleton] at hr
        exact hr ▸ Made.verify hkey ⟨_, plain_seal _ _ _, hseal⟩
    have hgetRoot : L.sealRecord.get "root" = some root := by
      rw [Receipt.get_signRecord H.toHost hseal (by decide) (by decide) (by decide)]
      rfl
    have hgetCount : L.sealRecord.get "recordCount" = some (.int L.records.length) := by
      rw [Receipt.get_signRecord H.toHost hseal (by decide) (by decide) (by decide)]
      rfl
    have hsame : (JsonVal.strictEq (some root) (L.sealRecord.get "root") &&
        JsonVal.strictEq (L.sealRecord.get "recordCount") (some (.int L.records.length))) = true := by
      obtain ⟨xs, hleaves, -⟩ := leaves_of_made hbuilt.made
      rw [sealRoot, hleaves] at hroot
      obtain ⟨s, rfl⟩ := rootOf_str hroot
      rw [hgetRoot, hgetCount, strictEq_str, decide_eq_true rfl]
      simp [Json.int, JsonVal.strictEq]
    refine ⟨reportOf L files, ?_⟩
    rw [verifyLedger, Option.getD_some, if_neg hkey.pub_ne, hchecked, Outcome.ok_bind]
    show (sealRoot H L.records >>= _) = _
    rw [hroot, Outcome.ok_bind, if_pos hsame, hfiles]
    rfl

/-- Contents that have one id are one content: content identifiers do not collide on these records. -/
def IdsBind (H : StationHost) (as bs : List Json) : Prop :=
  ∀ a ∈ as, ∀ b ∈ bs, ∀ id, a.contentId H.toNode = .ok id → b.contentId H.toNode = .ok id →
    Json.SameContent a b

theorem sameContent_of_ids {as bs : List Json} (hids : IdsBind H as bs)
    (h : List.Forall₂ (fun a b => ∃ id, a.contentId H.toNode = .ok id ∧ b.contentId H.toNode = .ok id)
      as bs) : List.Forall₂ Json.SameContent as bs := by
  induction h with
  | nil => exact .nil
  | cons hfirst _ ih =>
      obtain ⟨id, ha, hb⟩ := hfirst
      refine .cons (hids _ List.mem_cons_self _ List.mem_cons_self id ha hb) (ih ?_)
      exact fun a ha b hb => hids a (List.mem_cons_of_mem _ ha) b (List.mem_cons_of_mem _ hb)

/-- **A ledger verifies, and no other records do under its seal.** What was built is accepted; it is
accepted with products exactly when each is the file that was received; and no list of records with other
contents, or in another order or number, is accepted under the same seal. -/
theorem ledger_sealed (hH : MerkleTree.CollisionFree H.sha256) (hempty : H.bufferOf (.arr []) = some [])
    (hkey : Receipt.Signs H.toHost kp) (hbuild : buildLedger H kp i = .ok L) :
    Accepts H L kp.pub none ∧
      ((i.files.map File.name).Nodup →
        Accepts H L kp.pub (some (JsMap.ofList (i.files.map fun f => (f.name, f.bytes))))) ∧
      (∀ files, (∃ f ∈ i.files, files.get? f.name ≠ some f.bytes) →
        ¬ Accepts H L kp.pub (some files)) ∧
      ∀ rs, IdsBind H rs L.records → ¬ List.Forall₂ Json.SameContent rs L.records →
        ∀ files, ¬ Accepts H { L with records := rs } kp.pub files := by
  have hbuilt := built_of_buildLedger hbuild
  have hgiven := recheckGiven_iff hH.injective hbuilt
  refine ⟨(accepts_iff hkey hbuilt none).mpr rfl, fun hnames => ?_, ?_, ?_⟩
  · refine (accepts_iff hkey hbuilt _).mpr ((hgiven _).mpr fun f hf => ?_)
    rw [← JsMap.mem_entries_iff, JsMap.entries_ofList]
    · exact List.mem_map_of_mem hf
    · rw [List.map_map]
      exact hnames
  · rintro files ⟨f, hf, hne⟩ haccepts
    exact hne ((hgiven files).mp ((accepts_iff hkey hbuilt _).mp haccepts) f hf)
  · rintro rs hids hother files ⟨r, h⟩
    exact hother (sameContent_of_ids hids (ids_of_sealed hH hempty hbuilt h))

/-! A station that received two files, one of them outside the schedule. -/

def sampleStation : StationHost :=
  { Path.sampleHost with
    bufferOf := fun v => if v.isObject then some [] else none
    dateParse := fun _ => .nan
    localeCompare := fun a b => if a < b then -1 else if a = b then 0 else 1
    oddChunks := fun _ _ => .ok [] }

def sampleInput : Input where
  station := js "ipn:20.0"
  spacecraft := js "ipn:5.0"
  files := [⟨js "b.bin", [4], .fin 7000⟩, ⟨js "a.bin", [1, 2, 3], .fin 60⟩]
  passes := [⟨.text "P2", .num (.fin 600), .num (.fin 660)⟩, ⟨.text "P1", .num (.fin 0), .num (.fin 60)⟩]

theorem sampleStation_signs : Receipt.Signs sampleStation.toHost Path.sampleKey :=
  Path.sampleKey_signs rfl rfl

/-- Its ledger verifies, with the files as they were, and not with one of them missing; and no ledger
without records is accepted under its seal. -/
theorem ledger_sealed_sample : ∃ L, buildLedger sampleStation Path.sampleKey sampleInput = .ok L ∧
    Accepts sampleStation L Path.sampleKey.pub
      (some (JsMap.ofList (sampleInput.files.map fun f => (f.name, f.bytes)))) ∧
    ¬ Accepts sampleStation L Path.sampleKey.pub (some JsMap.empty) ∧
    ¬ Accepts sampleStation { L with records := [] } Path.sampleKey.pub none := by
  obtain ⟨L, hbuild⟩ := Outcome.exists_ok (x := buildLedger sampleStation Path.sampleKey sampleInput)
    (by decide +kernel)
  obtain ⟨-, hfiles, haltered, hother⟩ :=
    ledger_sealed sampleHash_collisionFree rfl sampleStation_signs hbuild
  refine ⟨L, hbuild, hfiles (by decide +kernel), haltered _ ⟨_, List.mem_cons_self, by decide⟩, ?_⟩
  refine hother [] (fun a ha => (by cases ha)) (fun hall => ?_) none
  obtain ⟨m, hm, -⟩ := (built_of_buildLedger hbuild).covered _ List.mem_cons_self
  have hnil : L.records = [] := List.forall₂_nil_left_iff.mp hall
  rw [hnil] at hm
  cases hm

end Ground

end DtnCustody
