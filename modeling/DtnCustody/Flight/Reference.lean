/-
# DtnCustody.Flight.Reference — what an accepted call writes is the record of the reference.

For each record the reference's content, sorted, is the list of fields that the writer on board has; so
the identifiers agree, the credentials agree, and then the records (`signed_same`).
-/
import DtnCustody.Agent.Custody
import DtnCustody.Agent.Source
import DtnCustody.Flight.Fold
import DtnCustody.Flight.Records

namespace DtnCustody

open Base Js

namespace Flight

/-! ## Encodings -/

theorem utf16_charOf : ∀ n < 64, utf16 [Base64.charOf n] = [(b64Digit n 0).toUInt16] := by
  decide +kernel

theorem b64Digit_eq {v shift n : Nat} (h : v / 2 ^ shift % 64 = n) : b64Digit v shift = b64Digit n 0 := by
  have hn : n % 64 = n := by omega
  rw [b64Digit, b64Digit, Nat.shiftRight_eq_div_pow, h, Nat.shiftRight_zero, hn]

theorem utf16_sextet {v shift n : Nat} (h : v / 2 ^ shift % 64 = n) :
    utf16 [Base64.charOf n] = unitsOf [b64Digit v shift] := by
  rw [utf16_charOf n (by omega), b64Digit_eq h]
  rfl

/-- **Base64 on board** is the reference's. -/
theorem utf16_encode (b : Bytes) : utf16 (Base64.encode b) = unitsOf (b64 b) := by
  induction b using Base64.toSextets.induct with
  | case1 x y z rest ih =>
      have hx := x.toNat_lt
      have hy := y.toNat_lt
      have hz := z.toNat_lt
      have hpad : Base64.padding (x :: y :: z :: rest) = Base64.padding rest := by
        unfold Base64.padding
        have hlength : (x :: y :: z :: rest).length % 3 = rest.length % 3 := Nat.add_mod_right rest.length 3
        rw [hlength]
      have hsplit : Base64.encode (x :: y :: z :: rest) =
          [Base64.charOf (x.toNat / 4)] ++ ([Base64.charOf (x.toNat % 4 * 16 + y.toNat / 16)] ++
            ([Base64.charOf (y.toNat % 16 * 4 + z.toNat / 64)] ++
              ([Base64.charOf (z.toNat % 64)] ++ Base64.encode rest))) := by
        rw [Base64.encode, hpad, Base64.toSextets]
        rfl
      rw [hsplit, utf16_append, utf16_append, utf16_append, utf16_append, ih, b64]
      simp only [Nat.shiftLeft_eq]
      rw [@utf16_sextet (x.toNat * 2 ^ 16 + y.toNat * 2 ^ 8 + z.toNat) 18 _ (by omega),
        @utf16_sextet (x.toNat * 2 ^ 16 + y.toNat * 2 ^ 8 + z.toNat) 12 _ (by omega),
        @utf16_sextet (x.toNat * 2 ^ 16 + y.toNat * 2 ^ 8 + z.toNat) 6 _ (by omega),
        @utf16_sextet (x.toNat * 2 ^ 16 + y.toNat * 2 ^ 8 + z.toNat) 0 _ (by omega)]
      rfl
  | case2 x y =>
      have hx := x.toNat_lt
      have hy := y.toNat_lt
      have hsplit : Base64.encode [x, y] =
          [Base64.charOf (x.toNat / 4)] ++ ([Base64.charOf (x.toNat % 4 * 16 + y.toNat / 16)] ++
            ([Base64.charOf (y.toNat % 16 * 4)] ++ ['='])) := rfl
      rw [hsplit, utf16_append, utf16_append, utf16_append, b64]
      simp only [Nat.shiftLeft_eq]
      rw [@utf16_sextet (x.toNat * 2 ^ 16 + y.toNat * 2 ^ 8) 18 _ (by omega),
        @utf16_sextet (x.toNat * 2 ^ 16 + y.toNat * 2 ^ 8) 12 _ (by omega),
        @utf16_sextet (x.toNat * 2 ^ 16 + y.toNat * 2 ^ 8) 6 _ (by omega)]
      rfl
  | case3 x =>
      have hx := x.toNat_lt
      have hsplit : Base64.encode [x] =
          [Base64.charOf (x.toNat / 4)] ++ ([Base64.charOf (x.toNat % 4 * 16)] ++ ['=', '=']) := rfl
      rw [hsplit, utf16_append, utf16_append, b64]
      simp only [Nat.shiftLeft_eq]
      rw [@utf16_sextet (x.toNat * 2 ^ 16) 18 _ (by omega),
        @utf16_sextet (x.toNat * 2 ^ 16) 12 _ (by omega)]
      rfl
  | case4 => rfl

theorem hexDigit_eq : ∀ n < 16, Hex.digit n = (hexDigit n).toUInt16 := by decide +kernel

/-- **Hexadecimal on board** is the reference's. -/
theorem encode_hex (b : Bytes) : Hex.encode b = unitsOf (ckHex b) := by
  induction b with
  | nil => rfl
  | cons x rest ih =>
      have hx := x.toNat_lt
      have hhigh := hexDigit_eq (x.toNat / 16) (by omega)
      have hlow := hexDigit_eq (x.toNat % 16) (by omega)
      show Hex.digit (x.toNat / 16) :: Hex.digit (x.toNat % 16) :: Hex.encode rest = _
      rw [hhigh, hlow, ih]
      show _ = (hexDigit (x.toNat >>> 4)).toUInt16 :: (hexDigit (x.toNat % 16)).toUInt16 ::
        unitsOf (ckHex rest)
      rw [Nat.shiftRight_eq_div_pow]

theorem safe_hexDigit : ∀ n < 16, safe [hexDigit n] = true := by decide +kernel

theorem safe_ckHex (b : Bytes) : safe (ckHex b) = true := by
  apply safe_iff.mpr
  intro d hd
  obtain ⟨x, -, hd⟩ := List.mem_flatMap.mp hd
  have hx := x.toNat_lt
  have hdigit : ∃ n < 16, d = hexDigit n := by
    rcases List.mem_cons.mp hd with rfl | hd
    · exact ⟨_, by rw [Nat.shiftRight_eq_div_pow]; omega, rfl⟩
    · exact ⟨_, by omega, List.mem_singleton.mp hd⟩
  obtain ⟨n, hn, rfl⟩ := hdigit
  exact safe_iff.mp (safe_hexDigit n hn) _ List.mem_cons_self

theorem safe_b64Digit : ∀ n < 64, safe [b64Digit n 0] = true := by decide +kernel

theorem safe_b64 (b : Bytes) : safe (b64 b) = true := by
  have hdigit : ∀ v shift, safe [b64Digit v shift] = true := by
    intro v shift
    rw [b64Digit_eq rfl]
    exact safe_b64Digit _ (Nat.mod_lt _ (by omega))
  have happend : ∀ {s t : Bytes}, safe s = true → safe t = true → safe (s ++ t) = true := by
    intro s t hs ht
    rw [safe, List.all_append, Bool.and_eq_true]
    exact ⟨hs, ht⟩
  have hpad : safe [61] = true := by decide
  induction b using b64.induct with
  | case1 => rfl
  | case2 x => exact happend (hdigit _ 18) (happend (hdigit _ 12) (happend hpad hpad))
  | case3 x y =>
      exact happend (hdigit _ 18) (happend (hdigit _ 12) (happend (hdigit _ 6) hpad))
  | case4 x y z rest ih =>
      exact happend (hdigit _ 18) (happend (hdigit _ 12) (happend (hdigit _ 6)
        (happend (hdigit _ 0) ih)))

/-! ## A field and its value -/

/-- What the reference has for a string on board; it has nothing for NULL. -/
def valueOf (v : Option Bytes) : Json := .str (textOf (v.getD []))

/-- The property that a field is. -/
def Field.property : Field → JsString × Json
  | .str k v => (js k, valueOf v)
  | .num k v => (js k, .int v)
  | .chunkSize v => (js "meta", .obj [(js "chunkSize", .int v)])

/-- The key is written as it is; the number of `meta` is checked before the writer is called. -/
def Field.Keyed : Field → Prop
  | .str k _ => IsPlain (js k)
  | .num k _ => IsPlain (js k)
  | .chunkSize v => v ≤ 9007199254740991

variable {N : FlightHost}

theorem sameField_property {f : Field} (hkeyed : f.Keyed) (h : f.Accepted) :
    SameField N.toNode f f.property := by
  cases f with
  | str k v =>
      obtain ⟨s, rfl, hs⟩ := h
      exact sameField_str hkeyed hs
  | num k v => exact sameField_num hkeyed h
  | chunkSize v => exact sameField_meta hkeyed

/-- **A record that is written** is the text of its properties. -/
theorem writeRecord_properties {cap : Nat} {fs : List Field} {out : Bytes}
    (h : writeRecord cap fs = .ok out) (hkeyed : ∀ f ∈ fs, f.Keyed) :
    out = toUtf8 (Json.stringify N.toNode (.obj (fs.map Field.property))) := by
  apply writeRecord_same h
  have haccepted := (writeRecord_ok h).1
  clear h
  induction fs with
  | nil => exact .nil
  | cons f rest ih =>
      obtain ⟨hf, hrest⟩ := List.forall_mem_cons.mp hkeyed
      obtain ⟨hf', hrest'⟩ := List.forall_mem_cons.mp haccepted
      exact .cons (sameField_property hf hf') (ih hrest hrest')

theorem valueOf_lit {s : String} (hs : IsAscii (js s)) (hsafe : safe (lit s) = true) :
    valueOf (some (lit s)) = .text s := by
  rw [valueOf, Option.getD_some, textOf_safe hsafe, lit, unitsOf_bytesOf hs]
  rfl

theorem valueOf_hex (b : Bytes) : valueOf (some (ckHex b)) = .str (Hex.encode b) := by
  rw [valueOf, Option.getD_some, textOf_safe (safe_ckHex b), encode_hex]

theorem valueOf_b64 (b : Bytes) : valueOf (some (b64 b)) = .str (utf16 (Base64.encode b)) := by
  rw [valueOf, Option.getD_some, textOf_safe (safe_b64 b), utf16_encode]

/-! ## Identifiers and credentials -/

/-- The key of the reference that was made from the same seed. -/
def agentKey (N : FlightHost) (seed : Bytes) : AgentKey :=
  { priv := seed, pub := utf16 (Base64.encode (spki ++ N.ed25519Public seed)) }

theorem safe_contentId (c : Bytes) : safe (contentId N c) = true := by
  rw [contentId, safe, List.all_append, Bool.and_eq_true]
  exact ⟨by decide, safe_ckHex _⟩

theorem valueOf_contentId (c : Bytes) :
    valueOf (some (contentId N c)) = .str (unitsOf (contentId N c)) := by
  rw [valueOf, Option.getD_some, textOf_safe (safe_contentId c)]

/-- **The identifier** of a content whose sorted properties are the fields on board. -/
theorem contentId_same {cap : Nat} {fs : List Field} {c : Bytes} (h : writeRecord cap fs = .ok c)
    (hkeyed : ∀ f ∈ fs, f.Keyed) {content : List (JsString × Json)}
    (hsorted : (Json.obj content).pickContent.sortKeysDeep 0 = .ok (.obj (fs.map Field.property))) :
    (Json.obj content).contentId N.toNode = .ok (unitsOf (contentId N c)) := by
  have hcanon : (Json.obj content).pickContent.canonicalize N.toNode =
      .ok (Json.stringify N.toNode (.obj (fs.map Field.property))) := by
    rw [Json.canonicalize, hsorted]
    rfl
  rw [Json.contentId, hcanon, Outcome.ok_bind, Json.sha256hex, ← writeRecord_properties h hkeyed,
    encode_hex, contentId, unitsOf_append, lit, unitsOf_bytesOf (by decide)]
  rfl

/-- The credentials on board. -/
def credentials (N : FlightHost) (k : CkKey) (c : Bytes) : List (JsString × Json) :=
  [(js "claimId", valueOf (some (contentId N c))),
    (js "sig", valueOf (some (signId N k (contentId N c)))), (js "signerPub", valueOf (some k.pubB64))]

/-- **The signed record** of such a content is the content with the credentials on board. -/
theorem signRecord_same {seed : Bytes} (hseed : seed.length = 32) {cap : Nat} {fs : List Field}
    {c : Bytes} (h : writeRecord cap fs = .ok c) (hkeyed : ∀ f ∈ fs, f.Keyed)
    {content : List (JsString × Json)} (hplain : Receipt.Plain content)
    (hsorted : (Json.obj content).pickContent.sortKeysDeep 0 = .ok (.obj (fs.map Field.property))) :
    Receipt.signRecord N.toHost (agentKey N seed) content =
      .ok (.obj (content ++ credentials N (ckKeyFromSeed N seed) c)) := by
  have hid := contentId_same (N := N) h hkeyed hsorted
  have hsigned : Receipt.signRecord N.toHost (agentKey N seed) content =
      .ok (.obj (Receipt.setField (Receipt.setField (Receipt.setField content "claimId"
        (.str (unitsOf (contentId N c)))) "sig"
          (.str (Receipt.signClaim N.toHost seed (unitsOf (contentId N c))))) "signerPub"
            (.str (agentKey N seed).pub))) := by
    rw [Receipt.signRecord, hid]
    rfl
  obtain ⟨claimId, hclaim, hrecord⟩ := Receipt.signRecord_eq hplain hsigned
  rw [hid] at hclaim
  cases hclaim
  have htext : toUtf8 (unitsOf (contentId N c)) = contentId N c := by
    rw [toUtf8_ascii (isPlain_safe (safe_contentId c)).isAscii, bytesOf_unitsOf]
  have hsk : (ckKeyFromSeed N seed).sk.take 32 = seed := List.take_left' hseed
  rw [hsigned, hrecord, credentials, valueOf_contentId, signId, hsk, valueOf_b64, ckKeyFromSeed,
    valueOf_b64, Receipt.signClaim, htext]
  rfl

/-- **A record signed on board is the text of the reference's.** -/
theorem signed_same {seed : Bytes} (hseed : seed.length = 32) {room cap : Nat} {fs gs : List Field}
    {c out : Bytes} (hc : writeRecord room fs = .ok c) (hout : writeRecord cap gs = .ok out)
    (hfs : ∀ f ∈ fs, f.Keyed) (hgs : ∀ g ∈ gs, g.Keyed) {content : List (JsString × Json)}
    (hplain : Receipt.Plain content)
    (hsorted : (Json.obj content).pickContent.sortKeysDeep 0 = .ok (.obj (fs.map Field.property)))
    (hrecord : (Json.obj (content ++ credentials N (ckKeyFromSeed N seed) c)).sortKeysDeep 0 =
      .ok (.obj (gs.map Field.property))) :
    ∃ rec text, Receipt.signRecord N.toHost (agentKey N seed) content = .ok rec ∧
      rec.canonicalize N.toNode = .ok text ∧ out = toUtf8 text := by
  refine ⟨_, _, signRecord_same hseed hc hfs hplain hsorted, ?_,
    writeRecord_properties (N := N) hout hgs⟩
  rw [Json.canonicalize, hrecord]
  rfl

/-! ## The four calls -/

theorem bind_ok {α β : Type} {x : Except CkError α} {f : α → Except CkError β} {b : β} :
    (x >>= f) = .ok b ↔ ∃ a, x = .ok a ∧ f a = .ok b := by
  cases x with
  | error e => exact ⟨fun h => (by cases h), fun ⟨a, h, _⟩ => (by cases h)⟩
  | ok a => exact ⟨fun h => ⟨a, rfl, h⟩, fun ⟨_, rfl, h⟩ => h⟩

theorem ckBundleId_same {payloadId : Option Bytes} {index : UInt64} {leaf id : Bytes}
    (h : ckBundleId N payloadId index leaf = .ok id) :
    ∃ text, (Json.obj [(js "payloadId", valueOf payloadId), (js "index", .int index.toNat),
        (js "leafHex", .str (Hex.encode leaf))]).contentId N.toNode = .ok text ∧ id = toUtf8 text := by
  unfold ckBundleId at h
  obtain ⟨c, hc, h⟩ := bind_ok.mp h
  cases h
  have hkeyed : ∀ f ∈ [Field.num "index" index.toNat, .str "leafHex" (some (ckHex leaf)),
      .str "payloadId" payloadId], f.Keyed := by
    simp only [List.forall_mem_cons, Field.Keyed, List.not_mem_nil, false_implies,
      implies_true, and_true]
    decide
  refine ⟨_, contentId_same (N := N) hc hkeyed ?_, ?_⟩
  · rw [← valueOf_hex]
    rfl
  · rw [toUtf8_ascii (isPlain_safe (safe_contentId c)).isAscii, bytesOf_unitsOf]

theorem ckCustody_same {seed : Bytes} (hseed : seed.length = 32)
    {payloadId bundleId prevHop thisHop : Option Bytes} {receivedAt forwardedAt : UInt64} {cap : Nat}
    {out : Bytes} (h : ckCustody N (ckKeyFromSeed N seed) payloadId bundleId prevHop thisHop
      receivedAt forwardedAt cap = .ok out) :
    ∃ rec text, Receipt.custodyReceipt N.toHost (agentKey N seed)
        ⟨valueOf payloadId, valueOf bundleId, valueOf prevHop, valueOf thisHop,
          .int receivedAt.toNat, .int forwardedAt.toNat⟩ = .ok rec ∧
      rec.canonicalize N.toNode = .ok text ∧ out = toUtf8 text := by
  unfold ckCustody at h
  obtain ⟨c, hc, h⟩ := bind_ok.mp h
  have hkind : valueOf (some (lit "custody/1")) = .text "custody/1" :=
    valueOf_lit (by decide) (by decide)
  apply signed_same hseed hc h
  · simp only [List.forall_mem_cons, Field.Keyed, List.not_mem_nil, false_implies,
      implies_true, and_true]
    decide
  · simp only [List.forall_mem_cons, Field.Keyed, List.not_mem_nil, false_implies,
      implies_true, and_true]
    decide
  · simp only [Receipt.Plain, List.forall_mem_cons, List.not_mem_nil, false_implies,
      implies_true, and_true]
    decide
  · simp only [List.map, Field.property, hkind]
    rfl
  · simp only [List.map, Field.property, hkind]
    rfl

theorem ckManifest_same {seed : Bytes} (hseed : seed.length = 32) {payloadId : Option Bytes}
    {chunkCount chunkSize : UInt64} {root : Bytes} {cap : Nat} {out : Bytes}
    (h : ckManifest N (ckKeyFromSeed N seed) payloadId chunkCount root chunkSize cap = .ok out) :
    ∃ rec text, Receipt.signRecord N.toHost (agentKey N seed)
        (Source.buildManifest (valueOf payloadId) chunkCount.toNat (Hex.encode root)
          [(js "chunkSize", .int chunkSize.toNat)]) = .ok rec ∧
      rec.canonicalize N.toNode = .ok text ∧ out = toUtf8 text := by
  unfold ckManifest at h
  dsimp only at h
  split at h
  · cases h
  · next hsize =>
    rw [not_lt] at hsize
    obtain ⟨c, hc, h⟩ := bind_ok.mp h
    have hkind : valueOf (some (lit "manifest/1")) = .text "manifest/1" :=
      valueOf_lit (by decide) (by decide)
    apply signed_same hseed hc h
    · simp only [List.forall_mem_cons, Field.Keyed, hsize, List.not_mem_nil, false_implies,
        implies_true, and_true, true_and]
      decide
    · simp only [List.forall_mem_cons, Field.Keyed, hsize, List.not_mem_nil, false_implies,
        implies_true, and_true, true_and]
      decide
    · simp only [Receipt.Plain, Source.buildManifest, List.forall_mem_cons, List.not_mem_nil,
        false_implies, implies_true, and_true]
      decide
    · simp only [List.map, Field.property, hkind, valueOf_hex]
      rfl
    · simp only [List.map, Field.property, hkind, valueOf_hex]
      rfl

/-- The tree of a batch, over the leaves on board. -/
theorem leafTree_kept {kept : List Bytes} (hsafe : ∀ id ∈ kept, safe id = true) :
    Batch.leafTree N.toHost ((kept.map unitsOf).map fun id => (id, none)) =
      Merkle.buildTree N.toNode ((kept.map (ckLeaf N)).map Hex.encode) := by
  rw [Batch.leafTree, Batch.mapM_leafHash, Outcome.ok_bind, List.map_map, List.map_map, List.map_map]
  apply congrArg
  apply List.map_congr_left
  intro id hid
  have hbytes : Batch.leafOf (unitsOf id, none) = id := by
    rw [Batch.leafOf]
    dsimp only
    rw [toUtf8_ascii (isPlain_safe (hsafe id hid)).isAscii, bytesOf_unitsOf]
  show Merkle.leafHash N.toNode (Batch.leafOf (unitsOf id, none)) = _
  rw [hbytes]
  rfl

/-- The call of `batchReceipt` with the values of a call on board. -/
def requestOf (prevHop thisHop contactId : Option Bytes) (fromTime toTime : UInt64)
    (bundleIds : List JsString) (fits : bundleIds.length < 4294967296) : Batch.Request :=
  { prevHop := some (valueOf prevHop), thisHop := some (valueOf thisHop),
    contactId := some (valueOf contactId), fromTime := some (.int fromTime.toNat),
    toTime := some (.int toTime.toNat), bundleIds, fits }

theorem content_requestOf {prevHop thisHop contactId : Option Bytes} {fromTime toTime : UInt64}
    {bundleIds : List JsString} {fits : bundleIds.length < 4294967296} {count : Nat} {root : JsString} :
    Batch.content (requestOf prevHop thisHop contactId fromTime toTime bundleIds fits) count root false =
      [(js "kind", .text "custody-batch/1"), (js "prevHop", valueOf prevHop),
        (js "thisHop", valueOf thisHop), (js "contactId", valueOf contactId),
        (js "from", .int fromTime.toNat), (js "to", .int toTime.toNat), (js "count", .int count),
        (js "root", .str root)] := rfl

/-- With the leaves and the root of the reference, the batch on board is its text. -/
theorem batch_signed {seed : Bytes} (hseed : seed.length = 32)
    {prevHop thisHop contactId : Option Bytes} {fromTime toTime : UInt64} {n cap : Nat}
    {top c out : Bytes} {root : JsString} (hroot : Hex.encode top = root)
    (hc : writeRecord 768 [.str "contactId" contactId, .num "count" n, .num "from" fromTime.toNat,
      .str "kind" (some (lit "custody-batch/1")), .str "prevHop" prevHop,
      .str "root" (some (ckHex top)), .str "thisHop" thisHop, .num "to" toTime.toNat] = .ok c)
    (hout : writeRecord cap [.str "claimId" (some (contentId N c)), .str "contactId" contactId,
      .num "count" n, .num "from" fromTime.toNat, .str "kind" (some (lit "custody-batch/1")),
      .str "prevHop" prevHop, .str "root" (some (ckHex top)),
      .str "sig" (some (signId N (ckKeyFromSeed N seed) (contentId N c))),
      .str "signerPub" (some (ckKeyFromSeed N seed).pubB64), .str "thisHop" thisHop,
      .num "to" toTime.toNat] = .ok out)
    {bundleIds : List JsString} {fits : bundleIds.length < 4294967296} :
    ∃ rec text, Receipt.signRecord N.toHost (agentKey N seed) (Batch.content
        (requestOf prevHop thisHop contactId fromTime toTime bundleIds fits) n root false) = .ok rec ∧
      rec.canonicalize N.toNode = .ok text ∧ out = toUtf8 text := by
  have hkind : valueOf (some (lit "custody-batch/1")) = .text "custody-batch/1" :=
    valueOf_lit (by decide) (by decide)
  rw [content_requestOf]
  apply signed_same hseed hc hout
  · simp only [List.forall_mem_cons, Field.Keyed, List.not_mem_nil, false_implies, implies_true,
      and_true]
    decide
  · simp only [List.forall_mem_cons, Field.Keyed, List.not_mem_nil, false_implies, implies_true,
      and_true]
    decide
  · simp only [Receipt.Plain, List.forall_mem_cons, List.not_mem_nil, false_implies, implies_true,
      and_true]
    decide
  · simp only [List.map, Field.property, hkind, valueOf_hex, hroot]
    rfl
  · simp only [List.map, Field.property, hkind, valueOf_hex, hroot]
    rfl

theorem ckBatch_same {seed : Bytes} (hseed : seed.length = 32)
    {prevHop thisHop contactId : Option Bytes} {fromTime toTime : UInt64} {ids : List Bytes} {cap : Nat}
    {out : Bytes} (h : ckBatch N (ckKeyFromSeed N seed) prevHop thisHop contactId fromTime toTime ids
      cap = .ok out) {bundleIds : List JsString} (fits : bundleIds.length < 4294967296)
    (hsame : ∀ id, id ∈ bundleIds ↔ id ∈ ids.map textOf) :
    ∃ made text, Batch.batchReceipt N.toHost (agentKey N seed)
        (requestOf prevHop thisHop contactId fromTime toTime bundleIds fits) = .ok made ∧
      made.receipt.canonicalize N.toNode = .ok text ∧ out = toUtf8 text := by
  unfold ckBatch at h
  split at h
  · cases h
  · next harg =>
    obtain ⟨hids, hwindow⟩ := not_or.mp harg
    rw [UInt64.not_lt, UInt64.le_iff_toNat_le] at hwindow
    obtain ⟨kept, hkept, h⟩ := bind_ok.mp h
    obtain ⟨c, hc, hout⟩ := bind_ok.mp h
    -- the identifiers are those of the reference
    obtain ⟨-, hmem, hsafe⟩ := dedupe_ok hkept List.Pairwise.nil (List.pairwise_insertionSort _ _)
      fun a ha => absurd ha List.not_mem_nil
    simp only [List.not_mem_nil, false_or, List.mem_insertionSort] at hmem
    simp only [List.mem_insertionSort] at hsafe
    have hleaves : Batch.sortIds (Batch.distinctIds bundleIds) = kept.map unitsOf := by
      apply dedupe_sortIds hkept
      intro id
      have htexts : ids.map textOf = ids.map unitsOf :=
        List.map_congr_left fun id hid => textOf_safe (hsafe id hid)
      rw [hsame, htexts]
    have hsome : kept ≠ [] := by
      rintro rfl
      apply hids
      exact List.eq_nil_iff_forall_not_mem.mpr fun id hid => List.not_mem_nil ((hmem id).mpr hid)
    -- and so is the root over them
    have hne : kept.map (ckLeaf N) ≠ [] := mt List.map_eq_nil_iff.mp hsome
    obtain ⟨tree, root, htree, -⟩ := Merkle.buildTree_eq N.toNode hne
    have hroot := foldLayers_root hne htree
    rw [List.length_map] at hroot
    obtain ⟨rec, text, hrec, htext, hsame'⟩ :=
      @batch_signed N seed hseed prevHop thisHop contactId fromTime toTime _ _ _ _ _ _ hroot hc hout
        bundleIds fits
    have hopen : JsonVal.ge N.toNode (some (.int toTime.toNat)) (some (.int fromTime.toNat)) = .ok true := by
      show Except.ok (Prim.ge N.toNode (Prim.int _) (Prim.int _)) = _
      rw [Prim.ge_int, decide_eq_true (Int.ofNat_le.mpr hwindow)]
    set leaves : List (JsString × Option Int) := (kept.map unitsOf).map fun id => (id, none) with hdef
    have hcount : leaves.length = kept.length := by
      rw [hdef, List.length_map, List.length_map]
    have hsome' : leaves ≠ [] := mt List.map_eq_nil_iff.mp (mt List.map_eq_nil_iff.mp hsome)
    have hbatch : Batch.signBatch N.toHost (agentKey N seed)
        (requestOf prevHop thisHop contactId fromTime toTime bundleIds fits) leaves false =
          .ok { receipt := rec, leaves := leaves.map Prod.fst, tree, leafTimes := none } := by
      rw [Batch.signBatch, if_neg hsome', hdef,
        leafTree_kept fun id hid => hsafe id ((hmem id).mp hid), htree, Outcome.ok_bind, ← hdef, hcount,
        hrec]
      rfl
    refine ⟨{ receipt := rec, leaves := leaves.map Prod.fst, tree, leafTimes := none }, text, ?_, htext,
      hsame'⟩
    unfold Batch.batchReceipt requestOf
    dsimp only
    rw [hopen, Outcome.ok_bind, if_pos rfl, hleaves]
    exact hbatch

/-- **The library on board writes the records of the reference**: with the key of one seed on both
sides, whatever is accepted comes out as the text that `canonicalize` gives for the record, and as the
text of the content identifier for a bundle. The identifiers of a batch may come to the reference in any
order and with any repetition. -/
theorem writes_reference (N : FlightHost) {seed : Bytes} (hseed : seed.length = 32) :
    (∀ (payloadId : Option Bytes) (index : UInt64) (leaf id : Bytes),
      ckBundleId N payloadId index leaf = .ok id →
        ∃ text, (Json.obj [(js "payloadId", valueOf payloadId), (js "index", .int index.toNat),
          (js "leafHex", .str (Hex.encode leaf))]).contentId N.toNode = .ok text ∧ id = toUtf8 text) ∧
    (∀ (payloadId : Option Bytes) (chunkCount chunkSize : UInt64) (root : Bytes) (cap : Nat)
        (out : Bytes),
      ckManifest N (ckKeyFromSeed N seed) payloadId chunkCount root chunkSize cap = .ok out →
        ∃ rec text, Receipt.signRecord N.toHost (agentKey N seed)
            (Source.buildManifest (valueOf payloadId) chunkCount.toNat (Hex.encode root)
              [(js "chunkSize", .int chunkSize.toNat)]) = .ok rec ∧
          rec.canonicalize N.toNode = .ok text ∧ out = toUtf8 text) ∧
    (∀ (payloadId bundleId prevHop thisHop : Option Bytes) (receivedAt forwardedAt : UInt64) (cap : Nat)
        (out : Bytes),
      ckCustody N (ckKeyFromSeed N seed) payloadId bundleId prevHop thisHop receivedAt forwardedAt cap =
          .ok out →
        ∃ rec text, Receipt.custodyReceipt N.toHost (agentKey N seed)
            ⟨valueOf payloadId, valueOf bundleId, valueOf prevHop, valueOf thisHop,
              .int receivedAt.toNat, .int forwardedAt.toNat⟩ = .ok rec ∧
          rec.canonicalize N.toNode = .ok text ∧ out = toUtf8 text) ∧
    ∀ (prevHop thisHop contactId : Option Bytes) (fromTime toTime : UInt64) (ids : List Bytes)
        (cap : Nat) (out : Bytes),
      ckBatch N (ckKeyFromSeed N seed) prevHop thisHop contactId fromTime toTime ids cap = .ok out →
        ∀ (bundleIds : List JsString) (fits : bundleIds.length < 4294967296),
          (∀ id, id ∈ bundleIds ↔ id ∈ ids.map textOf) →
            ∃ made text, Batch.batchReceipt N.toHost (agentKey N seed)
                (requestOf prevHop thisHop contactId fromTime toTime bundleIds fits) = .ok made ∧
              made.receipt.canonicalize N.toNode = .ok text ∧ out = toUtf8 text := by
  refine ⟨?_, ?_, ?_, ?_⟩
  · intro payloadId index leaf id h
    exact ckBundleId_same h
  · intro payloadId chunkCount chunkSize root cap out h
    exact ckManifest_same hseed h
  · intro payloadId bundleId prevHop thisHop receivedAt forwardedAt cap out h
    exact ckCustody_same hseed h
  · intro prevHop thisHop contactId fromTime toTime ids cap out h bundleIds fits hsame
    exact ckBatch_same hseed h fits hsame

def sampleFlight : FlightHost where
  toHost := Path.sampleHost
  ed25519Public := fun seed => seed.map (· + 1)

def sampleSeed : Bytes := List.replicate 32 7

/-- A batch of two identifiers, one of them given twice. -/
def sampleBatch : Except CkError Bytes :=
  ckBatch sampleFlight (ckKeyFromSeed sampleFlight sampleSeed) (some (lit "a")) (some (lit "b"))
    (some (lit "c")) 100 900 [lit "x2", lit "x1", lit "x2"] 1024

/-- The reference is given the identifiers in another order. -/
theorem writes_reference_sample : ∃ out made text, sampleBatch = .ok out ∧
    Batch.batchReceipt sampleFlight.toHost (agentKey sampleFlight sampleSeed)
        (requestOf (some (lit "a")) (some (lit "b")) (some (lit "c")) 100 900
          [js "x1", js "x2", js "x1"] (by decide)) = .ok made ∧
      made.receipt.canonicalize sampleFlight.toNode = .ok text ∧ out = toUtf8 text := by
  have hids : ∀ id, id ∈ [js "x1", js "x2", js "x1"] ↔
      id ∈ [lit "x2", lit "x1", lit "x2"].map textOf := by
    have htexts : [lit "x2", lit "x1", lit "x2"].map textOf = [js "x2", js "x1", js "x2"] := by
      decide +kernel
    intro id
    rw [htexts]
    generalize js "x1" = x, js "x2" = y
    simp only [List.mem_cons, List.not_mem_nil, or_false]
    tauto
  have hok : sampleBatch.isOk = true := by decide +kernel
  cases h : sampleBatch with
  | error e =>
      rw [h] at hok
      cases hok
  | ok out =>
      obtain ⟨-, -, -, hbatch⟩ := @writes_reference sampleFlight sampleSeed (by decide)
      obtain ⟨made, text, hmade, htext, hout⟩ := hbatch _ _ _ _ _ _ _ out h _ (by decide) hids
      exact ⟨out, made, text, rfl, hmade, htext, hout⟩

end Flight

end DtnCustody
