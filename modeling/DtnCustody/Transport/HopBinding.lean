/-
# DtnCustody.Transport.HopBinding — `transport/bpv7/treb-signed.mjs`: signed TREB hop-records, and what an
accepted one says.

A hop-record has seven fields; a signed one has an eighth, a COSE_Sign1 over the encoding of the
first seven, bound by its external data to the identity and the payload hash of one bundle. The record is
checked on its wire form, so a record that does not survive `decode ∘ encode` makes the check throw rather
than refuse; `auditHopRecords` reads the EIDs of every record first and throws on the first it cannot read.

A key signs three kinds of byte strings in this repository (`Signing`): hop-records with their
external data, COSE payloads with none, and claim ids as text. Under a signature scheme that cannot
be forged, a verified message is one of the holder's, and the encodings keep the three kinds and
all their parts apart (`hop_signedBytes_inj`). What remains is which message `verifyHopRecord` puts
together, and that is `Presents`: the payload is the one the structure carries when it carries one.

`binds_iff` is exact. A record binds its own fields unless it carries the encoding of other fields,
or the bundle's timestamp is one of those that two bundles share once written.
-/
import DtnCustody.Transport.Cose
import DtnCustody.Transport.ReceiptV2

namespace DtnCustody

open Base Js

namespace Treb

structure HopLink where
  type : Slot
  speed : Slot
  distance : Slot
  cl : Slot
  congestion : Slot
  deriving DecidableEq, Repr

structure HopInfo where
  self : String
  prev : String
  next : String
  eventType : JsVal
  eventTime : JsVal
  radiateTime : JsVal
  link : HopLink
  signed : Bool
  deriving DecidableEq, Repr

def readLink (v : JsVal) : Outcome HopLink :=
  match v with
  | none => .error .typeError
  | some v => do
      let type ← v.index 0
      let speed ← v.index 1
      let distance ← v.index 2
      let cl ← v.index 3
      let congestion ← v.index 4
      return { type, speed, distance, cl, congestion }

def readHopRecord (r : List Cbor) : Outcome HopInfo := do
  let self ← Bundle.decodeEid r[0]?
  let prev ← Bundle.decodeEid r[1]?
  let next ← Bundle.decodeEid r[2]?
  let link ← readLink r[6]?
  return { self, prev, next, eventType := r[3]?, eventTime := r[4]?, radiateTime := r[5]?, link,
           signed := r.length == 8 }

variable (N : Node)

/-- `encode([bundleIdentity(bundle), payloadHash(bundle)])`. -/
def aadFor (bundle : Bundle) : Outcome Bytes := do
  let id ← bundle.bundleIdentity N
  let hash ← bundle.payloadHash N
  let id ← id.toCbor
  Cbor.encode (.array [id, .bytes hash])

def signHopRecord (priv : Bytes) (record : List Cbor) (bundle : Bundle) : Outcome (List Cbor) :=
  if record.length ≠ 7 then .error (.error "expected an unsigned 7-field TREB hop-record")
  else do
    let payload ← Cbor.encode (.array record)
    let aad ← aadFor N bundle
    let sig ← Cose.sign1 N priv payload aad true
    return record ++ [sig]

/-- The record is encoded and decoded first, as a receiver would have it. -/
def verifyHopRecord (record : List Cbor) (pubB64 : Option String) (bundle : Bundle) :
    Outcome Cose.Verdict :=
  if record.length = 7 then .ok (.fail "unsigned")
  else if record.length ≠ 8 then .ok (.fail "not_a_hop_record")
  else do
    match ← Cbor.decode (← Cbor.encode (.array record)) with
    | .array wire =>
        let aad ← aadFor N bundle
        let payload ← Cbor.encode (.array (wire.take 7))
        return Cose.verify1 N (wire[7]?.getD .null) pubB64 aad (some payload)
    | _ => .error .typeError

/-! ## A whole recorded path -/

structure FailedHop where
  index : Nat
  node : String
  reason : String
  deriving DecidableEq, Repr

structure HopGap where
  after : String
  before : String
  expectedNext : String
  observedPrev : String
  deriving DecidableEq, Repr

structure Audit where
  signed : Nat := 0
  unsigned : Nat := 0
  failed : List FailedHop := []
  gaps : List HopGap := []
  deriving DecidableEq, Repr

def Audit.ok (a : Audit) : Bool := a.failed.length == 0

/-- The counters after one record. -/
def countRecord (keys : String → Option String) (bundle : Bundle) (i : Nat) (r : List Cbor)
    (h : HopInfo) (out : Audit) : Outcome Audit :=
  if h.signed = false then .ok { out with unsigned := out.unsigned + 1 }
  else do
    match ← verifyHopRecord N r (keys h.self) bundle with
    | .ok _ => return { out with signed := out.signed + 1 }
    | .fail reason => return { out with failed := out.failed ++ [{ index := i, node := h.self, reason }] }

/-- Two adjacent records that do not name each other. -/
def noteGap (prev : Option HopInfo) (h : HopInfo) (out : Audit) : Audit :=
  match prev with
  | none => out
  | some prev =>
      if prev.next ≠ h.self ∨ (h.prev ≠ "dtn:none" ∧ h.prev ≠ prev.self) then
        { out with gaps := out.gaps ++ [{ after := prev.self, before := h.self,
                                          expectedNext := prev.next, observedPrev := h.prev }] }
      else out

/-- `records.forEach`, from record number `i`. -/
def auditFrom (keys : String → Option String) (bundle : Bundle) :
    Nat → Option HopInfo → Audit → List (List Cbor) → Outcome Audit
  | _, _, out, [] => .ok out
  | i, prev, out, r :: rs => do
      let h ← readHopRecord r
      let out ← countRecord N keys bundle i r h out
      auditFrom keys bundle (i + 1) (some h) (noteGap prev h out) rs

def auditHopRecords (records : List (List Cbor)) (keys : String → Option String)
    (bundle : Bundle) : Outcome Audit :=
  auditFrom N keys bundle 0 none {} records

end Treb

end DtnCustody

namespace DtnCustody

open Base Js

namespace Treb

/-! ## Records, bundles and signatures -/

/-- The fields of a record; its maps hold no key twice. -/
structure HopRecord where
  fields : List Cbor
  distinct : (Cbor.array fields).Distinct

/-- A bundle as `decodeBundle` gives it. -/
structure DecodedBundle where
  bundle : Bundle
  wellFormed : bundle.WellFormed

/-- What the holder of a key signs. -/
inductive Signing where
  | hop (record : HopRecord) (held : DecodedBundle)
  /-- `sign1` with no external data: receipts and key records. -/
  | message (payload : Bytes)
  /-- `signClaim`. -/
  | claim (id : JsString)

variable (N : Node)

/-- The bytes that go to the signature function. -/
def Signing.signedBytes : Signing → Outcome Bytes
  | .hop record held =>
      if record.fields.length ≠ 7 then .error (.error "expected an unsigned 7-field TREB hop-record")
      else do
        let payload ← Cbor.encode (.array record.fields)
        let aad ← aadFor N held.bundle
        Cose.toBeSigned Cose.protectedHeader payload aad
  | .message payload => Cose.toBeSigned Cose.protectedHeader payload []
  | .claim id => .ok (toUtf8 id)

/-- Every signature that verifies under the key is on something its holder signed. -/
def Unforgeable (pub : String) (log : List Signing) : Prop :=
  ∀ m sig, N.ed25519Verify (Base64.decode pub.toList) m sig = true →
    ∃ s ∈ log, s.signedBytes N = .ok m

/-- The two bundles have one identity and one payload, so one payload hash. -/
def SameBundle (b b' : Bundle) : Prop :=
  ∃ id data, b.bundleIdentity N = .ok id ∧ b'.bundleIdentity N = .ok id ∧
    b.payloadOf = .ok data ∧ b'.payloadOf = .ok data

/-- The holder signed exactly these fields for this bundle. -/
def HopSigned (log : List Signing) (fields : List Cbor) (bundle : Bundle) : Prop :=
  ∃ record held, Signing.hop record held ∈ log ∧ record.fields = fields ∧
    SameBundle N bundle held.bundle

/-- The runtime with another signature check. -/
def verifying (verify : Bytes → Bytes → Bytes → Bool) : Node :=
  { N with ed25519Verify := verify }

/-- **What a signed hop-record claims**: whoever holds whichever key, an accepted record has the
holder's signature on its own first seven fields, made for this bundle. -/
def Binds (record : HopRecord) (held : DecodedBundle) : Prop :=
  ∀ verify pub log, Unforgeable (verifying N verify) pub log →
    ∀ p, verifyHopRecord (verifying N verify) record.fields (some pub) held.bundle = .ok (.ok p) →
      HopSigned N log (record.fields.take 7) held.bundle

/-- The payload that is verified: the carried one, or the record's own fields. -/
def Carries (record : HopRecord) (carried : Cbor) (payload : Bytes) : Prop :=
  carried = .bytes payload ∨
    carried = .null ∧ Cbor.encode (.array (record.fields.take 7)) = .ok payload

/-- The record survives the wire and its eighth field presents a signature on `fields`, bound to
this bundle. -/
def Presents (record : HopRecord) (held : DecodedBundle) (fields : HopRecord) : Prop :=
  record.fields.length = 8 ∧
  (do Cbor.decode (← Cbor.encode (.array record.fields))) = .ok (.array record.fields) ∧
  (∃ unprot carried sig payload,
    record.fields[7]? = some (.array [.bytes Cose.protectedHeader, .map unprot, carried, .bytes sig]) ∧
    Carries record carried payload ∧ Cbor.encode (.array fields.fields) = .ok payload) ∧
  ∃ m, (Signing.hop fields held).signedBytes N = .ok m

/-! ## The signed bytes keep everything apart -/

theorem aadFor_ok {b : Bundle} {a : Bytes} (h : aadFor N b = .ok a) :
    ∃ id hash v, b.bundleIdentity N = .ok id ∧ b.payloadHash N = .ok hash ∧ id.toCbor = .ok v ∧
      Cbor.encode (.array [v, .bytes hash]) = .ok a := by
  obtain ⟨id, hid, h⟩ := Outcome.bind_eq_ok.mp h
  obtain ⟨hash, hhash, h⟩ := Outcome.bind_eq_ok.mp h
  obtain ⟨v, hv, h⟩ := Outcome.bind_eq_ok.mp h
  exact ⟨id, hash, v, hid, hhash, hv, h⟩

theorem payloadHash_ok {b : Bundle} {hash : Bytes} (h : b.payloadHash N = .ok hash) :
    ∃ data, b.payloadOf = .ok data ∧ hash = N.sha256 data := by
  obtain ⟨data, hdata, h⟩ := Outcome.bind_eq_ok.mp h
  cases h
  exact ⟨data, hdata, rfl⟩

theorem aadFor_ne_nil {b : Bundle} {a : Bytes} (h : aadFor N b = .ok a) : a ≠ [] := by
  obtain ⟨_, _, v, _, _, _, h⟩ := aadFor_ok N h
  obtain ⟨ib, bs, rfl, _⟩ := Cbor.encode_ne_break h
  exact List.cons_ne_nil _ _

/-- **External data names one bundle**, unless the timestamp is ambiguous. -/
theorem aadFor_inj (hsha : Function.Injective N.sha256) {b b' : DecodedBundle} {a : Bytes}
    (h : aadFor N b.bundle = .ok a) (h' : aadFor N b'.bundle = .ok a)
    (hamb : ¬ Bundle.Ambiguous b.bundle.primary.created) : SameBundle N b.bundle b'.bundle := by
  obtain ⟨id, hash, v, hid, hhash, hv, henc⟩ := aadFor_ok N h
  obtain ⟨id', hash', v', hid', hhash', hv', henc'⟩ := aadFor_ok N h'
  have distinct : ∀ {w : Cbor} {x : Bytes}, w.Distinct → (Cbor.array [w, .bytes x]).Distinct := by
    intro w x hw
    refine .array fun y hy => ?_
    simp only [List.mem_cons, List.not_mem_nil, or_false] at hy
    rcases hy with rfl | rfl
    · exact hw
    · exact .bytes _
  have heq := Cbor.encode_inj (distinct (b.wellFormed.distinct_identity N hid hv))
    (distinct (b'.wellFormed.distinct_identity N hid' hv')) henc henc'
  simp only [Cbor.array.injEq, List.cons.injEq, Cbor.bytes.injEq, and_true] at heq
  obtain ⟨rfl, rfl⟩ := heq
  have hcreated := Bundle.bundleIdentity_created N hid
  have hidentity : id = id' := by
    refine Identity.toCbor_inj hv hv' ?_ ?_ ?_
    · rw [hcreated]; exact b.wellFormed.created
    · rw [Bundle.bundleIdentity_created N hid']; exact b'.wellFormed.created
    · rw [hcreated]; exact hamb
  obtain ⟨data, hdata, rfl⟩ := payloadHash_ok N hhash
  obtain ⟨data', hdata', hsame⟩ := payloadHash_ok N hhash'
  have hpayload : data = data' := hsha hsame
  exact ⟨id, data, hid, hidentity ▸ hid', hdata, hpayload ▸ hdata'⟩

theorem toBeSigned_head {prot payload aad m : Bytes} (h : Cose.toBeSigned prot payload aad = .ok m) :
    ∃ rest, m = 0x84 :: rest := by
  rw [Cose.toBeSigned_eq] at h
  obtain ⟨hd, hhd, h⟩ := Outcome.bind_eq_ok.mp h
  obtain ⟨tl, _, h⟩ := Outcome.bind_eq_ok.mp h
  have hhd' : Cbor.lengthHead 4 4 = .ok [0x84] := rfl
  cases hhd.symm.trans hhd'
  cases h
  exact ⟨tl, rfl⟩

/-- Text never starts with a continuation byte. -/
theorem toUtf8_ne_head (s : JsString) (rest : Bytes) : toUtf8 s ≠ 0x84 :: rest := by
  intro h
  have hdecode : utf8Decode (0x84 :: rest) = scalars s := by
    rw [← h, toUtf8, utf8Decode_utf8Encode]
  have hfirst : utf8Decode (0x84 :: rest) = replacementChar :: utf8Decode rest := rfl
  rw [hfirst] at hdecode
  rw [toUtf8, ← hdecode] at h
  cases h

/-- **A message put together for a hop-record was signed as a hop-record**, with this payload and
this external data. -/
theorem hop_signedBytes_inj {s : Signing} {prot payload aad m : Bytes} (haad : aad ≠ [])
    (hm : Cose.toBeSigned prot payload aad = .ok m) (hs : s.signedBytes N = .ok m) :
    ∃ record held, s = .hop record held ∧ prot = Cose.protectedHeader ∧
      record.fields.length = 7 ∧ Cbor.encode (.array record.fields) = .ok payload ∧
      aadFor N held.bundle = .ok aad := by
  cases s with
  | hop record held =>
      rw [Signing.signedBytes] at hs
      split at hs
      · cases hs
      · rename_i hlen
        obtain ⟨payload', hpayload, hs⟩ := Outcome.bind_eq_ok.mp hs
        obtain ⟨aad', haad', hs⟩ := Outcome.bind_eq_ok.mp hs
        obtain ⟨rfl, rfl, rfl⟩ := Cose.toBeSigned_inj hm hs
        exact ⟨record, held, rfl, rfl, not_not.mp hlen, hpayload, haad'⟩
  | message p => exact absurd (Cose.toBeSigned_inj hm hs).2.2 haad
  | claim id =>
      obtain ⟨rest, rfl⟩ := toBeSigned_head hm
      simp only [Signing.signedBytes, Except.ok.injEq] at hs
      exact absurd hs (toUtf8_ne_head id rest)

/-! ## What is accepted -/

/-- A prefix of an encodable array is encodable. -/
theorem encode_array_take {xs : List Cbor} {b : Bytes} (h : Cbor.encode (.array xs) = .ok b)
    (n : Nat) : ∃ c, Cbor.encode (.array (xs.take n)) = .ok c := by
  obtain ⟨hd, hhd, h⟩ := Outcome.bind_eq_ok.mp h
  obtain ⟨tl, htl, _⟩ := Outcome.bind_eq_ok.mp h
  have hall : ∀ {xs : List Cbor} {n : Nat} {tl : Bytes}, Cbor.encodeAll xs = .ok tl →
      ∃ c, Cbor.encodeAll (xs.take n) = .ok c := by
    intro xs
    induction xs with
    | nil => intro n tl _; exact ⟨[], by rw [List.take_nil]; rfl⟩
    | cons x xs ih =>
        intro n tl h
        cases n with
        | zero => exact ⟨[], rfl⟩
        | succ n =>
            obtain ⟨c, hc, h⟩ := Outcome.bind_eq_ok.mp h
            obtain ⟨d, hd, _⟩ := Outcome.bind_eq_ok.mp h
            obtain ⟨e, he⟩ := @ih n _ hd
            exact ⟨c ++ e, Outcome.bind_eq_ok.mpr ⟨c, hc, Outcome.bind_eq_ok.mpr ⟨e, he, rfl⟩⟩⟩
  obtain ⟨c, hc⟩ := @hall _ n _ htl
  have hlen : (xs.take n).length ≤ 9007199254740991 :=
    (List.length_take_le' n xs).trans (Cbor.lengthHead_ok hhd).1
  have hsmall : ∃ hd', Cbor.lengthHead 4 (xs.take n).length = .ok hd' := by
    unfold Cbor.lengthHead
    rw [if_pos hlen]
    unfold Cbor.head
    split_ifs
    · exact ⟨_, rfl⟩
    · exact ⟨_, rfl⟩
    · exact ⟨_, rfl⟩
    · exact ⟨_, rfl⟩
    · exact ⟨_, rfl⟩
    · omega
  obtain ⟨hd', hhd'⟩ := hsmall
  exact ⟨hd' ++ c, Outcome.bind_eq_ok.mpr ⟨hd', hhd', Outcome.bind_eq_ok.mpr ⟨c, hc, rfl⟩⟩⟩

/-- An accepted record, taken apart. -/
theorem verifyHopRecord_ok {record : HopRecord} {pub : String} {bundle : Bundle} {p : Bytes}
    (h : verifyHopRecord N record.fields (some pub) bundle = .ok (.ok p)) :
    record.fields.length = 8 ∧
    (do Cbor.decode (← Cbor.encode (.array record.fields))) = .ok (.array record.fields) ∧
    ∃ prot unprot carried sig aad,
      record.fields[7]? = some (.array [.bytes prot, .map unprot, carried, .bytes sig]) ∧
      Carries record carried p ∧ aadFor N bundle = .ok aad ∧
      Cose.signatureValid N pub prot p aad sig = true := by
  unfold verifyHopRecord at h
  split at h
  · cases h
  · split at h
    · cases h
    · rename_i _ hlen
      obtain ⟨b, hb, h⟩ := Outcome.bind_eq_ok.mp h
      obtain ⟨w, hw, h⟩ := Outcome.bind_eq_ok.mp h
      obtain rfl := Cbor.decode_encode_eq record.distinct hb hw
      obtain ⟨aad, haad, h⟩ := Outcome.bind_eq_ok.mp h
      obtain ⟨payload, hpayload, h⟩ := Outcome.bind_eq_ok.mp h
      have hverify : Cose.verify1 N (record.fields[7]?.getD .null) (some pub) aad (some payload)
          = .ok p := by simpa using h
      obtain ⟨prot, unprot, carried, sig, pub', hitem, hcarried, hpub, _, hsig⟩ :=
        Cose.verify1_ok N hverify
      cases hpub
      refine ⟨not_not.mp hlen, Outcome.bind_eq_ok.mpr ⟨b, hb, hw⟩, prot, unprot, carried, sig, aad,
        ?_, ?_, haad, hsig⟩
      · cases hget : record.fields[7]? with
        | none => rw [hget] at hitem; cases hitem
        | some item => rw [hget] at hitem; exact congrArg some hitem
      · rcases hcarried with hc | ⟨hc, hp⟩
        · exact Or.inl hc
        · cases hp
          exact Or.inr ⟨hc, hpayload⟩

/-- What is presented on a valid signature is accepted. -/
theorem verifyHopRecord_accepts {record : HopRecord} {pub : String} {bundle : Bundle}
    {unprot : List (Cbor × Cbor)} {carried : Cbor} {sig payload aad : Bytes}
    (hlen : record.fields.length = 8)
    (hwire : (do Cbor.decode (← Cbor.encode (.array record.fields))) = .ok (.array record.fields))
    (hitem : record.fields[7]?
      = some (.array [.bytes Cose.protectedHeader, .map unprot, carried, .bytes sig]))
    (hcarries : Carries record carried payload) (haad : aadFor N bundle = .ok aad) (hpub : pub ≠ "")
    (hsig : Cose.signatureValid N pub Cose.protectedHeader payload aad sig = true) :
    verifyHopRecord N record.fields (some pub) bundle = .ok (.ok payload) := by
  obtain ⟨b, hb, hw⟩ := Outcome.bind_eq_ok.mp hwire
  obtain ⟨own, hown⟩ := encode_array_take hb 7
  have hheader : Cose.checkHeader Cose.protectedHeader = none := rfl
  have hverify : Cose.verify1 N (record.fields[7]?.getD .null) (some pub) aad (some own)
      = .ok payload := by
    rw [hitem, Option.getD_some]
    rcases hcarries with rfl | ⟨rfl, hp⟩
    · show Cose.verifyPayload N (some pub) Cose.protectedHeader payload aad sig = _
      simp only [Cose.verifyPayload, hheader, if_neg hpub, hsig, if_true]
    · rw [hown] at hp
      cases hp
      show Cose.verifyPayload N (some pub) Cose.protectedHeader payload aad sig = _
      simp only [Cose.verifyPayload, hheader, if_neg hpub, hsig, if_true]
  unfold verifyHopRecord
  rw [if_neg (by omega), if_neg (by omega), hb, Outcome.ok_bind, hw, Outcome.ok_bind]
  simp only [haad, hown, Outcome.ok_bind, hverify, Outcome.pure_eq_ok]

/-! ## When a record binds its own fields -/

/-- A runtime in which exactly one message has a valid signature. -/
private def onlyMessage (m : Bytes) : Bytes → Bytes → Bytes → Bool := fun _ m' _ => m' == m

private theorem unforgeable_onlyMessage {s : Signing} {m : Bytes} (h : s.signedBytes N = .ok m)
    (pub : String) : Unforgeable (verifying N (onlyMessage m)) pub [s] := by
  intro m' sig hv
  have : m' = m := by simpa [verifying, onlyMessage] using hv
  subst this
  exact ⟨s, List.mem_singleton.mpr rfl, h⟩

/-- Whoever signed the presented fields, for any bundle written the same, has the record accepted. -/
theorem Presents.accepted {record fields : HopRecord} {held rival : DecodedBundle}
    (h : Presents N record held fields) (haad : aadFor N rival.bundle = aadFor N held.bundle)
    (hb : Binds N record held) :
    HopSigned N [.hop fields rival] (record.fields.take 7) held.bundle := by
  obtain ⟨hlen, hwire, ⟨unprot, carried, sig, payload, hitem, hcarries, henc⟩, m, hm⟩ := h
  have hrival : (Signing.hop fields rival).signedBytes N = .ok m := by
    rw [← hm]
    simp only [Signing.signedBytes, haad]
  refine hb (onlyMessage m) "key" [.hop fields rival] (unforgeable_onlyMessage N hrival _) payload ?_
  rw [Signing.signedBytes] at hm
  split at hm
  · cases hm
  · obtain ⟨payload', hpayload', hm⟩ := Outcome.bind_eq_ok.mp hm
    obtain ⟨aad, haad', hm⟩ := Outcome.bind_eq_ok.mp hm
    cases henc.symm.trans hpayload'
    refine verifyHopRecord_accepts _ hlen hwire hitem hcarries haad' (by decide) ?_
    simp only [Cose.signatureValid, hm]
    simp [verifying, onlyMessage]

/-- A bundle with an ambiguous timestamp has a double: another identity, the same external data. -/
theorem exists_rival {held : DecodedBundle} {a : Bytes} (ha : aadFor N held.bundle = .ok a)
    (hamb : Bundle.Ambiguous held.bundle.primary.created) :
    ∃ rival : DecodedBundle, aadFor N rival.bundle = aadFor N held.bundle ∧
      ¬ SameBundle N held.bundle rival.bundle := by
  obtain ⟨q, hne, hq, h1, h2⟩ := hamb.rival
  refine ⟨⟨{ held.bundle with primary := { held.bundle.primary with created := q } },
    ⟨hq, held.wellFormed.fragmentOffset, held.wellFormed.totalAduLength, held.wellFormed.payload⟩⟩,
    ?_, ?_⟩
  · obtain ⟨id, hash, v, hid, hhash, hv, henc⟩ := aadFor_ok N ha
    obtain ⟨frag, hfrag, rfl⟩ := Bundle.bundleIdentity_ok N hid
    simp only [aadFor, Bundle.bundleIdentity, Bundle.payloadHash, Bundle.payloadOf, Identity.toCbor,
      hfrag, Outcome.ok_bind, Outcome.pure_eq_ok, h1, h2]
  · rintro ⟨id, _, hid, hid', _⟩
    have h := Bundle.bundleIdentity_created N hid
    have h' := Bundle.bundleIdentity_created N hid'
    exact hne (h'.symm.trans h)

/-- **When a signed hop-record binds its own fields**: exactly when every seven fields it presents a
signature on are its own, and the bundle's timestamp is written like no other. -/
theorem binds_iff (hsha : Function.Injective N.sha256) (record : HopRecord) (held : DecodedBundle) :
    Binds N record held ↔ ∀ fields, Presents N record held fields →
      fields.fields = record.fields.take 7 ∧ ¬ Bundle.Ambiguous held.bundle.primary.created := by
  constructor
  · intro hb fields hp
    obtain ⟨aad, haad⟩ : ∃ aad, aadFor N held.bundle = .ok aad := by
      obtain ⟨_, _, _, m, hm⟩ := hp
      rw [Signing.signedBytes] at hm
      split at hm
      · cases hm
      · obtain ⟨_, _, hm⟩ := Outcome.bind_eq_ok.mp hm
        obtain ⟨aad, haad, _⟩ := Outcome.bind_eq_ok.mp hm
        exact ⟨aad, haad⟩
    have signed : ∀ {rival : DecodedBundle}, aadFor N rival.bundle = aadFor N held.bundle →
        fields.fields = record.fields.take 7 ∧ SameBundle N held.bundle rival.bundle := by
      intro rival hrival
      obtain ⟨r, b, hmem, hfields, hsame⟩ := hp.accepted N hrival hb
      simp only [List.mem_singleton, Signing.hop.injEq] at hmem
      obtain ⟨rfl, rfl⟩ := hmem
      exact ⟨hfields, hsame⟩
    refine ⟨(signed rfl).1, fun hamb => ?_⟩
    obtain ⟨rival, hrival, hother⟩ := exists_rival N haad hamb
    exact hother (signed hrival).2
  · intro hcond verify pub log hlog p hok
    obtain ⟨hlen, hwire, prot, unprot, carried, sig, aad, hitem, hcarries, haad, hsig⟩ :=
      verifyHopRecord_ok _ hok
    unfold Cose.signatureValid at hsig
    split at hsig
    · rename_i m hm
      obtain ⟨s, hs, hbytes⟩ := hlog m sig hsig
      -- the message is one of the holder's, and only a hop-record can have been it
      obtain ⟨r, b, rfl, rfl, hseven, henc, haad'⟩ :=
        hop_signedBytes_inj (verifying N verify) (aadFor_ne_nil _ haad) hm hbytes
      have hpresents : Presents N record held r := by
        refine ⟨hlen, hwire, ⟨unprot, carried, sig, p, hitem, hcarries, henc⟩, m, ?_⟩
        have haad₀ : aadFor N held.bundle = .ok aad := haad
        simp only [Signing.signedBytes, hseven, ne_eq, not_true_eq_false, if_false, henc, haad₀,
          Outcome.ok_bind, hm]
      obtain ⟨hfields, hamb⟩ := hcond r hpresents
      exact ⟨r, b, hs, hfields, aadFor_inj N hsha haad haad' hamb⟩
    · cases hsig

/-! ## Records made by `signHopRecord` -/

/-- The key pair signs what it verifies, in 64 bytes. -/
structure KeyPair (priv : Bytes) (pub : String) : Prop where
  named : pub ≠ ""
  valid : ∀ m, N.ed25519Verify (Base64.decode pub.toList) m (N.ed25519Sign priv m) = true
  length : ∀ m, (N.ed25519Sign priv m).length = 64

/-- The record comes back from the wire as it was, and verifies for this bundle. -/
def Holds (signed : List Cbor) (pub : String) (bundle : Bundle) : Prop :=
  (do Cbor.decode (← Cbor.encode (.array signed))) = .ok (.array signed) ∧
    ∃ p, verifyHopRecord N signed (some pub) bundle = .ok (.ok p)

theorem depth_signed {fields : List Cbor} {prot sig : Bytes} :
    Cbor.depth (.array (fields ++ [.array [.bytes prot, .map [], .null, .bytes sig]]))
      = max (Cbor.depth (.array fields)) 2 := by
  show Cbor.depthAll _ = max (Cbor.depthAll fields) 2
  induction fields with
  | nil => rfl
  | cons x xs ih =>
      rw [List.cons_append, Cbor.depthAll, Cbor.depthAll, ih, max_assoc]

theorem encodeAll_append {xs ys : List Cbor} {b c : Bytes} (hx : Cbor.encodeAll xs = .ok b)
    (hy : Cbor.encodeAll ys = .ok c) : Cbor.encodeAll (xs ++ ys) = .ok (b ++ c) := by
  induction xs generalizing b with
  | nil => cases hx; exact hy
  | cons x xs ih =>
      obtain ⟨d, hd, hx⟩ := Outcome.bind_eq_ok.mp hx
      obtain ⟨e, he, hx⟩ := Outcome.bind_eq_ok.mp hx
      cases hx
      rw [List.cons_append, List.append_assoc]
      exact Outcome.bind_eq_ok.mpr ⟨d, hd, Outcome.bind_eq_ok.mpr ⟨_, ih he, rfl⟩⟩

/-- What `signHopRecord` returns is the holder's signature on the fields, in the eighth place. -/
theorem signHopRecord_ok {priv : Bytes} {fields : HopRecord} {held : DecodedBundle}
    {signed : List Cbor} (h : signHopRecord N priv fields.fields held.bundle = .ok signed) :
    fields.fields.length = 7 ∧ ∃ payload aad m, Cbor.encode (.array fields.fields) = .ok payload ∧
      aadFor N held.bundle = .ok aad ∧ Cose.toBeSigned Cose.protectedHeader payload aad = .ok m ∧
      signed = fields.fields ++ [.array [.bytes Cose.protectedHeader, .map [], .null,
        .bytes (N.ed25519Sign priv m)]] := by
  unfold signHopRecord at h
  split at h
  · cases h
  · rename_i hlen
    obtain ⟨payload, hpayload, h⟩ := Outcome.bind_eq_ok.mp h
    obtain ⟨aad, haad, h⟩ := Outcome.bind_eq_ok.mp h
    obtain ⟨sig, hsig, h⟩ := Outcome.bind_eq_ok.mp h
    obtain ⟨m, hm, hsig⟩ := Outcome.bind_eq_ok.mp hsig
    cases hsig
    cases h
    exact ⟨not_not.mp hlen, payload, aad, m, hpayload, haad, hm, rfl⟩

/-- **A record made by `signHopRecord` holds after any encoding and decoding**, exactly when its
fields are nested no deeper than the decoder allows. -/
theorem signHopRecord_holds {priv : Bytes} {pub : String} (hpair : KeyPair N priv pub)
    {fields : HopRecord} {held : DecodedBundle} {signed : List Cbor}
    (h : signHopRecord N priv fields.fields held.bundle = .ok signed) :
    Holds N signed pub held.bundle ↔ Cbor.depth (.array fields.fields) < Cbor.maxLevels := by
  obtain ⟨hlen, payload, aad, m, hpayload, haad, hm, rfl⟩ := signHopRecord_ok N h
  set item : Cbor := .array [.bytes Cose.protectedHeader, .map [], .null,
    .bytes (N.ed25519Sign priv m)] with hitem
  have hdistinct : (Cbor.array (fields.fields ++ [item])).Distinct := by
    have hfields : ∀ x ∈ fields.fields, x.Distinct := by
      have := fields.distinct
      cases this
      assumption
    refine .array fun x hx => ?_
    rcases List.mem_append.mp hx with hx | hx
    · exact hfields x hx
    · rw [List.mem_singleton] at hx
      subst hx
      refine .array fun y hy => ?_
      simp only [List.mem_cons, List.not_mem_nil, or_false] at hy
      rcases hy with rfl | rfl | rfl | rfl
      · exact .bytes _
      · exact .map List.Pairwise.nil (by simp) (by simp)
      · exact .null
      · exact .bytes _
  obtain ⟨b, hb⟩ : ∃ b, Cbor.encode (.array (fields.fields ++ [item])) = .ok b := by
    obtain ⟨_, _, hall⟩ := Outcome.bind_eq_ok.mp hpayload
    obtain ⟨tl, htl, _⟩ := Outcome.bind_eq_ok.mp hall
    have hsig : ∃ c, Cbor.encodeAll [item] = .ok c := by
      simp only [hitem, Cbor.encodeAll, Cbor.encode, Cbor.encodePairs, hpair.length]
      exact ⟨_, rfl⟩
    obtain ⟨c, hc⟩ := hsig
    have h8 : (fields.fields ++ [item]).length = 8 := by simp [hlen]
    refine ⟨_, Outcome.bind_eq_ok.mpr ⟨[0x88], ?_, Outcome.bind_eq_ok.mpr
      ⟨_, encodeAll_append htl hc, rfl⟩⟩⟩
    rw [h8]
    rfl
  have hdepth : Cbor.depth (.array (fields.fields ++ [item])) < Cbor.maxLevels ↔
      Cbor.depth (.array fields.fields) < Cbor.maxLevels := by
    rw [hitem, depth_signed]
    exact ⟨fun h => lt_of_le_of_lt (le_max_left _ _) h, fun h => max_lt h (by decide)⟩
  rw [← hdepth, ← Cbor.decode_encode_iff hdistinct hb]
  have hwire : (do Cbor.decode (← Cbor.encode (.array (fields.fields ++ [item]))))
      = Cbor.decode b := by rw [hb]; rfl
  constructor
  · intro hholds
    rw [← hwire]
    exact hholds.1
  · intro hdecode
    refine ⟨hwire.trans hdecode, payload, ?_⟩
    have hget : (fields.fields ++ [item])[7]? = some item := by
      rw [List.getElem?_append_right (by omega), hlen]
      rfl
    let record : HopRecord := ⟨fields.fields ++ [item], hdistinct⟩
    show verifyHopRecord N record.fields (some pub) held.bundle = .ok (.ok payload)
    refine verifyHopRecord_accepts N (by simp [record, hlen]) (hwire.trans hdecode) hget
      (Or.inr ⟨rfl, ?_⟩) haad hpair.named ?_
    · show Cbor.encode (.array ((fields.fields ++ [item]).take 7)) = _
      rw [List.take_append_of_le_length (by omega), List.take_of_length_le (by omega)]
      exact hpayload
    · simp only [Cose.signatureValid, hm]
      exact hpair.valid m

end Treb

end DtnCustody
