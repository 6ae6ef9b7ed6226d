/-
# DtnCustody.Transport.Cose — `transport/bpv7/cose.mjs`: COSE_Sign1 with EdDSA, untagged.

The signed bytes are the encoding of `["Signature1", protected, external_aad, payload]`. The source
has a fast path for the usual header and an empty `external_aad`; `toBeSigned_eq` is the statement
that both paths write the same bytes, and `toBeSigned_inj` that the bytes determine the three parts.

`verify1` takes the payload the structure carries when there is one, and the caller's otherwise.
-/
import DtnCustody.Base.Armor
import DtnCustody.Cbor.RoundTrip
import DtnCustody.Js.Sample

namespace DtnCustody

open Base Js

namespace Cose

def algEddsa : Int := -8

/-- `encode(new Map([[1, ALG_EDDSA]]))`. -/
def protectedHeader : Bytes := [0xa1, 0x01, 0x27]

example : Cbor.encode (.map [(.int 1, .int algEddsa)]) = .ok protectedHeader := rfl

/-- Everything of the Sig_structure before the payload, for the usual header and no
`external_aad`: `84`, then `"Signature1"`, the header and the empty byte string. -/
def sig1Prefix : Bytes :=
  0x84 :: 0x6a :: utf8Encode "Signature1".toList ++ 0x43 :: protectedHeader ++ [0x40]

def sigStructure (prot aad payload : Bytes) : Cbor :=
  .array [.text "Signature1", .bytes prot, .bytes aad, .bytes payload]

def toBeSigned (prot payload aad : Bytes) : Outcome Bytes :=
  if aad = [] ∧ prot = protectedHeader then do return sig1Prefix ++ (← Cbor.encode (.bytes payload))
  else Cbor.encode (sigStructure prot aad payload)

/-- The fast path writes the bytes of the generic encoder. -/
theorem toBeSigned_eq (prot payload aad : Bytes) :
    toBeSigned prot payload aad = Cbor.encode (sigStructure prot aad payload) := by
  unfold toBeSigned
  split
  · rename_i h
    obtain ⟨rfl, rfl⟩ := h
    have hfront : Cbor.encode (sigStructure protectedHeader [] payload) = do
        let h4 ← Cbor.lengthHead 4 4
        let t ← Cbor.encode (.text "Signature1")
        let p ← Cbor.encode (.bytes protectedHeader)
        let a ← Cbor.encode (.bytes [])
        let b ← Cbor.encode (.bytes payload)
        return h4 ++ (t ++ (p ++ (a ++ (b ++ [])))) := by
      simp only [sigStructure, Cbor.encode, Cbor.encodeAll, List.length_cons, List.length_nil,
        bind_assoc, Outcome.pure_eq_ok, Outcome.ok_bind]
    rw [hfront]
    cases Cbor.encode (.bytes payload) with
    | error e => rfl
    | ok b =>
        have : sig1Prefix ++ b = sig1Prefix ++ (b ++ []) := by rw [List.append_nil]
        simp only [Outcome.ok_bind, Outcome.pure_eq_ok, this]
        rfl
  · rfl

theorem distinct_sigStructure (prot aad payload : Bytes) :
    (sigStructure prot aad payload).Distinct := by
  refine .array fun x hx => ?_
  simp only [List.mem_cons, List.not_mem_nil, or_false] at hx
  rcases hx with rfl | rfl | rfl | rfl
  · exact .text _
  · exact .bytes _
  · exact .bytes _
  · exact .bytes _

/-- **The signed bytes determine the header, the external data and the payload.** -/
theorem toBeSigned_inj {prot payload aad prot' payload' aad' m : Bytes}
    (h : toBeSigned prot payload aad = .ok m) (h' : toBeSigned prot' payload' aad' = .ok m) :
    prot = prot' ∧ payload = payload' ∧ aad = aad' := by
  rw [toBeSigned_eq] at h h'
  have heq := Cbor.encode_inj (distinct_sigStructure _ _ _) (distinct_sigStructure _ _ _) h h'
  simp only [sigStructure, Cbor.array.injEq, List.cons.injEq, Cbor.bytes.injEq, and_true,
    true_and] at heq
  exact ⟨heq.1, heq.2.2, heq.2.1⟩

/-- `{ ok: true, payload }` or `{ ok: false, reason }`. -/
inductive Verdict where
  | ok (payload : Bytes)
  | fail (reason : String)
  deriving DecidableEq, Repr

def Verdict.isOk : Verdict → Bool
  | .ok _ => true
  | .fail _ => false

variable (N : Node)

/-- `nodeVerify` under a base64 SPKI key; every failure on the way is a refusal. -/
def signatureValid (pubB64 : String) (prot payload aad sig : Bytes) : Bool :=
  match toBeSigned prot payload aad with
  | .ok m => N.ed25519Verify (Base64.decode pubB64.toList) m sig
  | .error _ => false

/-- The protected header, when it decodes, must name EdDSA. -/
def checkHeader (prot : Bytes) : Option String :=
  match Cbor.decode prot with
  | .error _ => some "bad_protected_header"
  | .ok (.map m) =>
      if JsVal.isInt (Cbor.mapGet m (.int 1)) algEddsa then none else some "unsupported_alg"
  | .ok _ => some "unsupported_alg"

def verifyPayload (pubB64 : Option String) (prot payload aad sig : Bytes) : Verdict :=
  match checkHeader prot with
  | some reason => .fail reason
  | none =>
      match pubB64 with
      | none => .fail "custodian_not_pinned"
      | some pub =>
          if pub = "" then .fail "custodian_not_pinned"
          else if signatureValid N pub prot payload aad sig then .ok payload
          else .fail "signature_invalid"

def verify1 (item : Cbor) (pubB64 : Option String) (aad : Bytes := [])
    (detachedPayload : Option Bytes := none) : Verdict :=
  match item with
  | .array [.bytes prot, .map _, carried, .bytes sig] =>
      match carried with
      | .bytes payload => verifyPayload N pubB64 prot payload aad sig
      | .null =>
          match detachedPayload with
          | some payload => verifyPayload N pubB64 prot payload aad sig
          | none => .fail "detached_payload_missing"
      | _ => .fail "not_cose_sign1"
  | _ => .fail "not_cose_sign1"

/-- `sign1(priv, payload, { aad, detached })`. -/
def sign1 (priv payload : Bytes) (aad : Bytes := []) (detached : Bool := false) : Outcome Cbor := do
  let m ← toBeSigned protectedHeader payload aad
  let sig := N.ed25519Sign priv m
  return .array [.bytes protectedHeader, .map [], if detached then .null else .bytes payload,
    .bytes sig]

theorem verifyPayload_ok {pubB64 : Option String} {prot payload aad sig p : Bytes}
    (h : verifyPayload N pubB64 prot payload aad sig = .ok p) :
    p = payload ∧ ∃ pub, pubB64 = some pub ∧ pub ≠ "" ∧
      signatureValid N pub prot payload aad sig = true := by
  unfold verifyPayload at h
  split at h
  · cases h
  · split at h
    · cases h
    · rename_i pub
      split at h
      · cases h
      · rename_i hne
        split at h
        · rename_i hs
          cases h
          exact ⟨rfl, pub, rfl, hne, hs⟩
        · cases h

/-- What an accepted structure looks like: the payload that was verified is the one carried, or the
caller's when none is carried. -/
theorem verify1_ok {item : Cbor} {pubB64 : Option String} {aad : Bytes} {detached : Option Bytes}
    {p : Bytes} (h : verify1 N item pubB64 aad detached = .ok p) :
    ∃ prot unprot carried sig pub, item = .array [.bytes prot, .map unprot, carried, .bytes sig] ∧
      (carried = .bytes p ∨ carried = .null ∧ detached = some p) ∧
      pubB64 = some pub ∧ pub ≠ "" ∧ signatureValid N pub prot p aad sig = true := by
  unfold verify1 at h
  split at h
  · rename_i prot unprot carried sig
    split at h
    · rename_i payload
      obtain ⟨rfl, pub, hpub, hne, hs⟩ := verifyPayload_ok N h
      exact ⟨prot, unprot, _, sig, pub, rfl, Or.inl rfl, hpub, hne, hs⟩
    · split at h
      · rename_i payload
        obtain ⟨rfl, pub, hpub, hne, hs⟩ := verifyPayload_ok N h
        exact ⟨prot, unprot, _, sig, pub, rfl, Or.inr ⟨rfl, rfl⟩, hpub, hne, hs⟩
      · cases h
    · cases h
  · cases h

end Cose

end DtnCustody
