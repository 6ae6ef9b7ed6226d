/-
# DtnCustody.Agent.Receipt — `agent/lib/keys.mjs` and `agent/lib/receipt.mjs`: signed records.

A record is its content with three credential fields: the content identifier, a signature over that
identifier as text, and the signer's key. `verifyRecord` recomputes the identifier from the content,
so everything a verdict depends on is in the record itself.
-/
import DtnCustody.Base.Armor
import DtnCustody.Json.Canonical

namespace DtnCustody

open Base Js

/-- `s.toLowerCase()`, as far as it is used: compared with hexadecimal text, to which no letter
outside ASCII lowers. -/
def toLowerCase (s : JsString) : JsString :=
  s.map fun u => if 65 ≤ u.toNat ∧ u.toNat ≤ 90 then u + 32 else u

/-- A private key and its public key, base64 SPKI. -/
structure AgentKey where
  priv : Bytes
  pub : JsString

/-- `{ ok: true, signer }` or `{ ok: false, reason }`. -/
inductive RecordVerdict where
  | ok (signer : Json)
  | fail (reason : String)

def RecordVerdict.isOk : RecordVerdict → Bool
  | .ok _ => true
  | .fail _ => false

namespace Receipt

variable (H : Host)

/-- `Buffer.from(v, "base64")`. -/
def fromBase64 (v : JsonVal) : Outcome Bytes :=
  JsonVal.toBuffer H (fun s => Base64.decode (scalars s)) v

def signClaim (priv : Bytes) (claimId : JsString) : JsString :=
  utf16 (Base64.encode (H.ed25519Sign priv (toUtf8 claimId)))

/-- Everything that throws on the way is a signature that does not verify. -/
def verifySig (pubB64 claimId sigB64 : JsonVal) : Bool :=
  match fromBase64 H pubB64, JsonVal.toStr H.toNode claimId, fromBase64 H sigB64 with
  | .ok pub, .ok id, .ok sig => H.ed25519Verify pub (toUtf8 id) sig
  | _, _, _ => false

/-- `{ ...fields, [key]: v }`. -/
def setProp (fields : List (JsString × Json)) (key : JsString) (v : Json) :
    List (JsString × Json) :=
  if fields.any fun p => p.1 = key then
    fields.map fun p => if p.1 = key then (p.1, v) else p
  else fields ++ [(key, v)]

def setField (fields : List (JsString × Json)) (name : String) (v : Json) :
    List (JsString × Json) := setProp fields (js name) v

def signRecord (kp : AgentKey) (content : List (JsString × Json)) : Outcome Json := do
  let claimId ← (Json.obj content).contentId H.toNode
  let sig := signClaim H kp.priv claimId
  return .obj (setField (setField (setField content "claimId" (.str claimId)) "sig" (.str sig))
    "signerPub" (.str kp.pub))

theorem get_setField_ne {fields : List (JsString × Json)} {name other : String} {v : Json}
    (h : js other ≠ js name) :
    (Json.obj (setField fields name v)).get other = (Json.obj fields).get other := by
  show Option.map Prod.snd (List.find? _ (setField fields name v)) =
    Option.map Prod.snd (List.find? _ fields)
  unfold setField setProp
  split
  · congr 1
    clear * - h
    induction fields with
    | nil => rfl
    | cons p rest ih =>
        rw [List.map_cons]
        by_cases hp : p.1 = js name
        · have hne : p.1 ≠ js other := fun hp' => h (hp'.symm.trans hp)
          rw [if_pos hp, List.find?_cons_of_neg (by simpa using hne),
            List.find?_cons_of_neg (by simpa using hne), ih]
        · rw [if_neg hp, List.find?_cons, List.find?_cons, ih]
  · rw [List.find?_append]
    have hnone : List.find? (fun p => decide (p.1 = js other)) [(js name, v)] = none := by
      rw [List.find?_cons_of_neg (by simpa using Ne.symm h)]
      rfl
    rw [hnone, Option.or_none]

/-- **Signing keeps the content**: every other property reads as it did. -/
theorem get_signRecord {kp : AgentKey} {content : List (JsString × Json)} {v : Json}
    (h : signRecord H kp content = .ok v) {name : String} (hid : js name ≠ js "claimId")
    (hsig : js name ≠ js "sig") (hpub : js name ≠ js "signerPub") :
    v.get name = (Json.obj content).get name := by
  obtain ⟨claimId, _, h⟩ := Outcome.bind_eq_ok.mp h
  cases h
  rw [get_setField_ne hpub, get_setField_ne hsig, get_setField_ne hid]

/-- What is checked of a record that is an object. -/
def verifyObject (v : Json) : Outcome RecordVerdict := do
  let id ← v.contentId H.toNode
  let claimed ← JsonVal.toStr H.toNode (v.get "claimId")
  if toLowerCase id ≠ toLowerCase claimed then return .fail "claimId_mismatch"
  else match v.get "signerPub" with
    | none => return .fail "missing_credential"
    | some signer =>
        if signer.truthy = false ∨ JsonVal.truthy (v.get "sig") = false then
          return .fail "missing_credential"
        else if verifySig H (some signer) (v.get "claimId") (v.get "sig") = false then
          return .fail "signature_invalid"
        else return .ok signer

def verifyRecord (rec : JsonVal) : Outcome RecordVerdict :=
  match rec with
  | none => .ok (.fail "not_an_object")
  | some v => if v.isObject then verifyObject H v else .ok (.fail "not_an_object")

/-! ## What was signed verifies -/

/-- A key pair whose signatures verify. -/
structure Signs (kp : AgentKey) : Prop where
  pub_ne : kp.pub ≠ []
  sign_ne : ∀ m, H.ed25519Sign kp.priv m ≠ []
  verify : ∀ m, H.ed25519Verify (Base64.decode (scalars kp.pub)) m (H.ed25519Sign kp.priv m) = true

/-- The content carries no credential fields of its own. -/
def Plain (content : List (JsString × Json)) : Prop :=
  ∀ p ∈ content, ∀ name ∈ Json.credentialFields, p.1 ≠ js name

variable {H}

theorem setField_of_not_mem {fields : List (JsString × Json)} {name : String} {v : Json}
    (h : ∀ p ∈ fields, p.1 ≠ js name) : setField fields name v = fields ++ [(js name, v)] := by
  refine if_neg fun hany => ?_
  obtain ⟨p, hp, heq⟩ := List.any_eq_true.mp hany
  exact h p hp (by simpa using heq)

/-- The signed record is the content with the three credential fields behind it. -/
theorem signRecord_eq {kp : AgentKey} {content : List (JsString × Json)} {v : Json}
    (hplain : Plain content) (h : signRecord H kp content = .ok v) : ∃ claimId,
      (Json.obj content).contentId H.toNode = .ok claimId ∧
        v = .obj (content ++ [(js "claimId", .str claimId),
          (js "sig", .str (signClaim H kp.priv claimId)), (js "signerPub", .str kp.pub)]) := by
  obtain ⟨claimId, hid, h⟩ := Outcome.bind_eq_ok.mp h
  cases h
  refine ⟨claimId, hid, ?_⟩
  have h1 : ∀ p ∈ content, p.1 ≠ js "claimId" := fun p hp => hplain p hp _ (by decide)
  have h2 : ∀ p ∈ content ++ [(js "claimId", Json.str claimId)], p.1 ≠ js "sig" := by
    intro p hp
    rcases List.mem_append.mp hp with hp | hp
    · exact hplain p hp _ (by decide)
    · rw [List.mem_singleton.mp hp]
      simp [js_inj]
  rw [setField_of_not_mem h1, setField_of_not_mem h2, setField_of_not_mem, List.append_assoc,
    List.append_assoc]
  · rfl
  · intro p hp
    rcases List.mem_append.mp hp with hp | hp
    · rcases List.mem_append.mp hp with hp | hp
      · exact hplain p hp _ (by decide)
      · rw [List.mem_singleton.mp hp]
        simp [js_inj]
    · rw [List.mem_singleton.mp hp]
      simp [js_inj]

/-- Credentials do not count towards the content. -/
theorem pickContent_append {content creds : List (JsString × Json)}
    (hcreds : ∀ p ∈ creds, ∃ name ∈ Json.credentialFields, p.1 = js name) :
    (Json.obj (content ++ creds)).pickContent = (Json.obj content).pickContent := by
  have hnone : (creds.filter fun p => !(Json.credentialFields.any fun name => p.1 = js name)) = [] := by
    rw [List.filter_eq_nil_iff]
    intro p hp
    obtain ⟨name, hname, heq⟩ := hcreds p hp
    simp only [Bool.not_eq_true, Bool.not_eq_false', List.any_eq_true, decide_eq_true_eq]
    exact ⟨name, hname, heq⟩
  show Json.obj (Json.assign (List.filter _ (content ++ creds))) =
    Json.obj (Json.assign (List.filter _ content))
  rw [List.filter_append, hnone, List.append_nil]

theorem fromBase64_encode (b : Bytes) : fromBase64 H (some (.str (utf16 (Base64.encode b)))) = .ok b := by
  show Except.ok (Base64.decode (scalars (utf16 (Base64.encode b)))) = _
  rw [scalars_utf16, Base64.decode_encode]

theorem utf16_ne_nil {cs : List Char} (h : cs ≠ []) : utf16 cs ≠ [] := fun hnil =>
  h (by rw [← scalars_utf16 cs, hnil]; rfl)

/-- **A signed record verifies**, and its signer is the key that signed. -/
theorem verifyRecord_signRecord {kp : AgentKey} (hkey : Signs H kp)
    {content : List (JsString × Json)} (hplain : Plain content) {v : Json}
    (h : signRecord H kp content = .ok v) : verifyRecord H (some v) = .ok (.ok (.str kp.pub)) := by
  obtain ⟨claimId, hid, rfl⟩ := signRecord_eq hplain h
  set creds := [(js "claimId", Json.str claimId), (js "sig", .str (signClaim H kp.priv claimId)),
    (js "signerPub", .str kp.pub)] with hcreds
  have hcontent : (Json.obj (content ++ creds)).contentId H.toNode = .ok claimId := by
    rw [Json.contentId, @pickContent_append content creds]
    · exact hid
    · intro p hp
      simp only [hcreds, List.mem_cons, List.not_mem_nil, or_false] at hp
      rcases hp with rfl | rfl | rfl
      · exact ⟨"claimId", by decide, rfl⟩
      · exact ⟨"sig", by decide, rfl⟩
      · exact ⟨"signerPub", by decide, rfl⟩
  have hget : ∀ name ∈ Json.credentialFields,
      (Json.obj (content ++ creds)).get name = (Json.obj creds).get name := by
    intro name hname
    show Option.map Prod.snd (List.find? _ (content ++ creds)) = Option.map Prod.snd (List.find? _ creds)
    rw [List.find?_append, List.find?_eq_none.mpr fun p hp => by simpa using hplain p hp name hname,
      Option.none_or]
  have hclaim : (Json.obj (content ++ creds)).get "claimId" = some (.str claimId) := by
    rw [hget _ (by decide)]
    simp [hcreds, Json.get]
  have hsig : (Json.obj (content ++ creds)).get "sig" = some (.str (signClaim H kp.priv claimId)) := by
    rw [hget _ (by decide)]
    simp [hcreds, Json.get, js_inj]
  have hpub : (Json.obj (content ++ creds)).get "signerPub" = some (.str kp.pub) := by
    rw [hget _ (by decide)]
    simp [hcreds, Json.get, js_inj]
  have hsigned : signClaim H kp.priv claimId ≠ [] := by
    refine utf16_ne_nil fun hnil => hkey.sign_ne (toUtf8 claimId) ?_
    rw [← Base64.decode_encode (H.ed25519Sign kp.priv (toUtf8 claimId)), hnil]
    rfl
  have hverify : verifySig H (some (.str kp.pub)) (some (.str claimId))
      (some (.str (signClaim H kp.priv claimId))) = true := by
    unfold verifySig
    rw [signClaim, fromBase64_encode]
    exact hkey.verify (toUtf8 claimId)
  show verifyObject H _ = _
  simp only [verifyObject, hcontent, hclaim, hsig, hpub, hverify, Outcome.ok_bind, JsonVal.toStr,
    Json.toStr, JsonVal.truthy, Json.truthy, hkey.pub_ne, hsigned, ne_eq, not_true_eq_false,
    not_false_eq_true, decide_true, Bool.true_eq_false, or_self, if_false, Outcome.pure_eq_ok]

end Receipt

end DtnCustody
