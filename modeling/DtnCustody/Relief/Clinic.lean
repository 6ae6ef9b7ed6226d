/-
# DtnCustody.Relief.Clinic — the clinic of `relief/kit/lib/roles.mjs`: what it sends for a file.

A file is packed behind its header, sealed to the hub under the report's identifier
(`relief/kit/lib/seal.mjs`), and prepared as a manifest and bundles. The frames it goes out in are for
`Hub` to read.

A sealed report is the length of an ephemeral public key in one byte, the key, a nonce of twelve
bytes, a tag of sixteen and the ciphertext. Key agreement and the cipher are the runtime's
(`ReliefHost`); what opening a sealed report rests on is `SealsTo`.
-/
import DtnCustody.Agent.Receipt
import DtnCustody.Agent.Source

namespace DtnCustody

open Base Js

/-! ## Sealing -/

/-- The runtime with what the relief network takes from it besides: the text parser, and the key
agreement and cipher of node:crypto. `none` is a throw. -/
structure ReliefHost extends Host where
  /-- `JSON.parse`. -/
  parseJson : JsString → Option Json
  /-- `createPublicKey`, from SPKI DER. -/
  importPublic : Bytes → Option Bytes
  /-- Private key, public key. -/
  diffieHellman : Bytes → Bytes → Bytes
  /-- `hkdfSync("sha256", secret, "", "relief-report/1", 32)`. -/
  hkdf : Bytes → Bytes
  /-- AES-256-GCM with key, nonce, additional data and plaintext: ciphertext and tag. -/
  gcmSeal : Bytes → Bytes → Bytes → Bytes → Bytes × Bytes
  /-- The same with key, nonce, additional data, ciphertext and tag. -/
  gcmOpen : Bytes → Bytes → Bytes → Bytes → Bytes → Option Bytes

/-- What sealing draws: an ephemeral key pair (the public key as SPKI DER) and a nonce. -/
structure Draw where
  priv : Bytes
  epk : Bytes
  iv : Bytes

namespace Seal

variable (H : ReliefHost)

def derive (priv pub : Bytes) : Bytes := H.hkdf (H.diffieHellman priv pub)

/-- `sealTo(hubPub, plaintext, aad)`, with the hub's key as base64. -/
def sealTo (draw : Draw) (hubPub : JsString) (plaintext aad : Bytes) : Option Bytes := do
  let pub ← H.importPublic (Base64.decode (scalars hubPub))
  let c := H.gcmSeal (derive H draw.priv pub) draw.iv aad plaintext
  return UInt8.ofNat draw.epk.length :: draw.epk ++ draw.iv ++ c.2 ++ c.1

/-- `openAt(hubPriv, sealed, aad)`. -/
def openAt (hubPriv : Bytes) (report aad : Bytes) : Option Bytes := do
  let n := (report.headD 0).toNat
  let epk ← H.importPublic ((report.drop 1).take n)
  let iv := (report.drop (1 + n)).take 12
  let tag := (report.drop (13 + n)).take 16
  let ct := report.drop (29 + n)
  H.gcmOpen (derive H hubPriv epk) iv aad ct tag

/-- What a draw, a hub's key pair and the cipher have to satisfy for a report to open: the lengths of
the layout, keys that import, the two sides of one agreement, and a cipher that opens what it
sealed. -/
structure SealsTo (draw : Draw) (hubPub : JsString) (hubPriv : Bytes) : Prop where
  epk_length : draw.epk.length < 256
  iv_length : draw.iv.length = 12
  tag_length : ∀ key aad plaintext, (H.gcmSeal key draw.iv aad plaintext).2.length = 16
  agree : ∀ pub, H.importPublic (Base64.decode (scalars hubPub)) = some pub →
    ∃ epk, H.importPublic draw.epk = some epk ∧
      H.diffieHellman draw.priv pub = H.diffieHellman hubPriv epk
  opens : ∀ key aad plaintext,
    let c := H.gcmSeal key draw.iv aad plaintext
    H.gcmOpen key draw.iv aad c.1 c.2 = some plaintext

variable {H}

/-- The parts of a layout are where they were put. -/
theorem drop_take_parts {a b rest : Bytes} {n m : Nat} (ha : a.length = n) (hb : b.length = m) :
    ((a ++ (b ++ rest)).drop n).take m = b := by
  rw [← ha, List.drop_left, ← hb, List.take_left]

/-- **A sealed report opens** to what was sealed, under the identifier it was sealed for. -/
theorem openAt_sealTo {draw : Draw} {hubPub : JsString} {hubPriv : Bytes}
    (h : SealsTo H draw hubPub hubPriv) {plaintext aad report : Bytes}
    (hseal : sealTo H draw hubPub plaintext aad = some report) :
    openAt H hubPriv report aad = some plaintext := by
  unfold sealTo at hseal
  obtain ⟨pub, hpub, hreport⟩ := Option.bind_eq_some_iff.mp hseal
  obtain ⟨epk, hepk, hagree⟩ := h.agree pub hpub
  have htag := h.tag_length (derive H draw.priv pub) aad plaintext
  have hopens := h.opens (derive H draw.priv pub) aad plaintext
  generalize H.gcmSeal (derive H draw.priv pub) draw.iv aad plaintext = c at *
  have hkey : derive H hubPriv epk = derive H draw.priv pub := by
    rw [derive, derive, hagree]
  have hlen : (UInt8.ofNat draw.epk.length).toNat = draw.epk.length := by
    rw [UInt8.toNat_ofNat']
    exact Nat.mod_eq_of_lt h.epk_length
  have hshape : report = UInt8.ofNat draw.epk.length :: (draw.epk ++ (draw.iv ++ (c.2 ++ c.1))) := by
    have heq := Option.some.inj hreport
    rw [← heq]
    simp only [List.cons_append, List.append_assoc]
  have hn : (report.headD 0).toNat = draw.epk.length := by
    rw [hshape]
    exact hlen
  have hpart1 : (report.drop 1).take draw.epk.length = draw.epk := by
    rw [hshape, List.drop_succ_cons, List.drop_zero, List.take_left]
  have hpart2 : (report.drop (1 + draw.epk.length)).take 12 = draw.iv := by
    rw [hshape, ← List.cons_append]
    exact drop_take_parts (by rw [List.length_cons, Nat.add_comm]) h.iv_length
  have hpart3 : (report.drop (13 + draw.epk.length)).take 16 = c.2 := by
    rw [hshape, ← List.cons_append, ← List.append_assoc]
    exact drop_take_parts (by rw [List.length_append, List.length_cons, h.iv_length]; omega) htag
  have hpart4 : report.drop (29 + draw.epk.length) = c.1 := by
    have hfront : ((UInt8.ofNat draw.epk.length :: draw.epk) ++ draw.iv ++ c.2).length =
        29 + draw.epk.length := by
      rw [List.length_append, List.length_append, List.length_cons, h.iv_length, htag]
      omega
    rw [hshape, ← hfront, ← List.cons_append, ← List.append_assoc, ← List.append_assoc,
      List.drop_left]
  unfold openAt
  simp only [hn, hpart1, hpart2, hpart3, hpart4, hepk]
  show H.gcmOpen (derive H hubPriv epk) draw.iv aad c.1 c.2 = _
  rw [hkey]
  exact hopens

end Seal

namespace Relief

variable (H : ReliefHost)

/-! ## Packed files -/

/-- `packFile(header, bytes)`; the length is four bytes. -/
def packFile (header : Json) (bytes : Bytes) : Option Bytes :=
  let h := toUtf8 (header.stringify H.toNode)
  if h.length < 256 ^ 4 then some (beBytes 4 h.length ++ h ++ bytes) else none

/-- `unpackFile(buf)`. -/
def unpackFile (buf : Bytes) : Option (Json × Bytes) := do
  if buf.length < 4 then none
  else
    let n := beNat (buf.take 4)
    if buf.length - 4 < n then none
    else
      let header ← H.parseJson (ofUtf8 ((buf.drop 4).take n))
      return (header, buf.drop (4 + n))

/-- **A packed file unpacks**, if its header reads back from its text. -/
theorem unpackFile_packFile {header : Json} {bytes buf : Bytes}
    (hread : H.parseJson (ofUtf8 (toUtf8 (header.stringify H.toNode))) = some header)
    (h : packFile H header bytes = some buf) : unpackFile H buf = some (header, bytes) := by
  unfold packFile at h
  generalize toUtf8 (header.stringify H.toNode) = text at h hread
  dsimp only at h
  split at h
  · rename_i hlen
    cases h
    have hfront : (beBytes 4 text.length).length = 4 := length_beBytes 4 _
    have hn : beNat ((beBytes 4 text.length ++ text ++ bytes).take 4) = text.length := by
      rw [List.append_assoc, List.take_left' hfront, beNat_beBytes hlen]
    have htext : ((beBytes 4 text.length ++ text ++ bytes).drop 4).take text.length = text := by
      rw [List.append_assoc, List.drop_left' hfront, List.take_left]
    have hbytes : (beBytes 4 text.length ++ text ++ bytes).drop (4 + text.length) = bytes := by
      refine List.drop_left' ?_
      rw [List.length_append, hfront]
    have hshort : ¬ (beBytes 4 text.length ++ text ++ bytes).length < 4 := by
      rw [List.length_append, List.length_append, hfront]
      omega
    have hfits : ¬ (beBytes 4 text.length ++ text ++ bytes).length - 4 < text.length := by
      rw [List.length_append, List.length_append, hfront]
      omega
    unfold unpackFile
    simp only [if_neg hshort, hn, if_neg hfits, htext, hread, hbytes, Option.bind_eq_bind,
      Option.bind_some, Option.pure_def]
  · cases h

/-! ## Sending -/

/-- `{ name, type?, bytes }`. -/
structure ReliefFile where
  name : JsString
  type : JsString := []
  bytes : Bytes

/-- `file.type || null`. -/
def ReliefFile.typeOrNull (file : ReliefFile) : Json := if file.type = [] then .null else .str file.type

def ReliefFile.header (file : ReliefFile) (createdAt : Int) : Json :=
  .obj [(js "name", .str file.name), (js "type", file.typeOrNull), (js "createdAt", .int createdAt)]

structure Clinic where
  kp : AgentKey
  eid : JsString
  hubEncPub : JsString
  chunkSize : Nat := 1024
  chunkSize_pos : 0 < chunkSize

/-- `eid.replace(/^dtn:\/\//, "").replace(/\/$/, "")`. -/
def shortName (eid : JsString) : JsString :=
  let name := if (js "dtn://").isPrefixOf eid then eid.drop 6 else eid
  if (js "/").isSuffixOf name then name.dropLast else name

def Clinic.payloadId (c : Clinic) (createdAt : Int) (seq : Nat) : JsString :=
  shortName c.eid ++ js "/" ++ js (toString createdAt) ++ js "-" ++ js (toString seq)

def Clinic.options (c : Clinic) (createdAt : Int) (seq : Nat) : Source.PrepareOptions where
  payloadId := some (.str (c.payloadId createdAt seq))
  metaFields := [(js "clinic", .str c.eid), (js "createdAt", .int createdAt)]
  chunkSize := c.chunkSize
  chunkSize_pos := c.chunkSize_pos

/-- What `sendFile` keeps and sends. -/
structure Sent where
  payloadId : JsString
  payload : Bytes
  out : Source.Prepared

/-- `sendFile(transport, file)` at time `createdAt`, the clinic's file number `seq`. -/
def Clinic.sendFile (c : Clinic) (draw : Draw) (file : ReliefFile) (createdAt : Int) (seq : Nat) :
    Outcome Sent :=
  match packFile H (file.header createdAt) file.bytes with
  | none => .error .rangeError
  | some inner =>
      match Seal.sealTo H draw c.hubEncPub inner (toUtf8 (c.payloadId createdAt seq)) with
      | none => .error (.error "sealTo")
      | some report => do
          let out ← Source.prepare H.toHost c.kp report (c.options createdAt seq)
          return { payloadId := c.payloadId createdAt seq, payload := report, out }

variable {H}

theorem Clinic.payloadId_ne_nil (c : Clinic) (createdAt : Int) (seq : Nat) :
    c.payloadId createdAt seq ≠ [] := by
  have h : js "-" ≠ [] := by decide
  simp [Clinic.payloadId, h]

/-- What a sent file was: packed, sealed and prepared. -/
theorem Clinic.sendFile_ok {c : Clinic} {draw : Draw} {file : ReliefFile} {createdAt : Int}
    {seq : Nat} {sent : Sent} (h : c.sendFile H draw file createdAt seq = .ok sent) :
    sent.payloadId = c.payloadId createdAt seq ∧
      Source.prepare H.toHost c.kp sent.payload (c.options createdAt seq) = .ok sent.out ∧
      ∃ inner, packFile H (file.header createdAt) file.bytes = some inner ∧
        Seal.sealTo H draw c.hubEncPub inner (toUtf8 sent.payloadId) = some sent.payload := by
  unfold Clinic.sendFile at h
  split at h
  · cases h
  · rename_i inner hinner
    split at h
    · cases h
    · rename_i report hreport
      obtain ⟨out, hout, h⟩ := Outcome.bind_eq_ok.mp h
      cases h
      exact ⟨rfl, hout, inner, hinner, hreport⟩

/-- **A sent report opens to its file**. -/
theorem Clinic.sendFile_opens {c : Clinic} {draw : Draw} {file : ReliefFile} {createdAt : Int} {seq : Nat}
    {sent : Sent} {hubPriv : Bytes} (h : c.sendFile H draw file createdAt seq = .ok sent)
    (hseal : Seal.SealsTo H draw c.hubEncPub hubPriv)
    (hread : H.parseJson (ofUtf8 (toUtf8 ((file.header createdAt).stringify H.toNode))) =
      some (file.header createdAt)) :
    (Seal.openAt H hubPriv sent.payload (toUtf8 sent.payloadId)).bind (unpackFile H) =
      some (file.header createdAt, file.bytes) := by
  obtain ⟨_, _, inner, hpack, hreport⟩ := Clinic.sendFile_ok h
  rw [Seal.openAt_sealTo hseal hreport]
  exact unpackFile_packFile H hread hpack

/-! ## A file that is sent -/

/-- Its header is all the text that this runtime reads. -/
def sampleReport : ReliefFile := { name := js "a", bytes := [1, 2, 3] }

def sampleSealing : ReliefHost where
  toHost := { sampleNode with bufferOf := fun _ => none }
  parseJson text :=
    if text = (sampleReport.header 0).stringify sampleNode then some (sampleReport.header 0) else none
  importPublic := some
  diffieHellman _ _ := []
  hkdf b := b
  gcmSeal _ _ _ plaintext := (plaintext.map (· + 1), List.replicate 16 0)
  gcmOpen _ _ _ ct _ := some (ct.map (· - 1))

def sampleReporter : Clinic :=
  { kp := ⟨[7], js "k"⟩, eid := js "c", hubEncPub := [], chunkSize := 2, chunkSize_pos := Nat.two_pos }

def sampleDraw : Draw := { priv := [], epk := [5], iv := List.replicate 12 0 }

theorem sampleDraw_seals : Seal.SealsTo sampleSealing sampleDraw sampleReporter.hubEncPub [] where
  epk_length := by decide
  iv_length := rfl
  tag_length _ _ _ := rfl
  agree _ _ := ⟨[5], rfl, rfl⟩
  opens _ _ plaintext := by
    show some ((plaintext.map (· + 1)).map (· - 1)) = some plaintext
    rw [List.map_map]
    exact congrArg some (List.map_id'' (fun x => UInt8.add_sub_cancel x 1) plaintext)

theorem sampleReport_opens :
    ∃ sent, sampleReporter.sendFile sampleSealing sampleDraw sampleReport 0 0 = .ok sent ∧
      (Seal.openAt sampleSealing [] sent.payload (toUtf8 sent.payloadId)).bind (unpackFile sampleSealing) =
        some (sampleReport.header 0, sampleReport.bytes) := by
  have hok : (sampleReporter.sendFile sampleSealing sampleDraw sampleReport 0 0).isOk = true := by
    decide +kernel
  have hread : sampleSealing.parseJson (ofUtf8 (toUtf8 ((sampleReport.header 0).stringify sampleNode))) =
      some (sampleReport.header 0) := by
    have htext : ofUtf8 (toUtf8 ((sampleReport.header 0).stringify sampleNode)) =
        (sampleReport.header 0).stringify sampleNode := by decide +kernel
    rw [htext]
    show (if (sampleReport.header 0).stringify sampleNode = (sampleReport.header 0).stringify sampleNode then
      some (sampleReport.header 0) else none) = _
    rw [if_pos rfl]
  cases hsent : sampleReporter.sendFile sampleSealing sampleDraw sampleReport 0 0 with
  | ok sent => exact ⟨sent, rfl, Clinic.sendFile_opens hsent sampleDraw_seals hread⟩
  | error _ =>
      rw [hsent] at hok
      cases hok

end Relief

end DtnCustody
