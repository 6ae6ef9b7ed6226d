/-
# DtnCustody.Gateway.Certificate — `bundleEidsFromCert` of `gateway/tcpcl4.mjs`, and certificates.

A certificate names nodes in its subjectAltName extension: other names of the type id-on-bundleEID
whose value is an IA5String. `bundleEidsFromCert` does not walk the structure; it searches the encoding
for the object identifier, wherever it is. The search ends for every byte string (`scan_eq`), and gives
exactly the names of the extension when nothing that looks like one is at any other place of the
certificate (`bundleEids_iff`).
-/
import DtnCustody.Base.Places
import DtnCustody.Base.Text

namespace DtnCustody

open Base Base.Places

namespace Tcpcl4

/-! ## The search -/

/-- `BUNDLE_EID_OID`: 1.3.6.1.5.5.7.8.11. -/
def bundleEidOid : Bytes := [0x06, 0x08, 0x2b, 0x06, 0x01, 0x05, 0x05, 0x07, 0x08, 0x0b]

/-- `len = len * 256 + b[j]` for `n` bytes from `j` on; `none` is NaN, once a byte is not there. -/
def derDigits (b : Bytes) : (n : Nat) → (j len : Nat) → Option Nat
  | 0, _, len => some len
  | n + 1, j, len =>
      match b[j]? with
      | none => none
      | some x => derDigits b n (j + 1) (len * 256 + x.toNat)

/-- `derLen(b, i)`: the length, and where it ends. A byte that is not there counts as no digits. -/
def derLen (b : Bytes) (i : Nat) : Option Nat × Nat :=
  match b[i]? with
  | none => (some 0, i + 1)
  | some x =>
      if x < 0x80 then (some x.toNat, i + 1)
      else (derDigits b (x.toNat % 128) (i + 1) 0, i + 1 + x.toNat % 128)

/-- `toString("latin1")`. -/
def latin1 (b : Bytes) : JsString := b.map fun x => x.toUInt16

/-- `der.subarray(start, start + len)`, in which NaN counts as 0. -/
def subarray (der : Bytes) (start : Nat) (len : Option Nat) : Bytes :=
  match len with
  | none => []
  | some len => (der.drop start).take len

/-- `der.indexOf(BUNDLE_EID_OID, i)`. -/
def indexOfOid (der : Bytes) (i : Nat) : Option Nat :=
  (List.range' i (der.length - i)).find? fun p => bundleEidOid.isPrefixOf (der.drop p)

/-- The node ID behind an object identifier, if there is one. -/
def readEid (der : Bytes) (i : Nat) : Option JsString :=
  let j := i + bundleEidOid.length
  if der[j]? ≠ some 0xa0 then none
  else
    let j := (derLen der (j + 1)).2
    if der[j]? ≠ some 0x16 then none
    else
      let l := derLen der (j + 1)
      some (latin1 (subarray der l.2 l.1))

/-- The loop, as long as the fuel lasts. -/
def scan (der : Bytes) : (fuel : Nat) → (i : Nat) → (out : List JsString) → Option (List JsString)
  | 0, _, _ => none
  | fuel + 1, i, out =>
      match indexOfOid der i with
      | none => some out
      | some p => scan der fuel (p + 1) (out ++ (readEid der p).toList)

/-- `bundleEidsFromCert(der)`; a position is searched from once. -/
def bundleEidsFromCert (der : Bytes) : Option (List JsString) := scan der (der.length + 1) 0 []

/-- The node ID at a position, where the object identifier is. -/
def eidAt (der : Bytes) (p : Nat) : Option JsString :=
  if bundleEidOid.isPrefixOf (der.drop p) then readEid der p else none

variable {der : Bytes}

theorem filterMap_eidAt_of_none {ps : List Nat}
    (h : ∀ p ∈ ps, bundleEidOid.isPrefixOf (der.drop p) = false) : ps.filterMap (eidAt der) = [] := by
  rw [List.filterMap_eq_nil_iff]
  intro p hp
  rw [eidAt, h p hp]
  rfl

/-- From a position on, the search comes to the first object identifier. -/
theorem indexOfOid_some {i p : Nat} (h : indexOfOid der i = some p) : i ≤ p ∧ p < der.length ∧
    (List.range' i (der.length - i)).filterMap (eidAt der) =
      (readEid der p).toList ++ (List.range' (p + 1) (der.length - (p + 1))).filterMap (eidAt der) := by
  obtain ⟨hoid, front, back, hsplit, hfront⟩ := List.find?_eq_some_iff_append.mp h
  have hp : p ∈ List.range' i (der.length - i) := by
    rw [hsplit]
    simp
  rw [List.mem_range'_1] at hp
  have hlen : (List.range' i (der.length - i)).length = (front ++ p :: back).length := congrArg _ hsplit
  rw [List.length_range', List.length_append, List.length_cons] at hlen
  -- `p` is the element at its place, and what comes after it is counted from there
  have hplace : i + front.length = p := by
    have hget : (List.range' i (der.length - i))[front.length]? = some p := by
      rw [hsplit, List.getElem?_append_right (le_refl _), Nat.sub_self]
      rfl
    rw [List.getElem?_range' (by omega), Nat.one_mul, Option.some.injEq] at hget
    exact hget
  have hback : back = List.range' (p + 1) (der.length - (p + 1)) := by
    have hdrop := congrArg (List.drop (front.length + 1)) hsplit
    rw [List.drop_range', Nat.mul_one, ← List.drop_drop, List.drop_left, List.drop_succ_cons,
      List.drop_zero] at hdrop
    rw [← hdrop, ← hplace]
    congr 1
    omega
  refine ⟨hp.1, by omega, ?_⟩
  have hnone : front.filterMap (eidAt der) = [] := by
    apply filterMap_eidAt_of_none
    intro q hq
    simpa using hfront q hq
  rw [hsplit, List.filterMap_append, hnone, List.nil_append, ← hback]
  have hat : eidAt der p = readEid der p := if_pos hoid
  cases hread : readEid der p with
  | none => rw [List.filterMap_cons_none (hat.trans hread)]; rfl
  | some eid => rw [List.filterMap_cons_some (hat.trans hread)]; rfl

theorem indexOfOid_none {i : Nat} (h : indexOfOid der i = none) :
    (List.range' i (der.length - i)).filterMap (eidAt der) = [] := by
  apply filterMap_eidAt_of_none
  intro p hp
  exact eq_false_of_ne_true (List.find?_eq_none.mp h p hp)

/-- **The search ends**, with what is found at each position. -/
theorem scan_eq {fuel : Nat} : ∀ {i : Nat} {out : List JsString}, der.length - i < fuel →
    scan der fuel i out = some (out ++ (List.range' i (der.length - i)).filterMap (eidAt der)) := by
  induction fuel with
  | zero => exact fun h => absurd h (Nat.not_lt_zero _)
  | succ fuel ih =>
      intro i out hfuel
      rw [scan]
      cases hindex : indexOfOid der i with
      | none => rw [indexOfOid_none hindex, List.append_nil]
      | some p =>
          obtain ⟨hle, hlt, hsplit⟩ := indexOfOid_some hindex
          dsimp only
          rw [ih (by omega), hsplit, List.append_assoc]

theorem bundleEidsFromCert_eq (der : Bytes) :
    bundleEidsFromCert der = some ((List.range der.length).filterMap (eidAt der)) := by
  rw [bundleEidsFromCert, scan_eq (by omega), List.nil_append, Nat.sub_zero, List.range_eq_range']

/-! ## Encodings -/

/-- The digits of a number in base 256, without leading zeros, as far as the fuel lasts. -/
def octets : (fuel : Nat) → (n : Nat) → Bytes
  | 0, _ => []
  | fuel + 1, n => if n = 0 then [] else octets fuel (n / 256) ++ [UInt8.ofNat (n % 256)]

/-- The length octets of DER: one, or the number of digits and the digits. -/
def lengthOctets (n : Nat) : Bytes :=
  if n < 128 then [UInt8.ofNat n]
  else UInt8.ofNat (128 + (octets n n).length) :: octets n n

/-- A tag, in its octets, and contents. -/
structure Tlv where
  tag : Bytes
  contents : Bytes
  deriving DecidableEq

def Tlv.encode (t : Tlv) : Bytes := t.tag ++ lengthOctets t.contents.length ++ t.contents

/-- A constructed value. -/
def wrap (tag : UInt8) (contents : Bytes) : Bytes := Tlv.encode ⟨[tag], contents⟩

/-- 1.3.6.1.5.5.7.8.11, without tag and length. -/
def idOnBundleEid : Bytes := [0x2b, 0x06, 0x01, 0x05, 0x05, 0x07, 0x08, 0x0b]

/-- 2.5.29.17. -/
def idCeSubjectAltName : Bytes := [0x55, 0x1d, 0x11]

/-- A name in a subjectAltName: one of another type, with its value, or one of the other kinds. -/
inductive GeneralName where
  | otherName (typeId : Bytes) (value : Tlv)
  | name (t : Tlv) (kind : t.tag ≠ [0xa0])

/-- An extension: a subjectAltName, or any other with the octets that its value has. -/
inductive Extension where
  | subjectAltName (critical : Bool) (names : List GeneralName)
  | other (oid : Bytes) (critical : Bool) (value : Bytes) (type : oid ≠ idCeSubjectAltName)

/-- A certificate. Of fields that name no node there is only the encoding. -/
structure Certificate where
  version : Bytes
  serialNumber : Bytes
  signature : Bytes
  issuer : Bytes
  validity : Bytes
  subject : Bytes
  subjectPublicKeyInfo : Bytes
  uniqueIDs : Bytes
  extensions : List Extension
  signatureAlgorithm : Bytes
  signatureValue : Bytes

/-- `[0] IMPLICIT SEQUENCE { OBJECT IDENTIFIER, [0] EXPLICIT value }`, or the name as it is. -/
def GeneralName.encode : GeneralName → Bytes
  | .otherName typeId value => wrap 0xa0 (wrap 0x06 typeId ++ wrap 0xa0 value.encode)
  | .name t _ => t.encode

/-- `BOOLEAN DEFAULT FALSE`. -/
def criticalOctets (critical : Bool) : Bytes := if critical then [0x01, 0x01, 0xff] else []

def Extension.encode : Extension → Bytes
  | .subjectAltName critical names =>
      wrap 0x30 (wrap 0x06 idCeSubjectAltName ++ criticalOctets critical ++
        wrap 0x04 (wrap 0x30 (names.flatMap GeneralName.encode)))
  | .other oid critical value _ =>
      wrap 0x30 (wrap 0x06 oid ++ criticalOctets critical ++ wrap 0x04 value)

/-- The fields before the extensions. -/
def Certificate.fields (c : Certificate) : Bytes :=
  c.version ++ c.serialNumber ++ c.signature ++ c.issuer ++ c.validity ++ c.subject ++
    c.subjectPublicKeyInfo ++ c.uniqueIDs

/-- `[3] EXPLICIT SEQUENCE OF`, left out if there are none. -/
def extensionsOctets (extensions : List Extension) : Bytes :=
  if extensions = [] then []
  else wrap 0xa3 (wrap 0x30 (extensions.flatMap Extension.encode))

def Certificate.encode (c : Certificate) : Bytes :=
  wrap 0x30 (wrap 0x30 (c.fields ++ extensionsOctets c.extensions) ++ c.signatureAlgorithm ++
    c.signatureValue)

/-! ## The names of a certificate -/

/-- The value of a name that names a node. -/
def GeneralName.eids : GeneralName → List JsString
  | .otherName typeId value =>
      if typeId = idOnBundleEid ∧ value.tag = [0x16] then [latin1 value.contents] else []
  | .name .. => []

def Extension.eids : Extension → List JsString
  | .subjectAltName _ names => names.flatMap GeneralName.eids
  | .other .. => []

/-- **The node IDs of a certificate**: the IA5Strings of the other names of type id-on-bundleEID in
its subjectAltName. -/
def Certificate.eids (c : Certificate) : List JsString := c.extensions.flatMap Extension.eids

/-! ## Where they are -/

/-- The octets before the contents of a constructed value. -/
def header (contents : Bytes) : Nat := 1 + (lengthOctets contents.length).length

/-- Where the object identifier of a name is, if it names a node. -/
def GeneralName.places (start : Nat) : GeneralName → List Nat
  | .otherName typeId value =>
      if typeId = idOnBundleEid ∧ value.tag = [0x16] then
        [start + header (wrap 0x06 typeId ++ wrap 0xa0 value.encode)]
      else []
  | .name .. => []

/-- The octets of a subjectAltName extension before the first name. -/
def beforeNames (critical : Bool) (names : List GeneralName) : Nat :=
  let list := names.flatMap GeneralName.encode
  header (wrap 0x06 idCeSubjectAltName ++ criticalOctets critical ++ wrap 0x04 (wrap 0x30 list)) +
    (wrap 0x06 idCeSubjectAltName ++ criticalOctets critical).length + header (wrap 0x30 list) + header list

def Extension.places (start : Nat) : Extension → List Nat
  | .subjectAltName critical names =>
      placesInRow GeneralName.encode GeneralName.places (start + beforeNames critical names) names
  | .other .. => []

/-- The octets of a certificate before its first extension. -/
def Certificate.beforeExtensions (c : Certificate) : Nat :=
  let list := c.extensions.flatMap Extension.encode
  let tbs := c.fields ++ extensionsOctets c.extensions
  header (wrap 0x30 tbs ++ c.signatureAlgorithm ++ c.signatureValue) + header tbs + c.fields.length +
    header (wrap 0x30 list) + header list

/-- **The places of the node IDs** in the encoding of a certificate. -/
def Certificate.places (c : Certificate) : List Nat :=
  placesInRow Extension.encode Extension.places c.beforeExtensions c.extensions

theorem length_wrap (tag : UInt8) (contents : Bytes) :
    (wrap tag contents).length = header contents + contents.length := by
  simp only [wrap, Tlv.encode, header, List.length_append, List.length_singleton]

variable {whole : Bytes} {start : Nat}

theorem occursAt_contents {tag : UInt8} {contents : Bytes} (h : OccursAt whole start (wrap tag contents)) :
    OccursAt whole (start + header contents) contents := by
  have hright := h.right
  rw [List.length_append, List.length_singleton] at hright
  exact hright

/-! ## Reading a length -/

theorem length_octets_le {w : Nat} : ∀ {fuel n : Nat}, n < 256 ^ w → (octets fuel n).length ≤ w := by
  induction w with
  | zero =>
      intro fuel n h
      rw [Nat.pow_zero, Nat.lt_one_iff] at h
      subst h
      cases fuel <;> exact le_refl _
  | succ w ih =>
      intro fuel n h
      cases fuel with
      | zero => exact Nat.zero_le _
      | succ fuel =>
          rw [octets]
          split
          · exact Nat.zero_le _
          · rw [List.length_append, List.length_singleton]
            have hdiv : n / 256 < 256 ^ w := by
              rw [Nat.div_lt_iff_lt_mul (by decide)]
              rwa [Nat.pow_succ] at h
            have hrest : (octets fuel (n / 256)).length ≤ w := ih hdiv
            omega

theorem beNat_octets {fuel : Nat} : ∀ {n : Nat}, n ≤ fuel → beNat (octets fuel n) = n := by
  induction fuel with
  | zero =>
      intro n h
      rw [Nat.le_zero.mp h]
      rfl
  | succ fuel ih =>
      intro n h
      rw [octets]
      split
      · rename_i hzero
        rw [hzero]
        rfl
      · have hdiv := ih (n := n / 256) (by omega)
        rw [beNat] at hdiv ⊢
        rw [List.foldl_append, hdiv, List.foldl_cons, List.foldl_nil, UInt8.toNat_ofNat']
        omega

theorem derDigits_of_occurs {digits : Bytes} : ∀ {j len : Nat}, OccursAt whole j digits →
    derDigits whole digits.length j len = some (digits.foldl (fun n x => n * 256 + x.toNat) len) := by
  induction digits with
  | nil => exact fun _ => rfl
  | cons x digits ih =>
      intro j len h
      rw [List.length_cons, derDigits, h.head]
      exact ih h.tail

/-- **The length octets read back.** -/
theorem derLen_of_occurs {i n : Nat} (h : OccursAt whole i (lengthOctets n)) (hn : n < 2 ^ 53) :
    derLen whole i = (some n, i + (lengthOctets n).length) := by
  unfold lengthOctets at h ⊢
  split
  · rename_i hsmall
    rw [if_pos hsmall] at h
    have hnat : (UInt8.ofNat n).toNat = n := by
      rw [UInt8.toNat_ofNat']
      exact Nat.mod_eq_of_lt (by omega)
    rw [derLen, h.head]
    dsimp only
    rw [if_pos (UInt8.lt_iff_toNat_lt.mpr (by rw [hnat]; exact hsmall)), hnat, List.length_singleton]
  · rename_i hlarge
    rw [if_neg hlarge] at h
    have hdigits : (octets n n).length ≤ 7 := length_octets_le (by omega)
    have hnat : (UInt8.ofNat (128 + (octets n n).length)).toNat = 128 + (octets n n).length := by
      rw [UInt8.toNat_ofNat']
      exact Nat.mod_eq_of_lt (by omega)
    have hmod : (128 + (octets n n).length) % 128 = (octets n n).length := by omega
    rw [derLen, h.head]
    dsimp only
    rw [if_neg (by rw [UInt8.lt_iff_toNat_lt, hnat]; simp), hnat, hmod,
      derDigits_of_occurs h.tail, List.length_cons]
    have hvalue : (octets n n).foldl (fun n x => n * 256 + x.toNat) 0 = n := beNat_octets (le_refl n)
    rw [hvalue]
    congr 1
    omega

/-! ## The names are found -/

theorem isPrefixOf_of_occurs {part : Bytes} (h : OccursAt whole start part) :
    part.isPrefixOf (whole.drop start) = true := by
  obtain ⟨rest, hrest⟩ := h
  rw [hrest, List.isPrefixOf_iff_prefix]
  exact List.prefix_append _ _

theorem subarray_of_occurs {part : Bytes} (h : OccursAt whole start part) :
    subarray whole start (some part.length) = part := by
  obtain ⟨rest, hrest⟩ := h
  rw [subarray, hrest, List.take_left]

/-- **The value behind the object identifier is read.** -/
theorem eidAt_of_occurs {value : Bytes} (hwhole : whole.length < 2 ^ 53)
    (h : OccursAt whole start (bundleEidOid ++ wrap 0xa0 (Tlv.encode ⟨[0x16], value⟩))) :
    eidAt whole start = some (latin1 value) := by
  have hinner := h.right
  have hlen := hinner.right.length_le
  have hvalue : OccursAt whole (start + bundleEidOid.length + header (Tlv.encode ⟨[0x16], value⟩))
      (Tlv.encode ⟨[0x16], value⟩) := occursAt_contents hinner
  have hvalueLen := hvalue.right.length_le
  have hfirst : whole[start + bundleEidOid.length]? = some 0xa0 := hinner.head
  have hsecond : whole[start + bundleEidOid.length + header (Tlv.encode ⟨[0x16], value⟩)]? = some 0x16 :=
    hvalue.head
  have houter := derLen_of_occurs (OccursAt.tail hinner.left) (by omega)
  have hinnerLen := derLen_of_occurs (OccursAt.tail hvalue.left) (by omega)
  have hend : start + bundleEidOid.length + 1 +
      (lengthOctets (Tlv.encode ⟨[0x16], value⟩).length).length =
      start + bundleEidOid.length + header (Tlv.encode ⟨[0x16], value⟩) := by
    rw [header]
    omega
  have hcontents : OccursAt whole (start + bundleEidOid.length +
      header (Tlv.encode ⟨[0x16], value⟩) + 1 + (lengthOctets value.length).length) value := by
    have hright := hvalue.right
    rw [List.length_append, List.length_singleton] at hright
    rwa [Nat.add_assoc]
  rw [eidAt, isPrefixOf_of_occurs h.left, if_pos rfl, readEid, houter]
  dsimp only
  rw [if_neg (by rw [hfirst]; simp), hend, if_neg (by rw [hsecond]; simp), hinnerLen]
  dsimp only
  rw [subarray_of_occurs hcontents]

theorem finds_generalName (hwhole : whole.length < 2 ^ 53) :
    Finds (eidAt whole) whole GeneralName.encode GeneralName.places GeneralName.eids := by
  refine ⟨fun {start x} h => ?_, fun {start x p} hp => ?_, fun {start x} => ?_⟩
  · cases x with
    | name t kind => rfl
    | otherName typeId value =>
        rw [GeneralName.places, GeneralName.eids]
        split
        · rename_i hnode
          obtain ⟨rfl, htag⟩ := hnode
          have hname := occursAt_contents h
          have hvalue : value = ⟨[0x16], value.contents⟩ := by rw [← htag]
          rw [hvalue] at hname
          rw [List.map_singleton, List.map_singleton, hvalue, eidAt_of_occurs hwhole hname]
        · rfl
  · cases x with
    | name t kind => cases hp
    | otherName typeId value =>
        rw [GeneralName.places] at hp
        split at hp
        · rw [List.mem_singleton.mp hp, GeneralName.encode, length_wrap, List.length_append, length_wrap]
          have : 0 < header typeId := by
            rw [header]
            omega
          omega
        · cases hp
  · cases x with
    | name t kind => exact List.Pairwise.nil
    | otherName typeId value =>
        rw [GeneralName.places]
        split
        · exact List.pairwise_singleton _ _
        · exact List.Pairwise.nil

theorem finds_extension (hwhole : whole.length < 2 ^ 53) :
    Finds (eidAt whole) whole Extension.encode Extension.places Extension.eids := by
  have hnames := (finds_generalName hwhole).row
  refine ⟨fun {start x} h => ?_, fun {start x p} hp => ?_, fun {start x} => ?_⟩
  · cases x with
    | other oid critical value type => rfl
    | subjectAltName critical names =>
        have hlist := occursAt_contents (occursAt_contents (occursAt_contents h).right)
        apply hnames.found
        rw [beforeNames]
        simpa only [Nat.add_assoc] using hlist
  · cases x with
    | other oid critical value type => cases hp
    | subjectAltName critical names =>
        have hin := hnames.inside hp
        rw [Extension.encode, length_wrap, List.length_append, length_wrap 0x04, length_wrap 0x30]
        rw [beforeNames] at hin
        omega
  · cases x with
    | other oid critical value type => exact List.Pairwise.nil
    | subjectAltName critical names => exact hnames.sorted

/-! ## What looks like a name -/

/-- Octets that are read as a length: one below 128, or a number of octets and as many more. -/
def IsLength : Bytes → Prop
  | [] => False
  | x :: digits => digits.length = if x < 0x80 then 0 else x.toNat % 128

/-- The bytes of id-on-bundleEID with an explicit tag and an IA5String behind them. -/
def LooksLikeEid (der : Bytes) (p : Nat) : Prop :=
  ∃ len, IsLength len ∧ OccursAt der p (bundleEidOid ++ 0xa0 :: (len ++ [0x16]))

theorem derLen_end {len rest : Bytes} {i : Nat} (hlen : IsLength len) (h : OccursAt der i (len ++ rest)) :
    (derLen der i).2 = i + len.length := by
  cases len with
  | nil => cases hlen
  | cons x digits =>
      rw [derLen, h.head, List.length_cons, show digits.length = _ from hlen]
      dsimp only
      split
      · rfl
      · dsimp only
        omega

/-- The octets up to a byte behind a length are those of a length. -/
theorem isLength_of_derLen {i : Nat} {y : UInt8} (h : der[(derLen der i).2]? = some y) :
    ∃ len, IsLength len ∧ OccursAt der i (len ++ [y]) := by
  have hlt : (derLen der i).2 < der.length := (List.getElem?_eq_some_iff.mp h).1
  cases hfirst : der[i]? with
  | none =>
      rw [derLen, hfirst] at hlt
      have hle : der.length ≤ i := List.getElem?_eq_none_iff.mp hfirst
      exact absurd hlt (by dsimp only; omega)
  | some x =>
      set n := if x < 0x80 then 0 else x.toNat % 128 with hn
      have hend : (derLen der i).2 = i + 1 + n := by
        rw [derLen, hfirst, hn]
        dsimp only
        split <;> rfl
      rw [hend] at h hlt
      refine ⟨x :: (der.drop (i + 1)).take n, ?_, (der.drop (i + 1)).drop (n + 1), ?_⟩
      · show ((der.drop (i + 1)).take n).length = n
        rw [List.length_take, List.length_drop]
        omega
      · have hdrop : der.drop i = x :: der.drop (i + 1) := by
          obtain ⟨hi, hx⟩ := List.getElem?_eq_some_iff.mp hfirst
          rw [List.drop_eq_getElem_cons hi, hx]
        have hy : ((der.drop (i + 1)).drop n).head? = some y := by
          rw [List.head?_drop, List.getElem?_drop]
          exact h
        rw [hdrop, List.cons_append, List.cons_append, List.append_assoc]
        congr 1
        conv_lhs => rw [← List.take_append_drop n (der.drop (i + 1))]
        congr 1
        cases hrest : (der.drop (i + 1)).drop n with
        | nil =>
            rw [hrest] at hy
            cases hy
        | cons z rest =>
            rw [hrest, List.head?_cons, Option.some.injEq] at hy
            rw [hy, ← List.drop_drop, hrest]
            rfl

/-- **The search finds a node ID wherever there is something that looks like one.** -/
theorem eidAt_isSome_iff (p : Nat) : (eidAt der p).isSome = true ↔ LooksLikeEid der p := by
  constructor
  · intro h
    rw [eidAt] at h
    split at h
    · rename_i hoid
      rw [readEid] at h
      dsimp only at h
      split at h
      · cases h
      · rename_i htag
        split at h
        · cases h
        · rename_i hstring
          rw [not_not] at htag hstring
          obtain ⟨rest, hrest⟩ := List.isPrefixOf_iff_prefix.mp hoid
          obtain ⟨len, hlen, hocc⟩ := isLength_of_derLen hstring
          refine ⟨len, hlen, ?_⟩
          obtain ⟨after, hafter⟩ := hocc
          have hdrop : der.drop (p + bundleEidOid.length) = rest := by
            rw [← List.drop_drop, ← hrest, List.drop_left]
          have htagged : rest = 0xa0 :: der.drop (p + bundleEidOid.length + 1) := by
            obtain ⟨hlt, hx⟩ := List.getElem?_eq_some_iff.mp htag
            rw [← hdrop, List.drop_eq_getElem_cons hlt, hx]
          refine ⟨after, ?_⟩
          rw [← hrest, htagged, hafter]
          simp only [List.append_assoc, List.cons_append]
    · cases h
  · rintro ⟨len, hlen, hocc⟩
    have htail := hocc.right
    have hstring : OccursAt der (p + bundleEidOid.length + 1 + len.length) [0x16] := htail.tail.right
    have htag : der[p + bundleEidOid.length]? = some 0xa0 := htail.head
    rw [eidAt, isPrefixOf_of_occurs hocc.left, if_pos rfl, readEid]
    dsimp only
    rw [if_neg (by rw [htag]; simp), derLen_end hlen htail.tail, if_neg (by rw [hstring.head]; simp)]
    rfl

/-! ## Certificates -/

theorem finds_certificate (c : Certificate) (hlen : c.encode.length < 2 ^ 53) :
    c.places.map (eidAt c.encode) = c.eids.map some ∧ c.places.Pairwise (· < ·) ∧
      ∀ p ∈ c.places, p < c.encode.length := by
  have hextensions := (finds_extension hlen).row
  refine ⟨?_, hextensions.sorted, fun p hp => ?_⟩
  · by_cases hnone : c.extensions = []
    · rw [Certificate.places, Certificate.eids, hnone]
      rfl
    · have hocc := occursAt_contents (occursAt_contents (occursAt_whole c.encode)).left.left
      have hlist := hocc.right
      rw [extensionsOctets, if_neg hnone] at hlist
      have hlist := occursAt_contents (occursAt_contents hlist)
      apply hextensions.found
      rw [Certificate.beforeExtensions]
      simpa only [Nat.zero_add, Nat.add_assoc, extensionsOctets, if_neg hnone] using hlist
  · have hnone : c.extensions ≠ [] := by
      intro hnone
      rw [Certificate.places, hnone] at hp
      cases hp
    have hin := (hextensions.inside hp).2
    have hoctets : (extensionsOctets c.extensions).length =
        header (wrap 0x30 (c.extensions.flatMap Extension.encode)) +
          (header (c.extensions.flatMap Extension.encode) +
            (c.extensions.flatMap Extension.encode).length) := by
      rw [extensionsOctets, if_neg hnone, length_wrap, length_wrap]
    rw [Certificate.encode, length_wrap, List.length_append, List.length_append, length_wrap,
      List.length_append, hoctets]
    rw [Certificate.beforeExtensions] at hin
    omega

/-- **The node IDs are exactly those of the subjectAltName** (`hlen`: how long a Buffer can be) where
nothing that looks like one is at another place of the certificate; and the search always ends. -/
theorem bundleEids_iff (c : Certificate) (hlen : c.encode.length < 2 ^ 53) :
    (∀ der, (bundleEidsFromCert der).isSome = true) ∧
      (bundleEidsFromCert c.encode = some c.eids ↔
        ∀ p, LooksLikeEid c.encode p → p ∈ c.places) := by
  refine ⟨fun der => by rw [bundleEidsFromCert_eq]; rfl, ?_⟩
  obtain ⟨hfound, hsorted, hinside⟩ := finds_certificate c hlen
  rw [bundleEidsFromCert_eq, Option.some.injEq, filterMap_range_eq_iff hfound hsorted hinside]
  constructor
  · intro h p hp
    refine h p ?_ ((eidAt_isSome_iff p).mpr hp)
    obtain ⟨len, _, hocc⟩ := hp
    exact (List.getElem?_eq_some_iff.mp (OccursAt.head hocc)).1
  · exact fun h p _ hp => h p ((eidAt_isSome_iff p).mp hp)

/-! ### Two certificates -/

/-- A name of an attribute type of `2.5.4`, in a string of the given tag. -/
def sampleName (type tag : UInt8) (value : Bytes) : Bytes :=
  wrap 0x30 (wrap 0x31 (wrap 0x30 (wrap 0x06 [0x55, 0x04, type] ++ wrap tag value)))

/-- A certificate of an Ed25519 key. -/
def sampleCertificate (subject : Bytes) (extensions : List Extension) : Certificate where
  version := wrap 0xa0 (wrap 0x02 [2])
  serialNumber := wrap 0x02 [1]
  signature := wrap 0x30 (wrap 0x06 [0x2b, 0x65, 0x70])
  issuer := sampleName 0x03 0x0c (toUtf8 (js "ca"))
  validity := wrap 0x30 (wrap 0x17 (toUtf8 (js "260101000000Z")) ++ wrap 0x17 (toUtf8 (js "270101000000Z")))
  subject
  subjectPublicKeyInfo :=
    wrap 0x30 (wrap 0x30 (wrap 0x06 [0x2b, 0x65, 0x70]) ++ wrap 0x03 (0 :: List.replicate 32 7))
  uniqueIDs := []
  extensions
  signatureAlgorithm := wrap 0x30 (wrap 0x06 [0x2b, 0x65, 0x70])
  signatureValue := wrap 0x03 (0 :: List.replicate 64 9)

/-- The node ID of a certificate, in its subjectAltName. -/
def namedCertificate : Certificate :=
  sampleCertificate (sampleName 0x03 0x0c (toUtf8 (js "node")))
    [.subjectAltName false [.otherName idOnBundleEid ⟨[0x16], toUtf8 (js "ipn:1.0")⟩]]

theorem namedCertificate_eids : bundleEidsFromCert namedCertificate.encode = some [js "ipn:1.0"] := by
  have hall : ((List.range namedCertificate.encode.length).all fun p =>
      !(eidAt namedCertificate.encode p).isSome || decide (p ∈ namedCertificate.places)) = true := by decide +kernel
  refine ((bundleEids_iff namedCertificate (by decide +kernel)).2.mpr fun p hp => ?_).trans (by decide +kernel)
  have hsome := (eidAt_isSome_iff p).mpr hp
  have hlt : p < namedCertificate.encode.length := by
    obtain ⟨len, _, hocc⟩ := hp
    exact (List.getElem?_eq_some_iff.mp (OccursAt.head hocc)).1
  have hp := List.all_eq_true.mp hall p (List.mem_range.mpr hlt)
  rw [hsome] at hp
  simpa using hp

/-- A common name in which the bytes of a node ID stand, and no extension. -/
def forgedCertificate : Certificate :=
  sampleCertificate
    (sampleName 0x03 0x14 (bundleEidOid ++ wrap 0xa0 (wrap 0x16 (toUtf8 (js "ipn:1.0"))))) []

/-- **The subject names a node.** -/
theorem forgedCertificate_eids : bundleEidsFromCert forgedCertificate.encode = some [js "ipn:1.0"] ∧
    forgedCertificate.eids = [] := by
  refine ⟨by decide +kernel, rfl⟩

end Tcpcl4

end DtnCustody
