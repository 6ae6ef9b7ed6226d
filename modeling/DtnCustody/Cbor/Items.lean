/-
# DtnCustody.Cbor.Items — bytes in deterministic form, and the values `encode` is given.

`Deterministic` is a grammar of byte strings: every head in its shortest form, text in UTF-8, no key
of a map twice. It does not mention the encoder. `Deterministic.encodes`: such bytes are the encoding
of a value, so the encoder gives them back (`encode_decode`).

`ToBreak` is the decoder's loop over an indefinite array as the source runs it, with nothing that
counts the rounds; `toBreak` says that it always ends.

`encode` takes the values of the language: an integer may be a Number or a BigInt, a byte string a
`Bstr` or a buffer. `value` forgets which. A Number stands for the integer it is as long as it is
safe; beyond, the encoder asks for a BigInt. `decode_encodeItem` is the round trip for values within
these terms (`Plain`), `encode_decode_round` the one from bytes in deterministic form, and every run
of the decoder's one unbounded loop ends.
-/
import DtnCustody.Cbor.Consume
import DtnCustody.Cbor.RoundTrip

namespace DtnCustody

open Base Js

namespace Cbor

/-! ## Heads -/

/-- The forms of a head: the argument in the initial byte, or in 1, 2, 4 or 8 bytes behind it. -/
inductive HeadForm (major n : Nat) : Bytes → Prop
  | direct : n < 24 → HeadForm major n [UInt8.ofNat (major * 32 + n)]
  | wide {w ai : Nat} : (w, ai) ∈ [(1, 24), (2, 25), (4, 26), (8, 27)] → n < 256 ^ w →
      HeadForm major n (UInt8.ofNat (major * 32 + ai) :: beBytes w n)

/-- A head than which no form is shorter. -/
def Shortest (major n : Nat) (h : Bytes) : Prop :=
  HeadForm major n h ∧ ∀ h', HeadForm major n h' → h.length ≤ h'.length

/-- The encoder's head is the shortest. -/
theorem head_of_shortest {major n : Nat} {h : Bytes} (hs : Shortest major n h) :
    head major n = .ok h := by
  obtain ⟨hform, hmin⟩ := hs
  -- a form of fewer bytes would be shorter
  have wider : ∀ {w ai k : Nat}, h = UInt8.ofNat (major * 32 + ai) :: beBytes w n → k < w →
      ∀ {ak : Nat}, (k, ak) ∈ [(1, 24), (2, 25), (4, 26), (8, 27)] → ¬ n < 256 ^ k := by
    intro w ai k hh hk ak hak hn
    have hle := hmin _ (.wide hak hn)
    rw [hh, List.length_cons, List.length_cons, length_beBytes, length_beBytes] at hle
    omega
  have direct : ∀ {w ai : Nat}, h = UInt8.ofNat (major * 32 + ai) :: beBytes w n → 0 < w →
      ¬ n < 24 := by
    intro w ai hh hw hn
    have hle := hmin _ (.direct hn)
    rw [hh, List.length_cons, List.length_singleton, length_beBytes] at hle
    omega
  cases hform with
  | direct hn => rw [head, if_pos hn]
  | @wide w ai hmem hn =>
      simp only [List.mem_cons, List.not_mem_nil, or_false, Prod.mk.injEq] at hmem
      rcases hmem with ⟨rfl, rfl⟩ | ⟨rfl, rfl⟩ | ⟨rfl, rfl⟩ | ⟨rfl, rfl⟩
      · have h0 := direct rfl (by omega)
        rw [head, if_neg h0, if_pos (by omega)]
      · have h0 := direct rfl (by omega)
        have h1 := @wider _ _ 1 rfl (by omega) 24 (by decide)
        rw [head, if_neg h0, if_neg (by omega), if_pos (by omega)]
      · have h0 := direct rfl (by omega)
        have h2 := @wider _ _ 2 rfl (by omega) 25 (by decide)
        rw [head, if_neg h0, if_neg (by omega), if_neg (by omega), if_pos (by omega)]
      · have h0 := direct rfl (by omega)
        have h4 := @wider _ _ 4 rfl (by omega) 26 (by decide)
        rw [head, if_neg h0, if_neg (by omega), if_neg (by omega), if_neg (by omega),
          if_pos (by omega)]

theorem HeadForm.length_pos {major n : Nat} {h : Bytes} (hform : HeadForm major n h) :
    0 < h.length := by
  cases hform <;> simp

/-- A head of one byte is the shortest. -/
theorem shortest_direct {major n : Nat} (hn : n < 24) :
    Shortest major n [UInt8.ofNat (major * 32 + n)] :=
  ⟨.direct hn, fun _ h' => h'.length_pos⟩

/-! ## Items -/

/-- **One item in deterministic form.** -/
inductive Deterministic : Bytes → Prop
  | false_ : Deterministic [0xf4]
  | true_ : Deterministic [0xf5]
  | null : Deterministic [0xf6]
  | uint {n : Nat} {h : Bytes} : Shortest 0 n h → Deterministic h
  | nint {n : Nat} {h : Bytes} : Shortest 1 n h → Deterministic h
  | bytes {s h : Bytes} : Shortest 2 s.length h → Deterministic (h ++ s)
  | text {cs : List Char} {h : Bytes} : Shortest 3 (utf8Encode cs).length h →
      Deterministic (h ++ utf8Encode cs)
  | array {items : List Bytes} {h : Bytes} : Shortest 4 items.length h →
      (∀ x ∈ items, Deterministic x) → Deterministic (h ++ items.flatten)
  | indef {items : List Bytes} : (∀ x ∈ items, Deterministic x) →
      Deterministic (0x9f :: items.flatten ++ [0xff])
  | map {entries : List (Bytes × Bytes)} {h : Bytes} : Shortest 5 entries.length h →
      (∀ p ∈ entries, Deterministic p.1) → (∀ p ∈ entries, Deterministic p.2) →
      (entries.map Prod.fst).Nodup → Deterministic (h ++ entries.flatMap fun p => p.1 ++ p.2)

/-- The number of bytes a buffer can hold at most. -/
def maxBuffer : Nat := 9007199254740991

theorem lengthHead_of_shortest {major n : Nat} {h : Bytes} (hs : Shortest major n h)
    (hn : n ≤ maxBuffer) : lengthHead major n = .ok h := by
  rw [lengthHead, if_pos (show n ≤ 9007199254740991 from hn), head_of_shortest hs]

theorem exists_encodeAll {items : List Bytes}
    (h : ∀ x ∈ items, ∃ v, Distinct v ∧ encode v = .ok x) :
    ∃ vs : List Cbor, vs.length = items.length ∧ (∀ v ∈ vs, Distinct v) ∧
      encodeAll vs = .ok items.flatten := by
  induction items with
  | nil => exact ⟨[], rfl, (fun _ hv => by cases hv), rfl⟩
  | cons x items ih =>
      rw [List.forall_mem_cons] at h
      obtain ⟨⟨v, hv, hx⟩, hrest⟩ := h
      obtain ⟨vs, hlen, hvs, henc⟩ := ih hrest
      refine ⟨v :: vs, by rw [List.length_cons, List.length_cons, hlen],
        List.forall_mem_cons.mpr ⟨hv, hvs⟩, ?_⟩
      rw [encodeAll, hx, henc]
      rfl

theorem exists_encodePairs {entries : List (Bytes × Bytes)}
    (hk : ∀ p ∈ entries, ∃ v, Distinct v ∧ encode v = .ok p.1)
    (hv : ∀ p ∈ entries, ∃ v, Distinct v ∧ encode v = .ok p.2)
    (hnodup : (entries.map Prod.fst).Nodup) :
    ∃ kvs : List (Cbor × Cbor), kvs.length = entries.length ∧ Distinct (.map kvs) ∧
      encodePairs kvs = .ok (entries.flatMap fun p => p.1 ++ p.2) ∧
      ∀ q ∈ kvs, ∃ p ∈ entries, encode q.1 = .ok p.1 := by
  induction entries with
  | nil =>
      exact ⟨[], rfl, .map .nil (fun _ h => by cases h) (fun _ h => by cases h), rfl,
        fun _ h => by cases h⟩
  | cons p entries ih =>
      rw [List.forall_mem_cons] at hk hv
      rw [List.map_cons, List.nodup_cons] at hnodup
      obtain ⟨kvs, hlen, hdist, henc, hkeys⟩ := ih hk.2 hv.2 hnodup.2
      obtain ⟨k, hdk, hek⟩ := hk.1
      obtain ⟨v, hdv, hev⟩ := hv.1
      cases hdist with
      | map hpair hdk' hdv' =>
          refine ⟨(k, v) :: kvs, by rw [List.length_cons, List.length_cons, hlen], ?_, ?_, ?_⟩
          · refine .map (List.pairwise_cons.mpr ⟨?_, hpair⟩) (List.forall_mem_cons.mpr ⟨hdk, hdk'⟩)
              (List.forall_mem_cons.mpr ⟨hdv, hdv'⟩)
            intro q hq
            by_contra hsame
            -- equal keys would have equal bytes
            have heq := sameKey_eq (by simpa using hsame)
            obtain ⟨p', hp', hep'⟩ := hkeys q hq
            rw [← heq, hek, Except.ok.injEq] at hep'
            exact hnodup.1 (List.mem_map.mpr ⟨p', hp', hep'.symm⟩)
          · rw [encodePairs, encodePair, hek, hev, henc]
            rfl
          · refine List.forall_mem_cons.mpr ⟨⟨p, List.mem_cons_self, hek⟩, fun q hq => ?_⟩
            obtain ⟨p', hp', hep'⟩ := hkeys q hq
            exact ⟨p', List.mem_cons_of_mem _ hp', hep'⟩

theorem length_le_encodePairs {kvs : List (Cbor × Cbor)} :
    ∀ {b : Bytes}, encodePairs kvs = .ok b → kvs.length ≤ b.length := by
  induction kvs with
  | nil => intro b _; exact Nat.zero_le _
  | cons p kvs ih =>
      obtain ⟨k, v⟩ := p
      intro b h
      obtain ⟨b₁, h₁, h⟩ := Outcome.bind_eq_ok.mp h
      obtain ⟨b₂, h₂, h⟩ := Outcome.bind_eq_ok.mp h
      obtain ⟨bk, hk, h₁⟩ := Outcome.bind_eq_ok.mp h₁
      obtain ⟨bv, hv, h₁⟩ := Outcome.bind_eq_ok.mp h₁
      cases h
      cases h₁
      obtain ⟨ib, bs, rfl, -⟩ := encode_ne_break hk
      have := ih h₂
      simp only [List.length_cons, List.length_append]
      omega

/-- **Bytes in deterministic form are an encoding.** -/
theorem Deterministic.encodes {b : Bytes} (h : Deterministic b) :
    b.length ≤ maxBuffer → ∃ v, Distinct v ∧ encode v = .ok b := by
  induction h with
  | false_ => exact fun _ => ⟨.bool false, .bool _, rfl⟩
  | true_ => exact fun _ => ⟨.bool true, .bool _, rfl⟩
  | null => exact fun _ => ⟨.null, .null, rfl⟩
  | @uint n h hs =>
      intro _
      refine ⟨.int n, .int _, ?_⟩
      rw [encode, if_neg (by omega), Int.toNat_natCast, head_of_shortest hs]
  | @nint n h hs =>
      intro _
      refine ⟨.int (-1 - n), .int _, ?_⟩
      rw [encode, if_pos (by omega), show (-1 - (-1 - (n : Int))).toNat = n by omega,
        head_of_shortest hs]
  | @bytes s h hs =>
      intro hlen
      rw [List.length_append] at hlen
      refine ⟨.bytes s, .bytes _, ?_⟩
      rw [encode, lengthHead_of_shortest hs (by omega)]
      rfl
  | @text cs h hs =>
      intro hlen
      rw [List.length_append] at hlen
      refine ⟨.text (String.ofList cs), .text _, ?_⟩
      rw [encode, String.toList_ofList, lengthHead_of_shortest hs (by omega)]
      rfl
  | @array items h hs _ ih =>
      intro hlen
      rw [List.length_append] at hlen
      have hitem : ∀ x ∈ items, x.length ≤ maxBuffer := by
        intro x hx
        have := (List.sublist_flatten_of_mem hx).length_le
        omega
      obtain ⟨vs, hvs, hdist, henc⟩ := exists_encodeAll fun x hx => ih x hx (hitem x hx)
      have hcount := length_le_encodeAll henc
      refine ⟨.array vs, .array hdist, ?_⟩
      rw [encode, hvs, lengthHead_of_shortest hs (by omega), henc]
      rfl
  | @indef items _ ih =>
      intro hlen
      rw [List.length_append, List.length_cons] at hlen
      have hitem : ∀ x ∈ items, x.length ≤ maxBuffer := by
        intro x hx
        have := (List.sublist_flatten_of_mem hx).length_le
        omega
      obtain ⟨vs, hvs, hdist, henc⟩ := exists_encodeAll fun x hx => ih x hx (hitem x hx)
      refine ⟨.indef vs, .indef hdist, ?_⟩
      rw [encode, henc]
      rfl
  | @map entries h hs _ _ hnodup ihk ihv =>
      intro hlen
      rw [List.length_append] at hlen
      have hitem : ∀ p ∈ entries, p.1.length ≤ maxBuffer ∧ p.2.length ≤ maxBuffer := by
        intro p hp
        have hsub := (List.sublist_flatten_of_mem (List.mem_map_of_mem
          (f := fun p : Bytes × Bytes => p.1 ++ p.2) hp)).length_le
        rw [← List.flatMap_def, List.length_append] at hsub
        omega
      obtain ⟨kvs, hkvs, hdist, henc, _⟩ := exists_encodePairs
        (fun p hp => ihk p hp (hitem p hp).1) (fun p hp => ihv p hp (hitem p hp).2) hnodup
      have hcount := length_le_encodePairs henc
      refine ⟨.map kvs, hdist, ?_⟩
      rw [encode, hkvs, lengthHead_of_shortest hs (by omega), henc]
      rfl

/-- **Deterministic bytes come back** from the value they decode to. -/
theorem encode_decode {b : Bytes} (hdet : Deterministic b) (hlen : b.length ≤ maxBuffer) {v : Cbor}
    (h : decode b = .ok v) : encode v = .ok b := by
  obtain ⟨w, hdist, hw⟩ := hdet.encodes hlen
  rwa [decode_encode_eq hdist hw h]

/-! ## The loop to the break byte -/

/-- A run of the loop, from the bytes left to what it returns or throws. -/
inductive ToBreak (item : Bytes → Outcome (Cbor × Bytes)) :
    Bytes → Outcome (List Cbor × Bytes) → Prop
  | truncated : ToBreak item [] (.error (.error "CBOR truncated"))
  | done {bs : Bytes} : ToBreak item (0xff :: bs) (.ok ([], bs))
  | fail {b : UInt8} {bs : Bytes} {e : Err} : b ≠ 0xff → item (b :: bs) = .error e →
      ToBreak item (b :: bs) (.error e)
  | next {b : UInt8} {bs r : Bytes} {v : Cbor} {out : Outcome (List Cbor × Bytes)} : b ≠ 0xff →
      item (b :: bs) = .ok (v, r) → ToBreak item r out →
      ToBreak item (b :: bs) (do let (vs, r) ← out; return (v :: vs, r))

/-- **The loop ends** on all bytes, when each item takes at least one. -/
theorem toBreak {item : Bytes → Outcome (Cbor × Bytes)} (hitem : Consumes item) {fuel : Nat} :
    ∀ {bs : Bytes}, bs.length < fuel → ToBreak item bs (decodeToBreak item fuel bs) := by
  induction fuel with
  | zero => intro bs h; omega
  | succ fuel ih =>
      intro bs h
      cases bs with
      | nil => exact .truncated
      | cons b bs =>
          rw [decodeToBreak]
          split
          · rename_i hb
            subst hb
            exact .done
          · rename_i hb
            cases hv : item (b :: bs) with
            | error e => exact .fail hb hv
            | ok p =>
                obtain ⟨v, r⟩ := p
                obtain ⟨raw, hne, hraw⟩ := hitem _ v r hv
                have hpos := List.length_pos_iff.mpr hne
                have hshort : r.length < fuel := by
                  rw [hraw, List.length_append] at h
                  omega
                exact .next hb hv (ih hshort)

end Cbor

end DtnCustody

namespace DtnCustody

open Base Js

namespace Cbor

inductive Item where
  | null
  | bool (b : Bool)
  | num (x : JsNum)
  | big (z : Int)
  | text (s : JsString)
  | bstr (b : Bytes)
  | buffer (b : Bytes)
  | indef (items : List Item)
  | array (items : List Item)
  | map (kvs : List (Item × Item))
  /-- Anything else, with its `typeof`. -/
  | other (type : String)

namespace Item

/-! ## The encoder -/

mutual

/-- `encode(v)`. A Number argument of a head is refused beyond 2^53 as a length is, a BigInt one only
when it does not fit 64 bits. -/
def encodeItem : Item → Outcome Bytes
  | .bool false => .ok [0xf4]
  | .bool true => .ok [0xf5]
  | .null => .ok [0xf6]
  | .num (.fin q) =>
      if q.den ≠ 1 then .error (.error "floats are not used in BPv7")
      else if q.num < 0 then lengthHead 1 (-1 - q.num).toNat
      else lengthHead 0 q.num.toNat
  | .num _ => .error (.error "floats are not used in BPv7")
  | .big z => if z < 0 then head 1 (-1 - z).toNat else head 0 z.toNat
  | .text s => do
      let b := toUtf8 s
      return (← lengthHead 3 b.length) ++ b
  | .bstr b => do return (← lengthHead 2 b.length) ++ b
  | .buffer b => do return (← lengthHead 2 b.length) ++ b
  | .indef items => do return 0x9f :: (← encodeItems items) ++ [0xff]
  | .array items => do return (← lengthHead 4 items.length) ++ (← encodeItems items)
  | .map kvs => do return (← lengthHead 5 kvs.length) ++ (← encodeEntries kvs)
  | .other type => .error (.error s!"cannot CBOR-encode {type}")

def encodeItems : List Item → Outcome Bytes
  | [] => .ok []
  | x :: xs => do return (← encodeItem x) ++ (← encodeItems xs)

def encodeEntries : List (Item × Item) → Outcome Bytes
  | [] => .ok []
  | p :: ps => do return (← encodeEntry p) ++ (← encodeEntries ps)

def encodeEntry : Item × Item → Outcome Bytes
  | (k, v) => do return (← encodeItem k) ++ (← encodeItem v)

end

/-! ## Values up to representation -/

mutual

/-- The value, whether its integers are Numbers or BigInts and its byte strings `Bstr` or buffers. -/
def value : Item → Cbor
  | .null => .null
  | .bool b => .bool b
  | .num (.fin q) => .int q.num
  | .num _ => .null
  | .big z => .int z
  | .text s => .text (String.ofList (scalars s))
  | .bstr b => .bytes b
  | .buffer b => .bytes b
  | .indef items => .indef (values items)
  | .array items => .array (values items)
  | .map kvs => .map (entryValues kvs)
  | .other _ => .null

def values : List Item → List Cbor
  | [] => []
  | x :: xs => value x :: values xs

def entryValues : List (Item × Item) → List (Cbor × Cbor)
  | [] => []
  | p :: ps => entryValue p :: entryValues ps

def entryValue : Item × Item → Cbor × Cbor
  | (k, v) => (value k, value v)

end

/-- **The values of the round trip**: integers within 64 bits and a sign, as Numbers only where these
are safe (and for -2^53), text without lone surrogates, keys that differ in value, and nothing longer
than the language has it. -/
inductive Plain : Item → Prop
  | null : Plain .null
  | bool (b : Bool) : Plain (.bool b)
  | num {z : Int} : -9007199254740992 ≤ z → z ≤ 9007199254740991 → Plain (.num (.fin z))
  | big {z : Int} : -18446744073709551616 ≤ z → z < 18446744073709551616 → Plain (.big z)
  | text {s : JsString} : WellFormed s → (toUtf8 s).length ≤ maxBuffer → Plain (.text s)
  | bstr {b : Bytes} : b.length ≤ maxBuffer → Plain (.bstr b)
  | buffer {b : Bytes} : b.length ≤ maxBuffer → Plain (.buffer b)
  | indef {items : List Item} : (∀ x ∈ items, Plain x) → Plain (.indef items)
  | array {items : List Item} : (∀ x ∈ items, Plain x) → items.length ≤ maxBuffer →
      Plain (.array items)
  | map {kvs : List (Item × Item)} : (∀ p ∈ kvs, Plain p.1) → (∀ p ∈ kvs, Plain p.2) →
      DistinctKeys (entryValues kvs) → kvs.length ≤ maxBuffer → Plain (.map kvs)

theorem values_eq_map (items : List Item) : values items = items.map value := by
  induction items with
  | nil => rfl
  | cons x xs ih => rw [values, ih, List.map_cons]

theorem entryValues_eq_map (kvs : List (Item × Item)) :
    entryValues kvs = kvs.map fun p => (value p.1, value p.2) := by
  induction kvs with
  | nil => rfl
  | cons p ps ih =>
      obtain ⟨k, v⟩ := p
      rw [entryValues, ih, List.map_cons, entryValue]

/-- A representation of a value encodes as the value does. -/
structure Encodes (v : Item) : Prop where
  distinct : Distinct v.value
  same : encodeItem v = encode v.value
  returns : ∃ b, encode v.value = .ok b

theorem exists_head {major n : Nat} (h : n < 18446744073709551616) : ∃ b, head major n = .ok b := by
  unfold head
  split_ifs <;> exact ⟨_, rfl⟩

theorem exists_lengthHead {major n : Nat} (h : n ≤ maxBuffer) : ∃ b, lengthHead major n = .ok b := by
  have hn : n ≤ 9007199254740991 := h
  rw [lengthHead, if_pos hn]
  exact exists_head (by omega)

theorem encodes_items {items : List Item} (h : ∀ x ∈ items, Encodes x) :
    (∀ v ∈ values items, Distinct v) ∧ encodeItems items = encodeAll (values items) ∧
      ∃ b, encodeAll (values items) = .ok b := by
  induction items with
  | nil => exact ⟨(fun _ hv => by cases hv), rfl, _, rfl⟩
  | cons x xs ih =>
      rw [List.forall_mem_cons] at h
      obtain ⟨hdist, hsame, b, hb⟩ := ih h.2
      obtain ⟨c, hc⟩ := h.1.returns
      refine ⟨List.forall_mem_cons.mpr ⟨h.1.distinct, hdist⟩, ?_, c ++ b, ?_⟩
      · rw [encodeItems, values, encodeAll, h.1.same, hsame]
      · rw [values, encodeAll, hc, hb]
        rfl

theorem encodes_entries {kvs : List (Item × Item)} (hk : ∀ p ∈ kvs, Encodes p.1)
    (hv : ∀ p ∈ kvs, Encodes p.2) :
    encodeEntries kvs = encodePairs (entryValues kvs) ∧
      ∃ b, encodePairs (entryValues kvs) = .ok b := by
  induction kvs with
  | nil => exact ⟨rfl, _, rfl⟩
  | cons p ps ih =>
      obtain ⟨k, v⟩ := p
      rw [List.forall_mem_cons] at hk hv
      obtain ⟨hsame, b, hb⟩ := ih hk.2 hv.2
      obtain ⟨c, hc⟩ := hk.1.returns
      obtain ⟨d, hd⟩ := hv.1.returns
      refine ⟨?_, (c ++ d) ++ b, ?_⟩
      · rw [encodeEntries, encodeEntry, entryValues, entryValue, encodePairs, encodePair, hsame,
          hk.1.same, hv.1.same]
      · rw [entryValues, entryValue, encodePairs, encodePair]
        dsimp only at hc hd
        rw [hc, hd, hb]
        rfl

theorem Plain.encodes {v : Item} (h : Plain v) : Encodes v := by
  induction h with
  | null => exact ⟨.null, rfl, _, rfl⟩
  | bool b => cases b <;> exact ⟨.bool _, rfl, _, rfl⟩
  | @num z hlo hhi =>
      have hnum : ((z : ℚ)).num = z := Rat.num_intCast z
      have hden : ((z : ℚ)).den = 1 := Rat.den_intCast z
      refine ⟨?_, ?_, ?_⟩
      · rw [value]
        exact .int _
      · rw [encodeItem, value, encode, if_neg (by simp [hden]), hnum]
        split
        · rw [lengthHead, if_pos (by omega)]
        · rw [lengthHead, if_pos (by omega)]
      · rw [value, encode, hnum]
        split
        · exact exists_head (by omega)
        · exact exists_head (by omega)
  | @big z hlo hhi =>
      refine ⟨.int _, ?_, ?_⟩
      · rw [encodeItem, value, encode]
      · rw [value, encode]
        split
        · exact exists_head (by omega)
        · exact exists_head (by omega)
  | @text s _ hlen =>
      obtain ⟨hd, hhd⟩ := @exists_lengthHead 3 _ hlen
      have hbytes : utf8Encode (String.ofList (scalars s)).toList = toUtf8 s := by
        rw [String.toList_ofList, toUtf8]
      refine ⟨.text _, ?_, hd ++ toUtf8 s, ?_⟩
      · rw [encodeItem, value, encode, hbytes]
      · rw [value, encode, hbytes, hhd]
        rfl
  | @bstr b hlen =>
      obtain ⟨hd, hhd⟩ := @exists_lengthHead 2 _ hlen
      refine ⟨.bytes _, by rw [encodeItem, value, encode], hd ++ b, ?_⟩
      rw [value, encode, hhd]
      rfl
  | @buffer b hlen =>
      obtain ⟨hd, hhd⟩ := @exists_lengthHead 2 _ hlen
      refine ⟨.bytes _, by rw [encodeItem, value, encode], hd ++ b, ?_⟩
      rw [value, encode, hhd]
      rfl
  | @indef items _ ih =>
      obtain ⟨hdist, hsame, b, hb⟩ := encodes_items ih
      refine ⟨.indef hdist, by rw [encodeItem, value, encode, hsame], 0x9f :: b ++ [0xff], ?_⟩
      rw [value, encode, hb]
      rfl
  | @array items _ hlen ih =>
      obtain ⟨hdist, hsame, b, hb⟩ := encodes_items ih
      have hcount : (values items).length = items.length := by
        rw [values_eq_map, List.length_map]
      obtain ⟨hd, hhd⟩ := @exists_lengthHead 4 _ hlen
      refine ⟨.array hdist, by rw [encodeItem, value, encode, hsame, hcount], hd ++ b, ?_⟩
      rw [value, encode, hb, hcount, hhd]
      rfl
  | @map kvs _ _ hkeys hlen ihk ihv =>
      obtain ⟨hsame, b, hb⟩ := encodes_entries ihk ihv
      have hcount : (entryValues kvs).length = kvs.length := by
        rw [entryValues_eq_map, List.length_map]
      obtain ⟨hd, hhd⟩ := @exists_lengthHead 5 _ hlen
      refine ⟨.map hkeys ?_ ?_, by rw [encodeItem, value, encode, hsame, hcount], hd ++ b, ?_⟩
      · rw [entryValues_eq_map, List.forall_mem_map]
        exact fun p hp => (ihk p hp).distinct
      · rw [entryValues_eq_map, List.forall_mem_map]
        exact fun p hp => (ihv p hp).distinct
      · rw [value, encode, hb, hcount, hhd]
        rfl

/-- **`decode(encode(v)) = v`**, nested no deeper than the decoder allows. -/
theorem decode_encodeItem {v : Item} (h : Plain v) (hdepth : depth v.value ≤ 32) :
    (encodeItem v).bind decode = .ok v.value := by
  obtain ⟨hdist, hsame, b, hb⟩ := h.encodes
  rw [hsame, hb]
  exact decode_encode hdist (Nat.lt_succ_of_le hdepth) hb

mutual

/-- The value as `decode` returns it: integers are Numbers as far as these are safe. -/
def ofValue : Cbor → Item
  | .null => .null
  | .bool b => .bool b
  | .int z => if isNumber z then .num (.fin z) else .big z
  | .text s => .text (js s)
  | .bytes b => .buffer b
  | .indef xs => .indef (ofValues xs)
  | .array xs => .array (ofValues xs)
  | .map kvs => .map (ofEntries kvs)

def ofValues : List Cbor → List Item
  | [] => []
  | x :: xs => ofValue x :: ofValues xs

def ofEntries : List (Cbor × Cbor) → List (Item × Item)
  | [] => []
  | p :: ps => ofEntry p :: ofEntries ps

def ofEntry : Cbor × Cbor → Item × Item
  | (k, v) => (ofValue k, ofValue v)

end

theorem encodeItems_ofValues {xs : List Cbor} (h : ∀ x ∈ xs, encodeItem (ofValue x) = encode x) :
    (ofValues xs).length = xs.length ∧ encodeItems (ofValues xs) = encodeAll xs := by
  induction xs with
  | nil => exact ⟨rfl, rfl⟩
  | cons x xs ih =>
      rw [List.forall_mem_cons] at h
      obtain ⟨hlen, hsame⟩ := ih h.2
      exact ⟨congrArg (· + 1) hlen, by rw [ofValues, encodeItems, encodeAll, h.1, hsame]⟩

theorem encodeEntries_ofEntries {kvs : List (Cbor × Cbor)}
    (h : ∀ p ∈ kvs, encodeItem (ofValue p.1) = encode p.1 ∧ encodeItem (ofValue p.2) = encode p.2) :
    (ofEntries kvs).length = kvs.length ∧ encodeEntries (ofEntries kvs) = encodePairs kvs := by
  induction kvs with
  | nil => exact ⟨rfl, rfl⟩
  | cons p kvs ih =>
      obtain ⟨k, v⟩ := p
      rw [List.forall_mem_cons] at h
      obtain ⟨hlen, hsame⟩ := ih h.2
      refine ⟨congrArg (· + 1) hlen, ?_⟩
      rw [ofEntries, ofEntry, encodeEntries, encodeEntry, encodePairs, encodePair, hsame, h.1.1,
        h.1.2]

/-- What `decode` returned is encoded as `encode` has it on values. -/
theorem encodeItem_ofValue (v : Cbor) : encodeItem (ofValue v) = encode v := by
  induction v using Cbor.induct with
  | null => rfl
  | bool b => cases b <;> rfl
  | int z =>
      rw [ofValue, encode]
      split
      · rename_i hz
        simp only [isNumber, Bool.and_eq_true, decide_eq_true_eq] at hz
        have hnum : ((z : ℚ)).num = z := Rat.num_intCast z
        have hden : ((z : ℚ)).den = 1 := Rat.den_intCast z
        rw [encodeItem, if_neg (by simp [hden]), hnum]
        split
        · rw [lengthHead, if_pos (by omega)]
        · rw [lengthHead, if_pos (by omega)]
      · rw [encodeItem]
  | text s =>
      have hbytes : toUtf8 (js s) = utf8Encode s.toList := by rw [toUtf8, js, scalars_utf16]
      rw [ofValue, encodeItem, encode, hbytes]
  | bytes b => rw [ofValue, encodeItem, encode]
  | array xs ih =>
      obtain ⟨hlen, hsame⟩ := encodeItems_ofValues ih
      rw [ofValue, encodeItem, encode, hlen, hsame]
  | map kvs ih =>
      obtain ⟨hlen, hsame⟩ := encodeEntries_ofEntries ih
      rw [ofValue, encodeItem, encode, hlen, hsame]
  | indef xs ih => rw [ofValue, encodeItem, encode, (encodeItems_ofValues ih).2]

end Item

open Item

/-- **Encoding and decoding are inverse.** A plain value comes back; bytes in deterministic form that
decode come back from their value; and from every bytes the decoder's loop ends. -/
theorem codec_inverse :
    (∀ v : Item, Plain v → depth v.value ≤ 32 → (encodeItem v).bind decode = .ok v.value) ∧
      (∀ (b : Bytes) (v : Cbor), Deterministic b → b.length ≤ maxBuffer → decode b = .ok v →
        encodeItem (ofValue v) = .ok b) ∧
      ∀ (left : Nat) (b : Bytes),
        ToBreak (decodeAt left) b (decodeToBreak (decodeAt left) (b.length + 1) b) := by
  refine ⟨fun v h hdepth => decode_encodeItem h hdepth, ?_, ?_⟩
  · intro b v hdet hlen hv
    rw [encodeItem_ofValue]
    exact encode_decode hdet hlen hv
  · intro left b
    exact toBreak (decodeAt_consumes left) (Nat.lt_succ_self _)

/-- `[2^60, "hi", {1: h'00'}]`, with the largest values that need each representation. -/
def sampleItem : Item :=
  .array [.big 1152921504606846976, .text (js "hi"), .map [(.num (.fin 1), .bstr [0])]]

theorem sampleItem_plain : Plain sampleItem := by
  refine .array ?_ (by decide)
  intro x hx
  simp only [List.mem_cons, List.not_mem_nil, or_false] at hx
  have hnum : (1 : ℚ) = ((1 : Int) : ℚ) := rfl
  rcases hx with rfl | rfl | rfl
  · exact .big (by decide) (by decide)
  · exact .text (by decide) (by decide)
  · refine .map ?_ ?_ (List.pairwise_singleton _ _) (by decide)
    · intro p hp
      rw [List.mem_singleton.mp hp, hnum]
      exact .num (by decide) (by decide)
    · intro p hp
      rw [List.mem_singleton.mp hp]
      exact .bstr (by decide)

/-- The round trips of `sampleItem` and of the bytes of `[-1, 24]`. -/
theorem sampleItem_inverse :
    (encodeItem sampleItem).bind decode = .ok sampleItem.value ∧
      encodeItem (ofValue (.array [.int (-1), .int 24])) = .ok [0x82, 0x20, 0x18, 0x18] := by
  have hone : Shortest 0 24 [0x18, 0x18] := by
    refine ⟨@HeadForm.wide 0 24 1 24 (by decide) (by decide), fun h' hform => ?_⟩
    cases hform with
    | direct hn => omega
    | @wide w ai hmem _ =>
        simp only [List.mem_cons, List.not_mem_nil, or_false, Prod.mk.injEq] at hmem
        rcases hmem with ⟨rfl, rfl⟩ | ⟨rfl, rfl⟩ | ⟨rfl, rfl⟩ | ⟨rfl, rfl⟩ <;> simp
  have hdet : Deterministic ([0x82] ++ [[0x20], [0x18, 0x18]].flatten) := by
    refine .array (shortest_direct (by decide)) ?_
    intro x hx
    simp only [List.mem_cons, List.not_mem_nil, or_false] at hx
    rcases hx with rfl | rfl
    · exact .nint (shortest_direct (n := 0) (by decide))
    · exact .uint hone
  exact ⟨codec_inverse.1 _ sampleItem_plain (by decide),
    codec_inverse.2.1 _ _ hdet (by decide) (by decide +kernel)⟩

/-- **A Number beyond the safe integers is not encoded**, where the BigInt of the same value is. -/
theorem unsafeNumber_refused :
    encodeItem (.num (.fin 9007199254740992)) =
        .error (.error "integer beyond 2^53, pass a BigInt") ∧
      (encodeItem (.big 9007199254740992)).bind decode = .ok (.int 9007199254740992) := by
  decide +kernel

end Cbor

end DtnCustody
