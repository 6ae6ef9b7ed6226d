/-
# DtnCustody.Cbor.RoundTrip — `decode ∘ encode` is the identity on the values `decode` can return.

`decodeAt_encode` reads an encoding back in front of any further bytes, for every value whose maps
have distinct keys and whose nesting fits the levels left. Two consequences carry the signature
arguments: `encode_inj` (equal bytes come from equal values, at any depth) and `encode_append_inj`
(the same with different bytes behind). In the other direction `decode_decoded` says that whatever
`decode` returns is such a value, and `decode_encode_iff` that nesting is all that can stand in the
way.
-/
import DtnCustody.Cbor.Consume

namespace DtnCustody

open Base Js

namespace Cbor

/-! ## Depth and distinct keys -/

mutual

/-- Levels of nesting below a value. -/
def depth : Cbor → Nat
  | .array xs => depthAll xs
  | .indef xs => depthAll xs
  | .map kvs => depthPairs kvs
  | _ => 0

def depthAll : List Cbor → Nat
  | [] => 0
  | x :: xs => max (depth x + 1) (depthAll xs)

def depthPairs : List (Cbor × Cbor) → Nat
  | [] => 0
  | p :: ps => max (depthPair p) (depthPairs ps)

def depthPair : Cbor × Cbor → Nat
  | (k, v) => max (depth k + 1) (depth v + 1)

end

theorem depth_lt_of_mem {xs : List Cbor} {x : Cbor} (h : x ∈ xs) : depth x < depthAll xs := by
  induction xs with
  | nil => cases h
  | cons y ys ih =>
      rw [depthAll]
      rcases List.mem_cons.mp h with rfl | h
      · omega
      · have := ih h; omega

theorem depth_lt_of_mem_pairs {kvs : List (Cbor × Cbor)} {p : Cbor × Cbor} (h : p ∈ kvs) :
    depth p.1 < depthPairs kvs ∧ depth p.2 < depthPairs kvs := by
  induction kvs with
  | nil => cases h
  | cons q qs ih =>
      obtain ⟨k, v⟩ := q
      rw [depthPairs, depthPair]
      rcases List.mem_cons.mp h with rfl | h
      · constructor <;> simp only <;> omega
      · have := ih h; omega

theorem depthAll_le {xs : List Cbor} {n : Nat} (h : ∀ x ∈ xs, depth x < n) : depthAll xs ≤ n := by
  induction xs with
  | nil => exact Nat.zero_le _
  | cons x xs ih =>
      rw [List.forall_mem_cons] at h
      have := ih h.2
      rw [depthAll]
      omega

theorem depthPairs_le {kvs : List (Cbor × Cbor)} {n : Nat}
    (h : ∀ p ∈ kvs, depth p.1 < n ∧ depth p.2 < n) : depthPairs kvs ≤ n := by
  induction kvs with
  | nil => exact Nat.zero_le _
  | cons q qs ih =>
      obtain ⟨k, v⟩ := q
      rw [List.forall_mem_cons] at h
      have := ih h.2
      simp only at h
      rw [depthPairs, depthPair]
      omega

/-- Every map in the value has keys that a decoder keeps apart. -/
inductive Distinct : Cbor → Prop
  | null : Distinct .null
  | bool (b : Bool) : Distinct (.bool b)
  | int (z : Int) : Distinct (.int z)
  | text (s : String) : Distinct (.text s)
  | bytes (b : Bytes) : Distinct (.bytes b)
  | array {xs : List Cbor} : (∀ x ∈ xs, Distinct x) → Distinct (.array xs)
  | indef {xs : List Cbor} : (∀ x ∈ xs, Distinct x) → Distinct (.indef xs)
  | map {kvs : List (Cbor × Cbor)} : DistinctKeys kvs → (∀ p ∈ kvs, Distinct p.1) →
      (∀ p ∈ kvs, Distinct p.2) → Distinct (.map kvs)

/-! ## Heads -/

theorem take_append {b rest : Bytes} {n : Nat} (h : b.length = n) :
    take n (b ++ rest) = .ok (b, rest) := by
  subst h
  simp [take]

/-- What a head looks like: its initial byte carries the major type and an additional information
below 28 that reads the argument back. -/
theorem head_cases {major n : Nat} {h : Bytes} (hh : head major n = .ok h) :
    ∃ ai hs, ai < 28 ∧ h = UInt8.ofNat (major * 32 + ai) :: hs ∧
      ∀ rest, readArg ai (hs ++ rest) = .ok (some n, rest) := by
  -- the argument follows in `w` bytes when `ai` is 24 to 27
  have wide : ∀ w, n < 256 ^ w → ∀ rest,
      take w (beBytes w n ++ rest) = .ok (beBytes w n, rest) ∧ beNat (beBytes w n) = n :=
    fun w hw rest => ⟨take_append (length_beBytes w n), beNat_beBytes hw⟩
  unfold head at hh
  split_ifs at hh with h1 h2 h3 h4 h5 <;> cases hh
  · exact ⟨n, [], by omega, rfl, fun rest => by simp [readArg, h1]⟩
  · refine ⟨24, _, by omega, rfl, fun rest => ?_⟩
    obtain ⟨ht, hn⟩ := wide 1 (by omega) rest
    simp [readArg, ht, hn]
  · refine ⟨25, _, by omega, rfl, fun rest => ?_⟩
    obtain ⟨ht, hn⟩ := wide 2 (by omega) rest
    simp [readArg, ht, hn]
  · refine ⟨26, _, by omega, rfl, fun rest => ?_⟩
    obtain ⟨ht, hn⟩ := wide 4 (by omega) rest
    simp [readArg, ht, hn]
  · refine ⟨27, _, by omega, rfl, fun rest => ?_⟩
    obtain ⟨ht, hn⟩ := wide 8 (by omega) rest
    simp [readArg, ht, hn]

/-- Decoding past a head goes on with the body. -/
theorem decodeAt_head {major n left : Nat} {h : Bytes} (hm : major < 8)
    (hh : head major n = .ok h) (rest : Bytes) :
    ∃ ai, decodeAt (left + 1) (h ++ rest) = decodeBody (decodeAt left) major ai (some n) rest := by
  obtain ⟨ai, hs, hai, rfl, hread⟩ := head_cases hh
  refine ⟨ai, ?_⟩
  have hib : (UInt8.ofNat (major * 32 + ai)).toNat = major * 32 + ai :=
    UInt8.toNat_ofNat_of_lt' (show _ < 256 by omega)
  rw [List.cons_append, decodeAt, hib, show (major * 32 + ai) % 32 = ai by omega,
    show (major * 32 + ai) / 32 = major by omega, hread rest, Outcome.ok_bind]

theorem lengthHead_ok {major n : Nat} {h : Bytes} (hh : lengthHead major n = .ok h) :
    n ≤ 9007199254740991 ∧ head major n = .ok h := by
  unfold lengthHead at hh
  split at hh
  · exact ⟨‹_›, hh⟩
  · cases hh

theorem head_ne_break {major n : Nat} {h : Bytes} (hm : major < 8) (hh : head major n = .ok h) :
    ∃ ib hs, h = ib :: hs ∧ ib ≠ 0xff := by
  obtain ⟨ai, hs, hai, rfl, -⟩ := head_cases hh
  refine ⟨_, hs, rfl, fun hff => ?_⟩
  have := congrArg UInt8.toNat hff
  rw [UInt8.toNat_ofNat_of_lt' (show _ < 256 by omega)] at this
  have h255 : (0xff : UInt8).toNat = 255 := rfl
  omega

/-- No encoding starts with the break byte. -/
theorem encode_ne_break {v : Cbor} {b : Bytes} (h : encode v = .ok b) :
    ∃ ib bs, b = ib :: bs ∧ ib ≠ 0xff := by
  have prefixed : ∀ {major n : Nat} {hd tl : Bytes}, major < 8 → lengthHead major n = .ok hd →
      ∃ ib bs, hd ++ tl = ib :: bs ∧ ib ≠ 0xff := by
    intro major n hd tl hm hh
    obtain ⟨ib, hs, rfl, hne⟩ := head_ne_break hm (lengthHead_ok hh).2
    exact ⟨ib, hs ++ tl, rfl, hne⟩
  cases v with
  | null => cases h; exact ⟨_, _, rfl, by decide⟩
  | bool t => cases t <;> cases h <;> exact ⟨_, _, rfl, by decide⟩
  | int z =>
      rw [encode] at h
      split at h
      · exact head_ne_break (by omega) h
      · exact head_ne_break (by omega) h
  | text s =>
      obtain ⟨hd, hh, h⟩ := Outcome.bind_eq_ok.mp h
      cases h; exact prefixed (by omega) hh
  | bytes s =>
      obtain ⟨hd, hh, h⟩ := Outcome.bind_eq_ok.mp h
      cases h; exact prefixed (by omega) hh
  | indef xs =>
      obtain ⟨tl, _, h⟩ := Outcome.bind_eq_ok.mp h
      cases h; exact ⟨_, _, rfl, by decide⟩
  | array xs =>
      obtain ⟨hd, hh, h⟩ := Outcome.bind_eq_ok.mp h
      obtain ⟨tl, _, h⟩ := Outcome.bind_eq_ok.mp h
      cases h; exact prefixed (by omega) hh
  | map kvs =>
      obtain ⟨hd, hh, h⟩ := Outcome.bind_eq_ok.mp h
      obtain ⟨tl, _, h⟩ := Outcome.bind_eq_ok.mp h
      cases h; exact prefixed (by omega) hh

/-! ## Sequences of items -/

/-- `item` reads every encoding of `x` back, whatever follows. -/
def Reads (item : Bytes → Outcome (Cbor × Bytes)) (x : Cbor) : Prop :=
  ∀ b rest, encode x = .ok b → item (b ++ rest) = .ok (x, rest)

theorem decodeItems_encodeAll {item : Bytes → Outcome (Cbor × Bytes)} {xs : List Cbor}
    (hread : ∀ x ∈ xs, Reads item x) :
    ∀ {b : Bytes}, encodeAll xs = .ok b → ∀ rest,
      decodeItems item xs.length (b ++ rest) = .ok (xs, rest) := by
  induction xs with
  | nil => intro b h rest; cases h; rfl
  | cons x xs ih =>
      intro b h rest
      rw [List.forall_mem_cons] at hread
      obtain ⟨b₁, h₁, h⟩ := Outcome.bind_eq_ok.mp h
      obtain ⟨b₂, h₂, h⟩ := Outcome.bind_eq_ok.mp h
      cases h
      rw [List.append_assoc, List.length_cons, decodeItems, hread.1 b₁ _ h₁, Outcome.ok_bind]
      simp only [ih hread.2 h₂ rest, Outcome.ok_bind, Outcome.pure_eq_ok]

theorem length_le_encodeAll {xs : List Cbor} :
    ∀ {b : Bytes}, encodeAll xs = .ok b → xs.length ≤ b.length := by
  induction xs with
  | nil => intro b _; exact Nat.zero_le _
  | cons x xs ih =>
      intro b h
      obtain ⟨b₁, h₁, h⟩ := Outcome.bind_eq_ok.mp h
      obtain ⟨b₂, h₂, h⟩ := Outcome.bind_eq_ok.mp h
      cases h
      obtain ⟨ib, bs, rfl, -⟩ := encode_ne_break h₁
      have := ih h₂
      simp only [List.length_cons, List.length_append]
      omega

theorem decodeToBreak_encodeAll {item : Bytes → Outcome (Cbor × Bytes)} {xs : List Cbor}
    (hread : ∀ x ∈ xs, Reads item x) :
    ∀ {b : Bytes} {fuel : Nat}, encodeAll xs = .ok b → xs.length < fuel → ∀ rest,
      decodeToBreak item fuel (b ++ 0xff :: rest) = .ok (xs, rest) := by
  induction xs with
  | nil =>
      intro b fuel h hfuel rest
      cases h
      obtain ⟨k, rfl⟩ := Nat.exists_eq_succ_of_ne_zero (Nat.ne_of_gt hfuel)
      simp [decodeToBreak]
  | cons x xs ih =>
      intro b fuel h hfuel rest
      rw [List.forall_mem_cons] at hread
      obtain ⟨b₁, h₁, h⟩ := Outcome.bind_eq_ok.mp h
      obtain ⟨b₂, h₂, h⟩ := Outcome.bind_eq_ok.mp h
      cases h
      obtain ⟨k, rfl⟩ := Nat.exists_eq_succ_of_ne_zero (Nat.ne_of_gt (Nat.zero_lt_of_lt hfuel))
      have hitem := hread.1 b₁ (b₂ ++ 0xff :: rest) h₁
      have htail := ih hread.2 h₂ (Nat.lt_of_succ_lt_succ hfuel) rest
      obtain ⟨ib, bs, rfl, hne⟩ := encode_ne_break h₁
      rw [List.append_assoc, List.cons_append, decodeToBreak, if_neg hne, ← List.cons_append,
        hitem, Outcome.ok_bind]
      simp only [htail, Outcome.ok_bind, Outcome.pure_eq_ok]

theorem decodeEntries_encodePairs {item : Bytes → Outcome (Cbor × Bytes)}
    {kvs : List (Cbor × Cbor)} (hread : ∀ p ∈ kvs, Reads item p.1 ∧ Reads item p.2) :
    ∀ {m : List (Cbor × Cbor)} {b : Bytes}, DistinctKeys (m ++ kvs) →
      encodePairs kvs = .ok b → ∀ rest,
      decodeEntries item kvs.length m (b ++ rest) = .ok (m ++ kvs, rest) := by
  induction kvs with
  | nil => intro m b _ h rest; cases h; simp [decodeEntries]
  | cons p kvs ih =>
      obtain ⟨k, v⟩ := p
      intro m b hdist h rest
      rw [List.forall_mem_cons] at hread
      obtain ⟨b₁, h₁, h⟩ := Outcome.bind_eq_ok.mp h
      obtain ⟨b₂, h₂, h⟩ := Outcome.bind_eq_ok.mp h
      obtain ⟨bk, hk, h₁⟩ := Outcome.bind_eq_ok.mp h₁
      obtain ⟨bv, hv, h₁⟩ := Outcome.bind_eq_ok.mp h₁
      cases h
      cases h₁
      have hnew : mapSet m k v = m ++ [(k, v)] :=
        mapSet_eq_append fun q hq =>
          (List.pairwise_append.mp hdist).2.2 q hq (k, v) List.mem_cons_self
      have hdist' : DistinctKeys ((m ++ [(k, v)]) ++ kvs) := by
        rwa [List.append_assoc, List.singleton_append]
      rw [List.length_cons, decodeEntries, List.append_assoc, List.append_assoc,
        hread.1.1 bk _ hk, Outcome.ok_bind]
      simp only [hread.1.2 bv _ hv, Outcome.ok_bind, hnew]
      rw [ih hread.2 hdist' h₂ rest, List.append_assoc, List.singleton_append]

/-! ## The round trip -/

/-- **Reading an encoding back**, in front of any further bytes and from any level that leaves
room for the value's nesting. -/
theorem decodeAt_encode {v : Cbor} :
    Distinct v → ∀ {left : Nat}, depth v < left → Reads (decodeAt left) v := by
  induction v using induct with
  | null =>
      intro _ left hl b rest h
      cases h
      obtain ⟨k, rfl⟩ := Nat.exists_eq_succ_of_ne_zero (Nat.ne_of_gt (Nat.zero_lt_of_lt hl))
      rfl
  | bool t =>
      intro _ left hl b rest h
      obtain ⟨k, rfl⟩ := Nat.exists_eq_succ_of_ne_zero (Nat.ne_of_gt (Nat.zero_lt_of_lt hl))
      cases t <;> cases h <;> rfl
  | int z =>
      intro _ left hl b rest h
      obtain ⟨k, rfl⟩ := Nat.exists_eq_succ_of_ne_zero (Nat.ne_of_gt (Nat.zero_lt_of_lt hl))
      rw [encode] at h
      split at h
      · obtain ⟨ai, hai⟩ := @decodeAt_head _ _ k _ (by omega) h rest
        rw [hai, decodeBody, show (-1 - (((-1 - z).toNat : Nat) : Int)) = z by omega]
      · obtain ⟨ai, hai⟩ := @decodeAt_head _ _ k _ (by omega) h rest
        rw [hai, decodeBody, show ((z.toNat : Nat) : Int) = z by omega]
  | text s =>
      intro _ left hl b rest h
      obtain ⟨k, rfl⟩ := Nat.exists_eq_succ_of_ne_zero (Nat.ne_of_gt (Nat.zero_lt_of_lt hl))
      obtain ⟨hd, hh, h⟩ := Outcome.bind_eq_ok.mp h
      cases h
      obtain ⟨hlen, hh⟩ := lengthHead_ok hh
      obtain ⟨ai, hai⟩ := @decodeAt_head _ _ k _ (by omega) hh (utf8Encode s.toList ++ rest)
      rw [List.append_assoc, hai]
      simp [decodeBody, readLength, hlen, take_append rfl, utf8Decode_utf8Encode]
  | bytes s =>
      intro _ left hl b rest h
      obtain ⟨k, rfl⟩ := Nat.exists_eq_succ_of_ne_zero (Nat.ne_of_gt (Nat.zero_lt_of_lt hl))
      obtain ⟨hd, hh, h⟩ := Outcome.bind_eq_ok.mp h
      cases h
      obtain ⟨hlen, hh⟩ := lengthHead_ok hh
      obtain ⟨ai, hai⟩ := @decodeAt_head _ _ k _ (by omega) hh (s ++ rest)
      rw [List.append_assoc, hai]
      simp [decodeBody, readLength, hlen, take_append rfl]
  | array xs ih =>
      intro hd left hl b rest h
      obtain ⟨k, rfl⟩ := Nat.exists_eq_succ_of_ne_zero (Nat.ne_of_gt (Nat.zero_lt_of_lt hl))
      cases hd with
      | array hxs =>
        obtain ⟨hb, hh, h⟩ := Outcome.bind_eq_ok.mp h
        obtain ⟨tb, ht, h⟩ := Outcome.bind_eq_ok.mp h
        cases h
        rw [depth] at hl
        have hread : ∀ x ∈ xs, Reads (decodeAt k) x := fun x hx =>
          ih x hx (hxs x hx) (lt_of_lt_of_le (depth_lt_of_mem hx) (Nat.le_of_lt_succ hl))
        obtain ⟨ai, hai⟩ := @decodeAt_head _ _ k _ (by omega) (lengthHead_ok hh).2 (tb ++ rest)
        rw [List.append_assoc, hai, decodeBody]
        simp only [decodeItems_encodeAll hread ht rest, Outcome.ok_bind, Outcome.pure_eq_ok]
  | map kvs ih =>
      intro hd left hl b rest h
      obtain ⟨k, rfl⟩ := Nat.exists_eq_succ_of_ne_zero (Nat.ne_of_gt (Nat.zero_lt_of_lt hl))
      cases hd with
      | map hkeys hks hvs =>
        obtain ⟨hb, hh, h⟩ := Outcome.bind_eq_ok.mp h
        obtain ⟨tb, ht, h⟩ := Outcome.bind_eq_ok.mp h
        cases h
        rw [depth] at hl
        have hread : ∀ p ∈ kvs, Reads (decodeAt k) p.1 ∧ Reads (decodeAt k) p.2 := fun p hp =>
          have hdp := depth_lt_of_mem_pairs hp
          ⟨(ih p hp).1 (hks p hp) (lt_of_lt_of_le hdp.1 (Nat.le_of_lt_succ hl)),
            (ih p hp).2 (hvs p hp) (lt_of_lt_of_le hdp.2 (Nat.le_of_lt_succ hl))⟩
        obtain ⟨ai, hai⟩ := @decodeAt_head _ _ k _ (by omega) (lengthHead_ok hh).2 (tb ++ rest)
        have hentries := decodeEntries_encodePairs hread (m := []) hkeys ht rest
        rw [List.append_assoc, hai, decodeBody]
        simp only [hentries, List.nil_append, Outcome.ok_bind, Outcome.pure_eq_ok]
  | indef xs ih =>
      intro hd left hl b rest h
      obtain ⟨k, rfl⟩ := Nat.exists_eq_succ_of_ne_zero (Nat.ne_of_gt (Nat.zero_lt_of_lt hl))
      cases hd with
      | indef hxs =>
        obtain ⟨tb, ht, h⟩ := Outcome.bind_eq_ok.mp h
        cases h
        rw [depth] at hl
        have hread : ∀ x ∈ xs, Reads (decodeAt k) x := fun x hx =>
          ih x hx (hxs x hx) (lt_of_lt_of_le (depth_lt_of_mem hx) (Nat.le_of_lt_succ hl))
        have hfuel : xs.length < (tb ++ 0xff :: rest).length + 1 := by
          have := length_le_encodeAll ht
          simp only [List.length_append, List.length_cons]
          omega
        have hitems := decodeToBreak_encodeAll hread ht hfuel rest
        have hhead : decodeAt (k + 1) (0x9f :: (tb ++ 0xff :: rest))
            = decodeBody (decodeAt k) 4 31 none (tb ++ 0xff :: rest) := rfl
        rw [List.cons_append, List.cons_append, List.append_assoc, List.singleton_append, hhead,
          decodeBody]
        simp only [hitems, Outcome.ok_bind, Outcome.pure_eq_ok]

/-- Equal bytes, with anything behind them, come from equal values. -/
theorem encode_append_inj {v w : Cbor} (hv : Distinct v) (hw : Distinct w) {b c r s : Bytes}
    (hb : encode v = .ok b) (hc : encode w = .ok c) (h : b ++ r = c ++ s) : v = w ∧ r = s := by
  have h₁ := decodeAt_encode hv (show depth v < max (depth v) (depth w) + 1 by omega) b r hb
  have h₂ := decodeAt_encode hw (show depth w < max (depth v) (depth w) + 1 by omega) c s hc
  rw [h, h₂] at h₁
  simp only [Except.ok.injEq, Prod.mk.injEq] at h₁
  exact ⟨h₁.1.symm, h₁.2.symm⟩

theorem encode_inj {v w : Cbor} (hv : Distinct v) (hw : Distinct w) {b : Bytes}
    (hb : encode v = .ok b) (hc : encode w = .ok b) : v = w :=
  (encode_append_inj (r := []) (s := []) hv hw hb hc rfl).1

/-- `decode(encode(v)) = v` for values nested no deeper than the decoder allows. -/
theorem decode_encode {v : Cbor} (hv : Distinct v) (hd : depth v < maxLevels) {b : Bytes}
    (hb : encode v = .ok b) : decode b = .ok v := by
  have h := decodeAt_encode hv hd b [] hb
  rw [List.append_nil] at h
  simp [decode, h]

/-! ## What `decode` can return -/

/-- A value `decodeAt` can return with `left` levels allowed. -/
def Decoded (left : Nat) (v : Cbor) : Prop := Distinct v ∧ depth v < left

theorem decodeItems_decoded {left : Nat} {item : Bytes → Outcome (Cbor × Bytes)}
    (hitem : ∀ bs v r, item bs = .ok (v, r) → Decoded left v) :
    ∀ (n : Nat) (bs : Bytes) (xs : List Cbor) (r : Bytes),
      decodeItems item n bs = .ok (xs, r) → ∀ x ∈ xs, Decoded left x := by
  intro n
  induction n with
  | zero => intro bs xs r h x hx; cases h; cases hx
  | succ n ih =>
      intro bs xs r h x hx
      obtain ⟨⟨v, r₁⟩, hv, h⟩ := Outcome.bind_eq_ok.mp h
      obtain ⟨⟨vs, r₂⟩, hvs, h⟩ := Outcome.bind_eq_ok.mp h
      cases h
      rcases List.mem_cons.mp hx with rfl | hx
      · exact hitem bs x r₁ hv
      · exact ih r₁ vs _ hvs x hx

theorem decodeToBreak_decoded {left : Nat} {item : Bytes → Outcome (Cbor × Bytes)}
    (hitem : ∀ bs v r, item bs = .ok (v, r) → Decoded left v) :
    ∀ (fuel : Nat) (bs : Bytes) (xs : List Cbor) (r : Bytes),
      decodeToBreak item fuel bs = .ok (xs, r) → ∀ x ∈ xs, Decoded left x := by
  intro fuel
  induction fuel with
  | zero => intro bs xs r h; cases h
  | succ fuel ih =>
      intro bs xs r h x hx
      cases bs with
      | nil => cases h
      | cons b bs =>
        rw [decodeToBreak] at h
        split at h
        · cases h; cases hx
        · obtain ⟨⟨v, r₁⟩, hv, h⟩ := Outcome.bind_eq_ok.mp h
          obtain ⟨⟨vs, r₂⟩, hvs, h⟩ := Outcome.bind_eq_ok.mp h
          cases h
          rcases List.mem_cons.mp hx with rfl | hx
          · exact hitem _ x r₁ hv
          · exact ih r₁ vs _ hvs x hx

theorem decodeEntries_decoded {left : Nat} {item : Bytes → Outcome (Cbor × Bytes)}
    (hitem : ∀ bs v r, item bs = .ok (v, r) → Decoded left v) :
    ∀ (n : Nat) (m : List (Cbor × Cbor)) (bs : Bytes) (kvs : List (Cbor × Cbor)) (r : Bytes),
      DistinctKeys m → (∀ p ∈ m, Decoded left p.1 ∧ Decoded left p.2) →
      decodeEntries item n m bs = .ok (kvs, r) →
      DistinctKeys kvs ∧ ∀ p ∈ kvs, Decoded left p.1 ∧ Decoded left p.2 := by
  intro n
  induction n with
  | zero => intro m bs kvs r hd hm h; cases h; exact ⟨hd, hm⟩
  | succ n ih =>
      intro m bs kvs r hd hm h
      obtain ⟨⟨k, r₁⟩, hk, h⟩ := Outcome.bind_eq_ok.mp h
      obtain ⟨⟨v, r₂⟩, hv, h⟩ := Outcome.bind_eq_ok.mp h
      refine ih (mapSet m k v) r₂ kvs r (distinctKeys_mapSet hd) (fun p hp => ?_) h
      rcases mem_mapSet hp with hp | rfl
      · exact hm p hp
      · exact ⟨hitem _ _ _ hk, hitem _ _ _ hv⟩

/-- Everything `decodeAt` returns has distinct map keys and fits the levels it was given. -/
theorem decodeAt_decoded :
    ∀ {left : Nat} {bs : Bytes} {v : Cbor} {r : Bytes},
      decodeAt left bs = .ok (v, r) → Decoded left v := by
  intro left
  induction left with
  | zero => intro bs v r h; cases h
  | succ left ih =>
      intro bs v r h
      obtain ⟨_, _, _, _, _, _, _, hbody⟩ := bodyOf_decodeAt h
      have hitem : ∀ bs v r, decodeAt left bs = .ok (v, r) → Decoded left v :=
        fun _ _ _ h => ih h
      have scalar : ∀ {v : Cbor}, Distinct v → depth v = 0 → Decoded (left + 1) v :=
        fun hd h0 => ⟨hd, by omega⟩
      cases hbody with
      | uint => exact scalar (.int _) rfl
      | nint => exact scalar (.int _) rfl
      | bool => exact scalar (.bool _) rfl
      | null => exact scalar .null rfl
      | bytes => exact scalar (.bytes _) rfl
      | text => exact scalar (.text _) rfl
      | indef hxs =>
          have hall := decodeToBreak_decoded hitem _ _ _ _ hxs
          exact ⟨.indef fun x hx => (hall x hx).1,
            Nat.lt_succ_of_le (depthAll_le fun x hx => (hall x hx).2)⟩
      | array hxs =>
          have hall := decodeItems_decoded hitem _ _ _ _ hxs
          exact ⟨.array fun x hx => (hall x hx).1,
            Nat.lt_succ_of_le (depthAll_le fun x hx => (hall x hx).2)⟩
      | map hkvs =>
          obtain ⟨hkeys, hall⟩ := decodeEntries_decoded hitem _ _ _ _ _ List.Pairwise.nil
            (by simp) hkvs
          exact ⟨.map hkeys (fun p hp => (hall p hp).1.1) (fun p hp => (hall p hp).2.1),
            Nat.lt_succ_of_le (depthPairs_le fun p hp => ⟨(hall p hp).1.2, (hall p hp).2.2⟩)⟩

theorem decode_decoded {buf : Bytes} {v : Cbor} (h : decode buf = .ok v) : Decoded maxLevels v := by
  obtain ⟨⟨w, rest⟩, hw, h⟩ := Outcome.bind_eq_ok.mp h
  simp only at h
  split at h
  · cases h; exact decodeAt_decoded hw
  · cases h

/-! ## More levels read no less -/

/-- Whatever `item` reads, `item'` reads the same. -/
def Extends (item item' : Bytes → Outcome (Cbor × Bytes)) : Prop :=
  ∀ bs r, item bs = .ok r → item' bs = .ok r

theorem decodeItems_mono {item item' : Bytes → Outcome (Cbor × Bytes)} (h : Extends item item')
    {n : Nat} : ∀ {bs r}, decodeItems item n bs = .ok r → decodeItems item' n bs = .ok r := by
  induction n with
  | zero => intro bs r hr; exact hr
  | succ n ih =>
      intro bs r hr
      obtain ⟨⟨v, r₁⟩, hv, hr⟩ := Outcome.bind_eq_ok.mp hr
      obtain ⟨⟨vs, r₂⟩, hvs, hr⟩ := Outcome.bind_eq_ok.mp hr
      exact Outcome.bind_eq_ok.mpr ⟨_, h _ _ hv, Outcome.bind_eq_ok.mpr ⟨_, ih hvs, hr⟩⟩

theorem decodeToBreak_mono {item item' : Bytes → Outcome (Cbor × Bytes)} (h : Extends item item')
    {fuel : Nat} : ∀ {bs r}, decodeToBreak item fuel bs = .ok r →
      decodeToBreak item' fuel bs = .ok r := by
  induction fuel with
  | zero => intro bs r hr; cases hr
  | succ fuel ih =>
      intro bs r hr
      cases bs with
      | nil => cases hr
      | cons b bs =>
        unfold decodeToBreak at hr ⊢
        split at hr
        · rename_i hb
          rw [if_pos hb]
          exact hr
        · rename_i hb
          rw [if_neg hb]
          obtain ⟨⟨v, r₁⟩, hv, hr⟩ := Outcome.bind_eq_ok.mp hr
          obtain ⟨⟨vs, r₂⟩, hvs, hr⟩ := Outcome.bind_eq_ok.mp hr
          exact Outcome.bind_eq_ok.mpr ⟨_, h _ _ hv, Outcome.bind_eq_ok.mpr ⟨_, ih hvs, hr⟩⟩

theorem decodeEntries_mono {item item' : Bytes → Outcome (Cbor × Bytes)} (h : Extends item item')
    {n : Nat} : ∀ {m bs r}, decodeEntries item n m bs = .ok r →
      decodeEntries item' n m bs = .ok r := by
  induction n with
  | zero => intro m bs r hr; exact hr
  | succ n ih =>
      intro m bs r hr
      obtain ⟨⟨k, r₁⟩, hk, hr⟩ := Outcome.bind_eq_ok.mp hr
      obtain ⟨⟨v, r₂⟩, hv, hr⟩ := Outcome.bind_eq_ok.mp hr
      exact Outcome.bind_eq_ok.mpr ⟨_, h _ _ hk, Outcome.bind_eq_ok.mpr ⟨_, h _ _ hv, ih hr⟩⟩

theorem decodeBody_mono {item item' : Bytes → Outcome (Cbor × Bytes)} (h : Extends item item')
    {major ai : Nat} {arg : Option Nat} {bs : Bytes} {r : Cbor × Bytes}
    (hr : decodeBody item major ai arg bs = .ok r) : decodeBody item' major ai arg bs = .ok r := by
  unfold decodeBody at hr ⊢
  split at hr
  · exact hr
  · exact hr
  · exact hr
  · exact hr
  · split at hr
    · obtain ⟨p, hp, hr⟩ := Outcome.bind_eq_ok.mp hr
      exact Outcome.bind_eq_ok.mpr ⟨p, decodeToBreak_mono h hp, hr⟩
    · obtain ⟨p, hp, hr⟩ := Outcome.bind_eq_ok.mp hr
      exact Outcome.bind_eq_ok.mpr ⟨p, decodeItems_mono h hp, hr⟩
  · split at hr
    · cases hr
    · obtain ⟨p, hp, hr⟩ := Outcome.bind_eq_ok.mp hr
      exact Outcome.bind_eq_ok.mpr ⟨p, decodeEntries_mono h hp, hr⟩
  · exact hr
  · cases hr

theorem decodeAt_succ : ∀ {left : Nat}, Extends (decodeAt left) (decodeAt (left + 1)) := by
  intro left
  induction left with
  | zero => intro bs r h; cases h
  | succ left ih =>
      intro bs r h
      cases bs with
      | nil => cases h
      | cons ib bs =>
        obtain ⟨p, hp, h⟩ := Outcome.bind_eq_ok.mp h
        exact Outcome.bind_eq_ok.mpr ⟨p, hp, decodeBody_mono ih h⟩

theorem decodeAt_mono {left left' : Nat} (h : left ≤ left') :
    Extends (decodeAt left) (decodeAt left') := by
  induction h with
  | refl => intro bs r h; exact h
  | step _ ih => intro bs r h; exact decodeAt_succ bs r (ih bs r h)

/-- What is read off the encoding of a value is that value, however deep it is nested. -/
theorem decodeAt_encode_eq {v w : Cbor} (hv : Distinct v) {left : Nat} {b rest r : Bytes}
    (hb : encode v = .ok b) (h : decodeAt left (b ++ rest) = .ok (w, r)) : w = v ∧ r = rest := by
  have h₁ := decodeAt_mono (Nat.le_max_left left (depth v + 1)) _ _ h
  have h₂ := decodeAt_encode hv (show depth v < max left (depth v + 1) by omega) b rest hb
  rw [h₁] at h₂
  simpa using h₂

theorem decode_encode_eq {v w : Cbor} (hv : Distinct v) {b : Bytes} (hb : encode v = .ok b)
    (hw : decode b = .ok w) : w = v := by
  obtain ⟨⟨w', rest⟩, hread, hw⟩ := Outcome.bind_eq_ok.mp hw
  simp only at hw
  split at hw
  · cases hw
    rw [← List.append_nil b] at hread
    exact (decodeAt_encode_eq hv hb hread).1
  · cases hw

/-- The values that come back are those nested no deeper than the decoder allows. -/
theorem decode_encode_iff {v : Cbor} (hv : Distinct v) {b : Bytes} (hb : encode v = .ok b) :
    decode b = .ok v ↔ depth v < maxLevels :=
  ⟨fun h => (decode_decoded h).2, fun h => decode_encode hv h hb⟩

end Cbor

end DtnCustody
