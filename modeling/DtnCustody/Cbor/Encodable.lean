/-
# DtnCustody.Cbor.Encodable — what was decoded can be encoded.

`encode` refuses two things: an integer beyond 64 bits, which no head carries, and a length beyond 2^53.
A decoded array or map is no longer than the bytes it was read from. A decoded string can be: a byte that
is no UTF-8 comes back as the three bytes of U+FFFD. So the bytes must be few enough, and 2^47 of them,
the most a process can address, are (`decode_encodes`).
-/
import Mathlib.Data.List.Induction
import DtnCustody.Cbor.Items

namespace DtnCustody

open Base Js

/-! ## The length of decoded text -/

namespace Base

theorem length_utf8First (b : Nat) : (utf8First b).1.length ≤ 1 := by
  unfold utf8First
  split_ifs <;> simp

theorem length_utf8Step (q : Utf8State) (b : Nat) : (utf8Step q b).1.length ≤ 2 := by
  cases q with
  | start => exact (length_utf8First b).trans (by decide)
  | owing owed lo hi cp =>
      have hfirst := length_utf8First b
      by_cases h : lo ≤ b ∧ b ≤ hi
      · cases owed <;> simp [utf8Step, h]
      · simp only [utf8Step, if_neg h, List.length_cons]
        omega

theorem length_utf8Run (q : Utf8State) (bs : Bytes) :
    (utf8Run q bs).length ≤ 2 * bs.length + 1 := by
  induction bs generalizing q with
  | nil => cases q <;> simp [utf8Run]
  | cons b bs ih =>
      have hstep := length_utf8Step q b.toNat
      have hrest := ih (utf8Step q b.toNat).2
      rw [utf8Run_cons, List.length_append, List.length_cons]
      omega

theorem length_utf8Encode_le (cs : List Char) : (utf8Encode cs).length ≤ 4 * cs.length := by
  induction cs with
  | nil => exact Nat.zero_le _
  | cons c cs ih =>
      have hc : (String.utf8EncodeChar c).length ≤ 4 := by
        rw [String.length_utf8EncodeChar]
        exact c.utf8Size_le_four
      rw [utf8Encode, List.flatMap_cons, List.length_append, List.length_cons]
      rw [utf8Encode] at ih
      omega

theorem beNat_lt (bs : Bytes) : beNat bs < 256 ^ bs.length := by
  induction bs using List.reverseRecOn with
  | nil => simp [beNat]
  | append_singleton bs b ih =>
      have hb := b.toNat_lt
      rw [List.length_append, List.length_singleton, Nat.pow_succ]
      simp only [beNat, List.foldl_append, List.foldl_cons, List.foldl_nil] at ih ⊢
      omega

end Base

namespace Cbor

/-- The bytes that a process can address. -/
def addressable : Nat := 140737488355328

/-- What `item` reads off few enough bytes can be encoded, and takes something off them. -/
def Rewrites (item : Bytes → Outcome (Cbor × Bytes)) : Prop :=
  ∀ bs v r, item bs = .ok (v, r) → bs.length ≤ addressable →
    (∃ b, encode v = .ok b) ∧ r.length < bs.length

theorem readArg_lt {ai : Nat} {bs r : Bytes} {n : Nat} (h : readArg ai bs = .ok (some n, r)) :
    n < 18446744073709551616 := by
  rcases readArg_cases h with ⟨_, hn⟩ | ⟨b, _, hlen, hn⟩
  · have := hn n rfl
    omega
  · rw [Option.some.inj hn]
    calc beNat b < 256 ^ b.length := beNat_lt b
      _ ≤ 256 ^ 8 := Nat.pow_le_pow_right (by decide) hlen
      _ = 18446744073709551616 := by norm_num

/-! ## Sequences -/

section Sequences

variable {item : Bytes → Outcome (Cbor × Bytes)} (hitem : Rewrites item)
include hitem

theorem decodeItems_rewrites {n : Nat} :
    ∀ {bs r : Bytes} {vs : List Cbor}, decodeItems item n bs = .ok (vs, r) →
      bs.length ≤ addressable →
        (∃ b, encodeAll vs = .ok b) ∧ vs.length + r.length ≤ bs.length := by
  induction n with
  | zero =>
      intro bs r vs h _
      cases h
      exact ⟨⟨[], rfl⟩, by simp⟩
  | succ n ih =>
      intro bs r vs h hlen
      obtain ⟨⟨v, r₁⟩, hv, h⟩ := Outcome.bind_eq_ok.mp h
      obtain ⟨⟨rest, r₂⟩, hrest, h⟩ := Outcome.bind_eq_ok.mp h
      cases h
      obtain ⟨⟨b, hb⟩, hlt⟩ := hitem _ _ _ hv hlen
      obtain ⟨⟨bs', hbs⟩, hle⟩ := ih hrest (by omega)
      refine ⟨⟨b ++ bs', by rw [encodeAll, hb, hbs]; rfl⟩, ?_⟩
      rw [List.length_cons]
      omega

theorem decodeToBreak_rewrites {fuel : Nat} :
    ∀ {bs r : Bytes} {vs : List Cbor}, decodeToBreak item fuel bs = .ok (vs, r) →
      bs.length ≤ addressable → (∃ b, encodeAll vs = .ok b) ∧ r.length ≤ bs.length := by
  induction fuel with
  | zero => intro bs r vs h; cases h
  | succ fuel ih =>
      intro bs r vs h hlen
      cases bs with
      | nil => cases h
      | cons b bs =>
        rw [decodeToBreak] at h
        split at h
        · cases h
          exact ⟨⟨[], rfl⟩, by simp⟩
        · obtain ⟨⟨v, r₁⟩, hv, h⟩ := Outcome.bind_eq_ok.mp h
          obtain ⟨⟨rest, r₂⟩, hrest, h⟩ := Outcome.bind_eq_ok.mp h
          cases h
          obtain ⟨⟨c, hc⟩, hlt⟩ := hitem _ _ _ hv hlen
          obtain ⟨⟨cs, hcs⟩, hle⟩ := ih hrest (by omega)
          exact ⟨⟨c ++ cs, by rw [encodeAll, hc, hcs]; rfl⟩, by omega⟩

omit hitem in
theorem encodes_mapSet {kvs : List (Cbor × Cbor)} {k v : Cbor}
    (h : ∀ p ∈ kvs, (∃ b, encode p.1 = .ok b) ∧ ∃ b, encode p.2 = .ok b)
    (hk : ∃ b, encode k = .ok b) (hv : ∃ b, encode v = .ok b) :
    ∀ p ∈ mapSet kvs k v, (∃ b, encode p.1 = .ok b) ∧ ∃ b, encode p.2 = .ok b := by
  intro p hp
  rcases mem_mapSet hp with hp | rfl
  · exact h p hp
  · exact ⟨hk, hv⟩

theorem decodeEntries_rewrites {n : Nat} :
    ∀ {m kvs : List (Cbor × Cbor)} {bs r : Bytes}, decodeEntries item n m bs = .ok (kvs, r) →
      bs.length ≤ addressable →
      (∀ p ∈ m, (∃ b, encode p.1 = .ok b) ∧ ∃ b, encode p.2 = .ok b) →
        (∀ p ∈ kvs, (∃ b, encode p.1 = .ok b) ∧ ∃ b, encode p.2 = .ok b) ∧
          kvs.length + r.length ≤ m.length + bs.length := by
  induction n with
  | zero =>
      intro m kvs bs r h _ hm
      cases h
      exact ⟨hm, le_refl _⟩
  | succ n ih =>
      intro m kvs bs r h hlen hm
      obtain ⟨⟨k, r₁⟩, hk, h⟩ := Outcome.bind_eq_ok.mp h
      obtain ⟨⟨v, r₂⟩, hv, h⟩ := Outcome.bind_eq_ok.mp h
      obtain ⟨hke, hlt⟩ := hitem _ _ _ hk hlen
      obtain ⟨hve, hlt'⟩ := hitem _ _ _ hv (by omega)
      obtain ⟨hkvs, hle⟩ := ih h (by omega) (encodes_mapSet hm hke hve)
      have hset := length_mapSet_le m k v
      exact ⟨hkvs, by omega⟩

end Sequences

theorem exists_encodePairs_of {kvs : List (Cbor × Cbor)}
    (h : ∀ p ∈ kvs, (∃ b, encode p.1 = .ok b) ∧ ∃ b, encode p.2 = .ok b) :
    ∃ b, encodePairs kvs = .ok b := by
  induction kvs with
  | nil => exact ⟨[], rfl⟩
  | cons p kvs ih =>
      obtain ⟨k, v⟩ := p
      rw [List.forall_mem_cons] at h
      obtain ⟨⟨⟨b, hb⟩, ⟨c, hc⟩⟩, hrest⟩ := h
      obtain ⟨d, hd⟩ := ih hrest
      dsimp only at hb hc
      exact ⟨(b ++ c) ++ d, by rw [encodePairs, encodePair, hb, hc, hd]; rfl⟩

/-! ## One item -/

theorem BodyOf.rewrites {item : Bytes → Outcome (Cbor × Bytes)} (hitem : Rewrites item)
    {arg : Option Nat} {bs r : Bytes} {v : Cbor}
    (hnum : ∀ n, arg = some n → n < 18446744073709551616) (hlen : bs.length ≤ addressable)
    (h : BodyOf item arg bs v r) : (∃ b, encode v = .ok b) ∧ r.length ≤ bs.length := by
  have hmax : addressable * 8 + 4 ≤ maxBuffer := by decide
  have fits : ∀ {m n : Nat}, n ≤ addressable * 8 + 4 → ∃ b, lengthHead m n = .ok b :=
    fun hn => Item.exists_lengthHead (hn.trans hmax)
  cases h with
  | @uint n harg =>
      obtain ⟨b, hb⟩ := @Item.exists_head 0 n (hnum n harg)
      refine ⟨⟨b, ?_⟩, le_refl _⟩
      rw [encode, if_neg (by omega), Int.toNat_natCast, hb]
  | @nint n harg =>
      obtain ⟨b, hb⟩ := @Item.exists_head 1 n (hnum n harg)
      refine ⟨⟨b, ?_⟩, le_refl _⟩
      rw [encode, if_pos (by omega), show (-1 - (-1 - (n : Int))).toNat = n by omega, hb]
  | bool b => cases b <;> exact ⟨⟨_, rfl⟩, le_refl _⟩
  | null => exact ⟨⟨_, rfl⟩, le_refl _⟩
  | @bytes _ s r hs =>
      obtain ⟨rfl, _⟩ := take_ok hs
      rw [List.length_append] at hlen ⊢
      obtain ⟨b, hb⟩ := fits (m := 2) (n := s.length) (by omega)
      exact ⟨⟨b ++ s, by rw [encode, hb]; rfl⟩, by omega⟩
  | @text _ s r hs =>
      obtain ⟨rfl, _⟩ := take_ok hs
      rw [List.length_append] at hlen ⊢
      have hchars := length_utf8Run .start s
      have hbytes := length_utf8Encode_le (utf8Decode s)
      rw [utf8Decode] at hbytes
      obtain ⟨b, hb⟩ := fits (m := 3) (n := (utf8Encode (utf8Decode s)).length) (by rw [utf8Decode]; omega)
      refine ⟨⟨b ++ utf8Encode (utf8Decode s), ?_⟩, by omega⟩
      rw [encode, String.toList_ofList, hb]
      rfl
  | indef hxs =>
      obtain ⟨⟨b, hb⟩, hle⟩ := decodeToBreak_rewrites hitem hxs hlen
      exact ⟨⟨0x9f :: b ++ [0xff], by rw [encode, hb]; rfl⟩, hle⟩
  | @array _ xs r hxs =>
      obtain ⟨⟨b, hb⟩, hle⟩ := decodeItems_rewrites hitem hxs hlen
      obtain ⟨c, hc⟩ := fits (m := 4) (n := xs.length) (by omega)
      exact ⟨⟨c ++ b, by rw [encode, hb, hc]; rfl⟩, by omega⟩
  | @map _ kvs r hkvs =>
      obtain ⟨hall, hle⟩ := decodeEntries_rewrites hitem hkvs hlen (fun _ hp => by cases hp)
      rw [List.length_nil] at hle
      obtain ⟨b, hb⟩ := exists_encodePairs_of hall
      obtain ⟨c, hc⟩ := fits (m := 5) (n := kvs.length) (by omega)
      exact ⟨⟨c ++ b, by rw [encode, hb, hc]; rfl⟩, by omega⟩

theorem decodeAt_rewrites : ∀ left, Rewrites (decodeAt left) := by
  intro left
  induction left with
  | zero => intro bs v r h; cases h
  | succ left ih =>
      intro bs v r h hlen
      obtain ⟨ib, hs, ai, arg, body, rfl, harg, hbody⟩ := bodyOf_decodeAt h
      rw [List.length_cons, List.length_append] at hlen ⊢
      obtain ⟨henc, hle⟩ := hbody.rewrites ih (fun n hn => readArg_lt (hn ▸ harg)) (by omega)
      exact ⟨henc, by omega⟩

/-! ## Byte strings inside an item -/

theorem decodeItems_bytes_le {left n : Nat} :
    ∀ {bs r c : Bytes} {vs : List Cbor}, decodeItems (decodeAt left) n bs = .ok (vs, r) →
      .bytes c ∈ vs → c.length ≤ bs.length := by
  induction n with
  | zero => intro bs r c vs h hc; cases h; cases hc
  | succ n ih =>
      intro bs r c vs h hc
      obtain ⟨⟨v, r₁⟩, hv, h⟩ := Outcome.bind_eq_ok.mp h
      obtain ⟨⟨rest, r₂⟩, hrest, h⟩ := Outcome.bind_eq_ok.mp h
      cases h
      rcases List.mem_cons.mp hc with rfl | hc
      · obtain ⟨hs, rfl⟩ := decodeAt_bytes hv
        simp only [List.length_append]
        omega
      · obtain ⟨raw, _, rfl⟩ := decodeAt_consumes left _ _ _ hv
        have hle := ih hrest hc
        rw [List.length_append]
        omega

/-- A byte string in an array is no longer than what the array was read from. -/
theorem decodeAt_array_bytes_le {left : Nat} {bs r c : Bytes} {xs : List Cbor}
    (h : decodeAt left bs = .ok (.array xs, r)) (hc : .bytes c ∈ xs) : c.length ≤ bs.length := by
  obtain ⟨_, _, hs, body, rfl, hxs⟩ := decodeAt_array h
  have hlen := decodeItems_bytes_le hxs hc
  rw [List.length_append]
  omega

/-- **What was decoded can be encoded.** -/
theorem decode_encodes {buf : Bytes} {v : Cbor} (hlen : buf.length ≤ addressable)
    (h : decode buf = .ok v) : ∃ b, encode v = .ok b := by
  obtain ⟨⟨w, rest⟩, hw, h⟩ := Outcome.bind_eq_ok.mp h
  simp only at h
  split at h
  · cases h
    exact (decodeAt_rewrites _ _ _ _ hw hlen).1
  · cases h

end Cbor

end DtnCustody
