/-
# DtnCustody.Cbor.Consume — what an item takes off the bytes it is read from.

Every item read takes at least one byte off the front (`decodeAt_consumes`), so the loop over an
indefinite array ends by itself: its fuel counts nothing (`decodeToBreak_fuel`). What an item can be
is said once, by the body behind its head (`bodyOf_decodeAt`). A byte string stands in the input as it
is, and the last element of a definite array ends the array (`decodeAt_array_last`). With more bytes behind, what was
read and what was refused stay the same, unless it was refused for want of bytes (`decodeAt_stable`).
-/
import DtnCustody.Base.Cuts
import DtnCustody.Cbor.Codec

namespace DtnCustody

open Base Js

namespace Cbor

/-- Whatever `item` reads, it takes off the front, and not nothing. -/
def Consumes (item : Bytes → Outcome (Cbor × Bytes)) : Prop :=
  ∀ bs v r, item bs = .ok (v, r) → ∃ raw, raw ≠ [] ∧ bs = raw ++ r

theorem take_ok {n : Nat} {bs b r : Bytes} (h : take n bs = .ok (b, r)) :
    bs = b ++ r ∧ b.length = n := by
  unfold take at h
  split at h
  · cases h
  · rename_i hlen
    cases h
    exact ⟨(List.take_append_drop n bs).symm, by rw [List.length_take]; omega⟩

/-- An argument behind the head is the number that its bytes write. -/
theorem wideArg_ok {w : Nat} {bs r : Bytes} {arg : Option Nat} (hw : w ≤ 8)
    (h : (do let (b, r) ← take w bs; return (some (beNat b), r) : Outcome (Option Nat × Bytes)) =
      .ok (arg, r)) :
    ∃ b, bs = b ++ r ∧ b.length ≤ 8 ∧ arg = some (beNat b) := by
  obtain ⟨⟨b, r'⟩, hb, h⟩ := Outcome.bind_eq_ok.mp h
  cases h
  exact ⟨b, (take_ok hb).1, (take_ok hb).2.trans_le hw, rfl⟩

/-- An argument is in the head, or in up to 8 bytes behind it. -/
theorem readArg_cases {ai : Nat} {bs r : Bytes} {arg : Option Nat} (h : readArg ai bs = .ok (arg, r)) :
    (bs = r ∧ ∀ n, arg = some n → n < 24) ∨ ∃ b, bs = b ++ r ∧ b.length ≤ 8 ∧ arg = some (beNat b) := by
  unfold readArg at h
  split_ifs at h with hai
  · cases h
    left
    refine ⟨rfl, fun n hn => ?_⟩
    cases hn
    exact hai
  · exact Or.inr (wideArg_ok (by decide) h)
  · exact Or.inr (wideArg_ok (by decide) h)
  · exact Or.inr (wideArg_ok (by decide) h)
  · exact Or.inr (wideArg_ok (by decide) h)
  · cases h
    left
    refine ⟨rfl, fun n hn => ?_⟩
    cases hn

theorem readArg_ok {ai : Nat} {bs r : Bytes} {arg : Option Nat} (h : readArg ai bs = .ok (arg, r)) :
    ∃ hs, bs = hs ++ r := by
  rcases readArg_cases h with ⟨hbs, _⟩ | ⟨b, hbs, _⟩
  · exact ⟨[], hbs⟩
  · exact ⟨b, hbs⟩

/-! ## Bodies -/

/-- What a body read from `bs` is, by the argument of its head, with `r` left over. -/
inductive BodyOf (item : Bytes → Outcome (Cbor × Bytes)) (arg : Option Nat) (bs : Bytes) :
    Cbor → Bytes → Prop
  | uint {n : Nat} (harg : arg = some n) : BodyOf item arg bs (.int n) bs
  | nint {n : Nat} (harg : arg = some n) : BodyOf item arg bs (.int (-1 - n)) bs
  | bool (b : Bool) : BodyOf item arg bs (.bool b) bs
  | null : BodyOf item arg bs .null bs
  | bytes {n : Nat} {s r : Bytes} (hs : take n bs = .ok (s, r)) : BodyOf item arg bs (.bytes s) r
  | text {n : Nat} {s r : Bytes} (hs : take n bs = .ok (s, r)) :
      BodyOf item arg bs (.text (String.ofList (utf8Decode s))) r
  | indef {xs : List Cbor} {r : Bytes} (hxs : decodeToBreak item (bs.length + 1) bs = .ok (xs, r)) :
      BodyOf item arg bs (.indef xs) r
  | array {n : Nat} {xs : List Cbor} {r : Bytes} (hxs : decodeItems item n bs = .ok (xs, r)) :
      BodyOf item arg bs (.array xs) r
  | map {n : Nat} {kvs : List (Cbor × Cbor)} {r : Bytes}
      (hkvs : decodeEntries item n [] bs = .ok (kvs, r)) : BodyOf item arg bs (.map kvs) r

theorem bodyOf_decodeBody {item : Bytes → Outcome (Cbor × Bytes)} {major ai : Nat} {arg : Option Nat}
    {bs r : Bytes} {v : Cbor} (h : decodeBody item major ai arg bs = .ok (v, r)) :
    BodyOf item arg bs v r := by
  unfold decodeBody at h
  split at h
  · split at h
    · cases h
    · cases h; exact .uint rfl
  · split at h
    · cases h
    · cases h; exact .nint rfl
  · obtain ⟨n, _, h⟩ := Outcome.bind_eq_ok.mp h
    obtain ⟨⟨s, r₂⟩, hs, h⟩ := Outcome.bind_eq_ok.mp h
    cases h
    exact .bytes hs
  · obtain ⟨n, _, h⟩ := Outcome.bind_eq_ok.mp h
    obtain ⟨⟨s, r₂⟩, hs, h⟩ := Outcome.bind_eq_ok.mp h
    cases h
    exact .text hs
  · split at h
    · obtain ⟨⟨xs, r₂⟩, hxs, h⟩ := Outcome.bind_eq_ok.mp h
      cases h
      exact .indef hxs
    · obtain ⟨⟨xs, r₂⟩, hxs, h⟩ := Outcome.bind_eq_ok.mp h
      cases h
      exact .array hxs
  · split at h
    · cases h
    · obtain ⟨⟨kvs, r₂⟩, hkvs, h⟩ := Outcome.bind_eq_ok.mp h
      cases h
      exact .map hkvs
  · split_ifs at h
    · cases h; exact .bool _
    · cases h; exact .bool _
    · cases h; exact .null
  · cases h

/-- An item is a head, its first byte and an argument, and a body. -/
theorem bodyOf_decodeAt {left : Nat} {bs r : Bytes} {v : Cbor}
    (h : decodeAt (left + 1) bs = .ok (v, r)) :
    ∃ ib hs ai arg body, bs = ib :: (hs ++ body) ∧ readArg ai (hs ++ body) = .ok (arg, body) ∧
      BodyOf (decodeAt left) arg body v r := by
  cases bs with
  | nil => cases h
  | cons ib bs =>
    obtain ⟨⟨arg, body⟩, harg, hbody⟩ := Outcome.bind_eq_ok.mp h
    obtain ⟨hs, rfl⟩ := readArg_ok harg
    exact ⟨ib, hs, _, arg, body, rfl, harg, bodyOf_decodeBody hbody⟩

/-! ## Sequences -/

section Sequences

variable {item : Bytes → Outcome (Cbor × Bytes)} (hitem : Consumes item)
include hitem

theorem decodeItems_consumes {n : Nat} :
    ∀ {bs r : Bytes} {vs : List Cbor}, decodeItems item n bs = .ok (vs, r) → ∃ raw, bs = raw ++ r := by
  induction n with
  | zero => intro bs r vs h; cases h; exact ⟨[], rfl⟩
  | succ n ih =>
      intro bs r vs h
      obtain ⟨⟨v, r₁⟩, hv, h⟩ := Outcome.bind_eq_ok.mp h
      obtain ⟨⟨rest, r₂⟩, hrest, h⟩ := Outcome.bind_eq_ok.mp h
      cases h
      obtain ⟨raw₁, _, rfl⟩ := hitem _ _ _ hv
      obtain ⟨raw₂, rfl⟩ := ih hrest
      exact ⟨raw₁ ++ raw₂, (List.append_assoc _ _ _).symm⟩

theorem decodeToBreak_consumes {fuel : Nat} :
    ∀ {bs r : Bytes} {vs : List Cbor}, decodeToBreak item fuel bs = .ok (vs, r) →
      ∃ raw, bs = raw ++ r := by
  induction fuel with
  | zero => intro bs r vs h; cases h
  | succ fuel ih =>
      intro bs r vs h
      cases bs with
      | nil => cases h
      | cons b bs =>
        rw [decodeToBreak] at h
        split at h
        · cases h; exact ⟨[b], rfl⟩
        · obtain ⟨⟨v, r₁⟩, hv, h⟩ := Outcome.bind_eq_ok.mp h
          obtain ⟨⟨rest, r₂⟩, hrest, h⟩ := Outcome.bind_eq_ok.mp h
          cases h
          obtain ⟨raw₁, _, hraw₁⟩ := hitem _ _ _ hv
          obtain ⟨raw₂, rfl⟩ := ih hrest
          exact ⟨raw₁ ++ raw₂, by rw [hraw₁, List.append_assoc]⟩

/-- **The loop ends by itself**: any fuel above the number of bytes gives the same answer. -/
theorem decodeToBreak_fuel {fuel : Nat} :
    ∀ {bs : Bytes}, bs.length < fuel →
      decodeToBreak item fuel bs = decodeToBreak item (bs.length + 1) bs := by
  induction fuel using Nat.strong_induction_on with
  | _ fuel ih =>
      intro bs hlen
      obtain ⟨fuel, rfl⟩ := Nat.exists_eq_succ_of_ne_zero (Nat.ne_of_gt (Nat.zero_lt_of_lt hlen))
      cases bs with
      | nil => rfl
      | cons b bs =>
        rw [decodeToBreak, decodeToBreak]
        split
        · rfl
        · cases hv : item (b :: bs) with
          | error e => rfl
          | ok p =>
              obtain ⟨v, r⟩ := p
              obtain ⟨raw, hne, hraw⟩ := hitem _ v r hv
              have hpos : 0 < raw.length := List.length_pos_iff.mpr hne
              have hshort : r.length < (b :: bs).length := by
                rw [hraw, List.length_append]
                omega
              have hfuel : r.length < fuel := by omega
              simp only [Outcome.ok_bind]
              rw [ih fuel (by omega) hfuel, ih (b :: bs).length hlen hshort]

theorem decodeEntries_consumes {n : Nat} :
    ∀ {m kvs : List (Cbor × Cbor)} {bs r : Bytes}, decodeEntries item n m bs = .ok (kvs, r) →
      ∃ raw, bs = raw ++ r := by
  induction n with
  | zero => intro m kvs bs r h; cases h; exact ⟨[], rfl⟩
  | succ n ih =>
      intro m kvs bs r h
      obtain ⟨⟨k, r₁⟩, hk, h⟩ := Outcome.bind_eq_ok.mp h
      obtain ⟨⟨v, r₂⟩, hv, h⟩ := Outcome.bind_eq_ok.mp h
      obtain ⟨raw₁, _, hraw₁⟩ := hitem _ _ _ hk
      obtain ⟨raw₂, _, hraw₂⟩ := hitem _ _ _ hv
      obtain ⟨raw₃, hraw₃⟩ := ih h
      exact ⟨raw₁ ++ (raw₂ ++ raw₃), by rw [hraw₁, hraw₂, hraw₃, List.append_assoc, List.append_assoc]⟩

theorem BodyOf.consumes {arg : Option Nat} {bs r : Bytes} {v : Cbor} (h : BodyOf item arg bs v r) :
    ∃ raw, bs = raw ++ r := by
  cases h with
  | uint | nint | bool | null => exact ⟨[], rfl⟩
  | bytes hs => exact ⟨_, (take_ok hs).1⟩
  | text hs => exact ⟨_, (take_ok hs).1⟩
  | indef hxs => exact decodeToBreak_consumes hitem hxs
  | array hxs => exact decodeItems_consumes hitem hxs
  | map hkvs => exact decodeEntries_consumes hitem hkvs

end Sequences

/-- **Every item takes at least one byte.** -/
theorem decodeAt_consumes : ∀ left, Consumes (decodeAt left) := by
  intro left
  induction left with
  | zero => intro bs v r h; cases h
  | succ left ih =>
      intro bs v r h
      obtain ⟨ib, hs, _, _, body, rfl, _, hbody⟩ := bodyOf_decodeAt h
      obtain ⟨raw, rfl⟩ := hbody.consumes ih
      exact ⟨ib :: (hs ++ raw), List.cons_ne_nil _ _, by rw [List.cons_append, List.append_assoc]⟩

/-! ## Byte strings -/

/-- A byte string read is the bytes in front of the rest. -/
theorem decodeAt_bytes {left : Nat} {bs c r : Bytes} (h : decodeAt left bs = .ok (.bytes c, r)) :
    ∃ hs, bs = hs ++ (c ++ r) := by
  cases left with
  | zero => cases h
  | succ left =>
    obtain ⟨ib, hs, _, _, body, rfl, _, hbody⟩ := bodyOf_decodeAt h
    cases hbody with
    | bytes hc => exact ⟨ib :: hs, by rw [(take_ok hc).1, List.cons_append]⟩

/-- The elements of an array stand behind its head. -/
theorem decodeAt_array {left : Nat} {bs r : Bytes} {xs : List Cbor}
    (h : decodeAt left bs = .ok (.array xs, r)) :
    ∃ left' n hs body, bs = hs ++ body ∧ decodeItems (decodeAt left') n body = .ok (xs, r) := by
  cases left with
  | zero => cases h
  | succ left =>
    obtain ⟨ib, hs, _, _, body, hbs, _, hbody⟩ := bodyOf_decodeAt h
    cases hbody with
    | array hxs => exact ⟨left, _, ib :: hs, body, hbs, hxs⟩

/-- A byte string at the end of a sequence ends it. -/
theorem decodeItems_last {left n : Nat} :
    ∀ {bs r c : Bytes} {vs : List Cbor}, decodeItems (decodeAt left) n bs = .ok (vs, r) →
      vs.getLast? = some (.bytes c) → ∃ raw, bs = raw ++ (c ++ r) := by
  induction n with
  | zero => intro bs r c vs h hlast; cases h; cases hlast
  | succ n ih =>
      intro bs r c vs h hlast
      obtain ⟨⟨v, r₁⟩, hv, h⟩ := Outcome.bind_eq_ok.mp h
      obtain ⟨⟨rest, r₂⟩, hrest, h⟩ := Outcome.bind_eq_ok.mp h
      cases h
      cases n with
      | zero =>
          cases hrest
          cases hlast
          exact decodeAt_bytes hv
      | succ n =>
          obtain ⟨raw₁, _, rfl⟩ := decodeAt_consumes left _ _ _ hv
          cases rest with
          | nil =>
              obtain ⟨p, _, hrest⟩ := Outcome.bind_eq_ok.mp hrest
              obtain ⟨q, _, hrest⟩ := Outcome.bind_eq_ok.mp hrest
              cases hrest
          | cons w rest =>
              rw [List.getLast?_cons_cons] at hlast
              obtain ⟨raw₂, rfl⟩ := ih hrest hlast
              exact ⟨raw₁ ++ raw₂, (List.append_assoc _ _ _).symm⟩

/-- **The last element of an array ends it**, when it is a byte string. -/
theorem decodeAt_array_last {left : Nat} {bs r c : Bytes} {xs : List Cbor}
    (h : decodeAt left bs = .ok (.array xs, r)) (hlast : xs.getLast? = some (.bytes c)) :
    ∃ raw, bs = raw ++ (c ++ r) := by
  obtain ⟨_, _, hs, _, rfl, hxs⟩ := decodeAt_array h
  obtain ⟨raw, rfl⟩ := decodeItems_last hxs hlast
  exact ⟨hs ++ raw, (List.append_assoc _ _ _).symm⟩

/-! ## More bytes behind, and more levels -/

/-- What is thrown where the bytes end too soon. -/
def short : Err := .error "CBOR truncated"

section Extends

-- either there may be more bytes, and the first reading may be short of them, or there are no more
variable {e : Err} {c : Bytes} (hc : e = short ∨ c = [])
include hc

theorem take_extends (n : Nat) (bs : Bytes) : Extends e c (take n bs) (take n (bs ++ c)) := by
  rcases hc with rfl | rfl
  · unfold take
    by_cases h : bs.length < n
    · rw [if_pos h]
      exact Or.inl rfl
    · have hlen : ¬ (bs ++ c).length < n := by
        rw [List.length_append]
        omega
      rw [if_neg h, if_neg hlen, List.take_append_of_le_length (by omega), List.drop_append_of_le_length (by omega)]
      exact Extends.ok _ _
  · rw [List.append_nil]
    exact Extends.refl _

theorem wideArg_extends (n : Nat) (bs : Bytes) :
    Extends e c (do let (b, r) ← take n bs; return (some (beNat b), r) : Outcome (Option Nat × Bytes))
      (do let (b, r) ← take n (bs ++ c); return (some (beNat b), r)) :=
  (take_extends hc n bs).bind fun _ _ => Extends.ok _ _

theorem readArg_extends (ai : Nat) (bs : Bytes) : Extends e c (readArg ai bs) (readArg ai (bs ++ c)) := by
  unfold readArg
  refine Extends.ite (Extends.ok _ _) ?_
  refine Extends.ite (wideArg_extends hc 1 bs) ?_
  refine Extends.ite (wideArg_extends hc 2 bs) ?_
  refine Extends.ite (wideArg_extends hc 4 bs) ?_
  refine Extends.ite (wideArg_extends hc 8 bs) ?_
  exact Extends.ite (Extends.ok _ _) (Extends.error _)

variable {item item' : Bytes → Outcome (Cbor × Bytes)} (hitem : ∀ bs, Extends e c (item bs) (item' (bs ++ c)))

omit hc in
include hitem in
theorem decodeItems_extends (n : Nat) :
    ∀ bs, Extends e c (decodeItems item n bs) (decodeItems item' n (bs ++ c)) := by
  induction n with
  | zero => exact fun bs => Extends.ok _ _
  | succ n ih =>
      intro bs
      refine (hitem bs).bind fun v r => ?_
      exact (ih r).bind fun _ _ => Extends.ok _ _

omit hc in
include hitem in
theorem decodeEntries_extends (n : Nat) :
    ∀ m bs, Extends e c (decodeEntries item n m bs) (decodeEntries item' n m (bs ++ c)) := by
  induction n with
  | zero => exact fun m bs => Extends.ok _ _
  | succ n ih =>
      intro m bs
      refine (hitem bs).bind fun k r => ?_
      exact (hitem r).bind fun v r' => ih _ r'

include hitem

/-- Here more fuel comes with more bytes. -/
theorem decodeToBreak_extends (fuel : Nat) :
    ∀ bs, Extends e c (decodeToBreak item fuel bs) (decodeToBreak item' (fuel + c.length) (bs ++ c)) := by
  induction fuel with
  | zero =>
      intro bs
      rcases hc with rfl | rfl
      · exact Or.inl rfl
      · exact Extends.error _
  | succ fuel ih =>
      intro bs
      cases bs with
      | nil =>
          rcases hc with rfl | rfl
          · exact Or.inl rfl
          · exact Extends.error _
      | cons b bs =>
          rw [Nat.add_right_comm, List.cons_append, decodeToBreak, decodeToBreak]
          refine Extends.ite (Extends.ok _ _) ?_
          refine (hitem (b :: bs)).bind fun v r => ?_
          exact (ih r).bind fun _ _ => Extends.ok _ _

theorem decodeBody_extends (major ai : Nat) (arg : Option Nat) (bs : Bytes) :
    Extends e c (decodeBody item major ai arg bs) (decodeBody item' major ai arg (bs ++ c)) := by
  unfold decodeBody
  split
  · split
    · exact Extends.error _
    · exact Extends.ok _ _
  · split
    · exact Extends.error _
    · exact Extends.ok _ _
  · refine Extends.bind_const _ fun n => ?_
    exact (take_extends hc n bs).bind fun _ _ => Extends.ok _ _
  · refine Extends.bind_const _ fun n => ?_
    exact (take_extends hc n bs).bind fun _ _ => Extends.ok _ _
  · split
    · rw [List.length_append, Nat.add_right_comm]
      exact (decodeToBreak_extends hc hitem _ bs).bind fun _ _ => Extends.ok _ _
    · exact (decodeItems_extends hitem _ bs).bind fun _ _ => Extends.ok _ _
  · split
    · exact Extends.error _
    · exact (decodeEntries_extends hitem _ _ bs).bind fun _ _ => Extends.ok _ _
  · refine Extends.ite (Extends.ok _ _) ?_
    refine Extends.ite (Extends.ok _ _) ?_
    exact Extends.ite (Extends.ok _ _) (Extends.error _)
  · exact Extends.error _

end Extends

/-- **More bytes change neither what was read nor what was refused**, unless it was for want of bytes. -/
theorem decodeAt_stable : ∀ left, Stable short (decodeAt left) := by
  intro left
  induction left with
  | zero => exact fun bs c => Extends.error _
  | succ left ih =>
      intro bs c
      cases bs with
      | nil => exact Or.inl rfl
      | cons ib bs =>
          rw [List.cons_append, decodeAt, decodeAt]
          refine (readArg_extends (Or.inl rfl) _ bs).bind fun arg r => ?_
          exact decodeBody_extends (Or.inl rfl) (fun bs => ih bs c) _ _ arg r

end Cbor

end DtnCustody
