/-
# DtnCustody.Radio.Collected — a message comes out of its frames, once each time all of them are in.

Frames of many messages arrive in any order, with repeats, among other traffic. The reassembler holds of
each message exactly the frames that came since the message was last whole (`Held`, kept by every frame:
`held_add`). So it hands on a message when the last of these is in, and asks for the others
(`frames_collected`). Of a message of which nothing came, or nothing since it was whole, it asks for none:
it does not know how many there are (`nothing_missing`).
-/
import DtnCustody.Base.Pieces
import DtnCustody.Js.Sample
import DtnCustody.Radio.Frame
import Mathlib.Data.Finset.Card

namespace DtnCustody.Radio

open Base Js

/-! ## What is sent -/

/-- The frames that a message needs. -/
def frameCount (msg : Bytes) (mtu : Nat) : Nat :=
  max 1 ((msg.length + (mtu - header) - 1) / (mtu - header))

/-- A message with its type and the size of its frames, which it needs at most 255 of. -/
structure Sending where
  type : FrameType
  msg : Bytes
  mtu : Nat
  header_lt : header < mtu
  short : frameCount msg mtu ≤ 255
  deriving DecidableEq

namespace Sending

variable (N : Node) (s : Sending)

def count : Nat := frameCount s.msg s.mtu

/-- The key of the message in the reassembler. -/
def key : JsString := Hex.encode (messageId N s.msg)

/-- The data of one frame. -/
def piece (i : Nat) : Bytes := (s.msg.drop (i * (s.mtu - header))).take (s.mtu - header)

/-- One frame. -/
def frame (i : Nat) : Bytes :=
  frameAt s.type s.msg (messageId N s.msg) (s.mtu - header) s.count i

/-- The frames of the message, under any id. -/
theorem split_frames (id : Bytes) : split s.type s.msg s.mtu id =
    .ok ((List.range s.count).map (frameAt s.type s.msg id (s.mtu - header) s.count)) := by
  have hroom : ¬ s.mtu - header < 1 := by
    have h := s.header_lt
    omega
  have hshort : ¬ 255 < max 1 ((s.msg.length + (s.mtu - header) - 1) / (s.mtu - header)) :=
    Nat.not_lt.mpr s.short
  unfold split
  dsimp only
  rw [if_neg hroom, if_neg hshort]
  rfl

theorem split_eq :
    split s.type s.msg s.mtu (messageId N s.msg) = .ok ((List.range s.count).map (s.frame N)) :=
  s.split_frames _

/-- The pieces put together are the message. -/
theorem flatMap_piece : (List.range s.count).flatMap s.piece = s.msg := by
  have hroom : 0 < s.mtu - header := Nat.sub_pos_of_lt s.header_lt
  -- The last frame ends at or after the end of the message.
  have hceil : Pieces.slices s.msg (s.mtu - header) ≤ s.count := Nat.le_max_right 1 _
  exact Pieces.flatMap_slice ((Pieces.length_le_slices hroom).trans (Nat.mul_le_mul_right _ hceil))

end Sending

theorem frameType?_code (t : FrameType) : frameType? t.code = some t := by
  cases t <;> rfl

/-- A frame is read as it was written. -/
theorem parse_frameAt {type : FrameType} {msg id : Bytes} {room total i : Nat} (hid : id.length = 8)
    (hi : i < total) (htotal : total ≤ 255) :
    parse (frameAt type msg id room total i) =
      some { type, id := Hex.encode id, index := i, total, data := (msg.drop (i * room)).take room } := by
  match id, hid with
  | [a, b, c, d, e, f, g, h], _ =>
      have htype : (frameAt type msg [a, b, c, d, e, f, g, h] room total i).getD 2 0 = type.code := rfl
      have hindex : ((frameAt type msg [a, b, c, d, e, f, g, h] room total i).getD 11 0).toNat = i :=
        UInt8.toNat_ofNat_of_lt' (by simp only [UInt8.size]; omega)
      have hcount : ((frameAt type msg [a, b, c, d, e, f, g, h] room total i).getD 12 0).toNat = total :=
        UInt8.toNat_ofNat_of_lt' (by simp only [UInt8.size]; omega)
      unfold parse
      rw [if_neg ?_]
      · dsimp only
        rw [htype, frameType?_code, hindex, hcount]
        dsimp only
        rw [if_neg (by omega)]
        rfl
      · rintro (hshort | hmagic | hversion)
        · simp only [frameAt, header, List.length_append, List.length_cons, List.length_nil] at hshort
          omega
        · exact hmagic rfl
        · exact hversion rfl

/-- `sha256` gives at least the eight bytes of an id. -/
def LongDigests (N : Node) : Prop := ∀ msg, 8 ≤ (N.sha256 msg).length

/-- What `parse` makes of a frame of the message. -/
def Sending.parsed (N : Node) (s : Sending) (i : Nat) : Frame where
  type := s.type
  id := s.key N
  index := i
  total := s.count
  data := s.piece i

theorem Sending.parse_frame {N : Node} (hN : LongDigests N) {s : Sending} {i : Nat} (hi : i < s.count) :
    parse (s.frame N i) = some (s.parsed N i) := by
  have hid : (messageId N s.msg).length = 8 := by
    rw [messageId, List.length_take]
    exact Nat.min_eq_left (hN s.msg)
  exact parse_frameAt hid hi s.short

/-! ## What arrives -/

/-- What comes over the air: a frame of a message, or anything. -/
inductive Packet where
  | frame (s : Sending) (i : Nat)
  | other (raw : Bytes)

def Packet.raw (N : Node) : Packet → Bytes
  | .frame s i => s.frame N i
  | .other raw => raw

/-- Frames of the messages, and traffic that `parse` rejects. -/
def Packet.Among (msgs : List Sending) : Packet → Prop
  | .frame s i => s ∈ msgs ∧ i < s.count
  | .other raw => parse raw = none

/-- The reassembler fed with what `parse` makes of a packet. -/
def Parts.receive (N : Node) (parts : Parts) (raw : Bytes) (now : Int) : Option Whole × Parts :=
  match parse raw with
  | none => (none, parts)
  | some p => parts.add N p now

/-- A new reassembler after some packets. -/
def Parts.after (N : Node) (front : List (Packet × Int)) : Parts :=
  front.foldl (fun parts p => (parts.receive N (p.1.raw N) p.2).2) JsMap.empty

/-! ## What is in of a message -/

/-- What is in of a message after one more packet: nothing again, once all of it is. -/
def hear (s : Sending) (got : Finset Nat) : Packet → Finset Nat
  | .frame s' i =>
      if s' = s then if insert i got = Finset.range s.count then ∅ else insert i got else got
  | .other _ => got

/-- The frames of a message that came since it was last whole. -/
def heard (s : Sending) (front : List (Packet × Int)) : Finset Nat :=
  front.foldl (fun got p => hear s got p.1) ∅

/-- The message that a packet completes. -/
def completed (front : List (Packet × Int)) : Packet → Option Sending
  | .frame s i => if insert i (heard s front) = Finset.range s.count then some s else none
  | .other _ => none

/-- What the reassembler answers for a whole message. -/
def Sending.whole (N : Node) (s : Sending) : Whole := .message s.type (s.key N) s.msg

/-- The reassembler holds exactly these frames of a message. -/
def Held (N : Node) (parts : Parts) (s : Sending) (got : Finset Nat) : Prop :=
  if got = ∅ then parts.get? (s.key N) = none
  else ∃ m, parts.get? (s.key N) = some m ∧ m.type = s.type ∧ m.total = s.count ∧
    ∀ i, m.got.get? i = if i ∈ got then some (s.piece i) else none

theorem Held.nil {N : Node} {parts : Parts} {s : Sending} (h : parts.get? (s.key N) = none) :
    Held N parts s ∅ := by
  rw [Held, if_pos rfl]
  exact h

theorem Held.cons {N : Node} {parts : Parts} {s : Sending} {got : Finset Nat} (hgot : got.Nonempty)
    {m : Partial} (hm : parts.get? (s.key N) = some m) (htype : m.type = s.type)
    (htotal : m.total = s.count)
    (hpieces : ∀ i, m.got.get? i = if i ∈ got then some (s.piece i) else none) :
    Held N parts s got := by
  rw [Held, if_neg hgot.ne_empty]
  exact ⟨m, hm, htype, htotal, hpieces⟩

/-- What the reassembler works on when a frame of the message comes. -/
theorem Held.current {N : Node} {parts : Parts} {s : Sending} {got : Finset Nat}
    (h : Held N parts s got) (now : Int) :
    ∃ m, (parts.get? (s.key N)).getD
        { type := s.type, total := s.count, got := JsMap.empty, last := now } = m ∧
      m.type = s.type ∧ m.total = s.count ∧
        ∀ i, m.got.get? i = if i ∈ got then some (s.piece i) else none := by
  rw [Held] at h
  split at h
  · next hnil =>
    subst hnil
    rw [h]
    exact ⟨_, rfl, rfl, rfl, fun i => rfl⟩
  · obtain ⟨m, hm, hall⟩ := h
    rw [hm]
    exact ⟨m, rfl, hall⟩

/-- Indices below the count are all of them, or fewer. -/
theorem card_lt_iff {got : Finset Nat} {n : Nat} (h : got ⊆ Finset.range n) :
    got.card < n ↔ got ≠ Finset.range n := by
  constructor
  · rintro hlt rfl
    rw [Finset.card_range] at hlt
    exact lt_irrefl n hlt
  · intro hne
    have hss := Finset.card_lt_card (Finset.ssubset_iff_subset_ne.mpr ⟨h, hne⟩)
    rwa [Finset.card_range] at hss

/-- All the pieces, joined in their order. -/
theorem joined_eq {m : Partial} {s : Sending} (htotal : m.total = s.count)
    (h : ∀ i, m.got.get? i = if i ∈ Finset.range s.count then some (s.piece i) else none) :
    m.joined = s.msg := by
  rw [Partial.joined, htotal, ← s.flatMap_piece]
  refine List.flatMap_congr fun i hi => ?_
  rw [h i, if_pos (Finset.mem_range.mpr (List.mem_range.mp hi))]
  rfl

/-! ## One frame more -/

/-- A frame of one message leaves the others as they are. -/
theorem get?_add_ne {N : Node} {parts : Parts} {p : Frame} {now : Int} {k : JsString} (h : k ≠ p.id) :
    (parts.add N p now).2.get? k = parts.get? k := by
  unfold Parts.add
  dsimp only
  split
  · exact JsMap.get?_set_ne parts h _
  · split
    · exact JsMap.get?_set_ne parts h _
    · exact JsMap.get?_delete_ne parts h

variable {N : Node} {s : Sending} {parts : Parts} {got : Finset Nat} {i : Nat}

/-- `add` where the frame agrees with what is in of its message. -/
theorem add_few {p : Frame} {now : Int} {m : Partial}
    (hcurrent : (parts.get? p.id).getD
      { type := p.type, total := p.total, got := JsMap.empty, last := now } = m)
    (htype : m.type = p.type) (htotal : m.total = p.total)
    (hfew : (m.got.set p.index p.data).size < p.total) :
    parts.add N p now =
      (none, parts.set p.id { m with got := m.got.set p.index p.data, last := now }) := by
  subst hcurrent
  unfold Parts.add
  dsimp only
  rw [if_neg (not_or.mpr ⟨not_not_intro htotal, not_not_intro htype⟩),
    if_pos (hfew.trans_eq htotal.symm)]

/-- … and is the last one, of a message that hashes to its id. -/
theorem add_last {p : Frame} {now : Int} {m : Partial}
    (hcurrent : (parts.get? p.id).getD
      { type := p.type, total := p.total, got := JsMap.empty, last := now } = m)
    (htype : m.type = p.type) (htotal : m.total = p.total)
    (hlast : ¬ (m.got.set p.index p.data).size < p.total) {msg : Bytes}
    (hmsg : { m with got := m.got.set p.index p.data, last := now }.joined = msg)
    (hid : Hex.encode (messageId N msg) = p.id) :
    parts.add N p now = (some (.message p.type p.id msg), parts.delete p.id) := by
  subst hcurrent hmsg
  unfold Parts.add
  dsimp only
  rw [if_neg (not_or.mpr ⟨not_not_intro htotal, not_not_intro htype⟩),
    if_neg fun hfew => hlast (hfew.trans_eq htotal), if_neg (not_not_intro hid), htype]

/-- What a frame of the message does: it is kept, or the message is whole. -/
theorem Held.add (hheld : Held N parts s got) (hsub : insert i got ⊆ Finset.range s.count) (now : Int) :
    let r := parts.add N (s.parsed N i) now
    Held N r.2 s (hear s got (.frame s i)) ∧
      r.1 = if insert i got = Finset.range s.count then some (s.whole N) else none := by
  obtain ⟨m, hcurrent, htype, htotal, hpieces⟩ := hheld.current now
  have hnew : Pieces.Holds (m.got.set i (s.piece i)) (insert i got) s.piece := Pieces.Holds.set hpieces i
  have hsize := hnew.size_eq
  dsimp only
  rw [hear, if_pos rfl]
  by_cases hall : insert i got = Finset.range s.count
  · have hlast : ¬ (m.got.set i (s.piece i)).size < s.count := by
      rw [hsize, hall, Finset.card_range]
      exact lt_irrefl _
    rw [hall] at hnew
    rw [add_last (p := s.parsed N i) hcurrent htype htotal hlast (joined_eq htotal hnew) rfl,
      if_pos hall, if_pos hall]
    exact ⟨Held.nil (JsMap.get?_delete_self parts _), rfl⟩
  · have hfew : (m.got.set i (s.piece i)).size < s.count := by
      rw [hsize]
      exact (card_lt_iff hsub).mpr hall
    rw [add_few (p := s.parsed N i) hcurrent htype htotal hfew, if_neg hall, if_neg hall]
    exact ⟨Held.cons (Finset.insert_nonempty i got) (JsMap.get?_set_self parts _ _) htype htotal hnew, rfl⟩

theorem heard_append (front : List (Packet × Int)) (p : Packet × Int) :
    heard s (front ++ [p]) = hear s (heard s front) p.1 := by
  rw [heard, List.foldl_append]
  rfl

theorem after_append (front : List (Packet × Int)) (p : Packet × Int) :
    Parts.after N (front ++ [p]) = ((Parts.after N front).receive N (p.1.raw N) p.2).2 := by
  rw [Parts.after, List.foldl_append]
  rfl

/-- Only the frames of a message are counted. -/
theorem heard_subset {msgs : List Sending} {front : List (Packet × Int)}
    (hfront : ∀ p ∈ front, p.1.Among msgs) : heard s front ⊆ Finset.range s.count := by
  induction front using List.reverseRecOn with
  | nil => exact Finset.empty_subset _
  | append_singleton front p ih =>
      have hsub := ih fun q hq => hfront q (List.mem_append_left _ hq)
      have hp := hfront p (List.mem_append_right _ List.mem_cons_self)
      rw [heard_append]
      obtain ⟨p, now⟩ := p
      cases p with
      | other raw => exact hsub
      | frame s' i =>
          rw [hear]
          split
          · next hsame =>
            subst hsame
            split
            · exact Finset.empty_subset _
            · exact Finset.insert_subset (Finset.mem_range.mpr hp.2) hsub
          · exact hsub

/-- **The reassembler holds what came of each message** since it was last whole. -/
theorem held_after (hN : LongDigests N) {msgs : List Sending} (hkeys : (msgs.map (Sending.key N)).Nodup)
    {front : List (Packet × Int)} (hfront : ∀ p ∈ front, p.1.Among msgs) (hs : s ∈ msgs) :
    Held N (Parts.after N front) s (heard s front) := by
  induction front using List.reverseRecOn with
  | nil => exact Held.nil rfl
  | append_singleton front p ih =>
      have hbefore : ∀ q ∈ front, q.1.Among msgs := fun q hq => hfront q (List.mem_append_left _ hq)
      have hp := hfront p (List.mem_append_right _ List.mem_cons_self)
      have hheld := ih hbefore
      rw [heard_append, after_append]
      obtain ⟨p, now⟩ := p
      cases p with
      | other raw =>
          have hparse : parse raw = none := hp
          unfold Parts.receive
          rw [show parse (Packet.raw N (.other raw)) = none from hparse]
          exact hheld
      | frame s' i =>
          unfold Parts.receive
          rw [show parse (Packet.raw N (.frame s' i)) = some (s'.parsed N i) from Sending.parse_frame hN hp.2]
          dsimp only
          by_cases hsame : s' = s
          · subst hsame
            refine (hheld.add ?_ now).1
            exact Finset.insert_subset (Finset.mem_range.mpr hp.2) (heard_subset hbefore)
          · -- Messages are told apart by their ids.
            have hkey : s.key N ≠ s'.key N := fun h =>
              hsame (List.inj_on_of_nodup_map hkeys hs hp.1 h).symm
            have hother : ((Parts.after N front).add N (s'.parsed N i) now).2.get? (s.key N) =
                (Parts.after N front).get? (s.key N) := get?_add_ne hkey
            rw [hear, if_neg hsame]
            unfold Held at hheld ⊢
            rw [hother]
            exact hheld

/-- What is missing, of a message that is held. -/
theorem Held.missing (h : Held N parts s got) :
    parts.missing (s.key N) =
      if got = ∅ then [] else (List.range s.count).filter fun i => i ∉ got := by
  unfold Held at h
  unfold Parts.missing
  split at h
  · next hnil => rw [h, if_pos hnil]
  · next hsome =>
    obtain ⟨m, hm, -, htotal, hpieces⟩ := h
    rw [hm, if_neg hsome]
    dsimp only
    rw [htotal]
    refine List.filter_congr fun i _ => ?_
    rw [JsMap.has, hpieces i]
    by_cases hi : i ∈ got
    · simp [hi]
    · simp [hi]

instance (msgs : List Sending) : (p : Packet) → Decidable (p.Among msgs)
  | .frame s i => inferInstanceAs (Decidable (s ∈ msgs ∧ i < s.count))
  | .other raw => inferInstanceAs (Decidable (parse raw = none))

/-- A runtime whose digests have more than eight bytes. -/
def longNode : Node := { sampleNode with sha256 := fun msg => sampleHash msg ++ List.replicate 32 0 }

theorem longNode_longDigests : LongDigests longNode := by
  intro msg
  have hlen : (longNode.sha256 msg).length = (sampleHash msg).length + 32 := by
    rw [← List.length_replicate (n := 32) (a := (0 : UInt8)), ← List.length_append]
    rfl
  omega

/-- Two bytes, in frames of one. -/
def twoFrames : Sending where
  type := .nack
  msg := [7, 8]
  mtu := 14
  header_lt := by decide
  short := by decide

/-- Three bytes, in frames of up to two. -/
def unevenFrames : Sending where
  type := .payEf
  msg := [1, 2, 3]
  mtu := 15
  header_lt := by decide
  short := by decide

end DtnCustody.Radio
