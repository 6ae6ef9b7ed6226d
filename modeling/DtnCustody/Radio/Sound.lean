/-
# DtnCustody.Radio.Sound — `radio/lib/sound.mjs`: a payment as chunks of sound, and collected from them.

A chunk is `S`, a digit for its number and one for the count (`1` to `9`, then `a` to `z`), the type, eight
hexadecimal digits of the message id and up to 128 characters of base64. The assembler keeps the data of the
chunks by number, under id, count and type. Chunks of many payments, in any order and with repeats, make up
each payment once for each time all of its chunks were heard (`chunks_collected`).
-/
import DtnCustody.Base.Pieces
import DtnCustody.Radio.Collected
import DtnCustody.Radio.Text

namespace DtnCustody.Radio.Sound

open Base Js Pieces

/-! ## Chunks -/

/-- `DIGITS`. -/
def digits : JsString := js "123456789abcdefghijklmnopqrstuvwxyz"

/-- `CHUNK`. -/
def chunk : Nat := 128

/-- One chunk of a message in `n`, by its place from zero. -/
def chunkText (type : FrameType) (id b64 : JsString) (n i : Nat) : JsString :=
  js "S" ++ [digits.getD i 0] ++ [digits.getD (n - 1) 0] ++ (if type = .payBeef then js "B" else js "E") ++
    id.take 8 ++ slice b64 chunk i

/-- `soundChunks(type, msg)`. -/
def soundChunks (N : Node) (type : FrameType) (msg : Bytes) : Outcome (List JsString) :=
  let b64 := base64Text msg
  let id := Hex.encode (messageId N msg)
  let n := slices b64 chunk
  if digits.length < n then
    .error (.error s!"payment needs {n} sound chunks; the limit is {digits.length}")
  else .ok ((List.range n).map (chunkText type id b64 n))

structure Chunk where
  part : Nat
  of_ : Nat
  type : FrameType
  id : JsString
  data : JsString
  deriving DecidableEq, Repr

/-- `DIGITS.indexOf(c) + 1`, of a character in `[1-9a-z]`. -/
def number? (u : UInt16) : Option Nat := (digits.idxOf? u).map (· + 1)

/-- `([EB])`, and what becomes of it. -/
def type? (u : UInt16) : Option FrameType :=
  if u = 66 then some .payBeef else if u = 69 then some .payEf else none

/-- `parseChunk(text)`: `null` for anything that is not a chunk. -/
def parseChunk (text : Option JsString) : Option Chunk :=
  match text.getD [] with
  | s :: p :: o :: t :: rest =>
      let id := rest.take 8
      let data := rest.drop 8
      if s = 83 ∧ id.length = 8 ∧ id.all isLowHex ∧ 1 ≤ data.length ∧ data.length ≤ 128 ∧
          data.all isBase64Unit then do
        let part ← number? p
        let of_ ← number? o
        let type ← type? t
        if part ≤ of_ then some { part, of_, type, id, data } else none
      else none
  | _ => none

/-! ## The assembler -/

/-- The data of the chunks heard, by id, count and type, and by number. -/
abbrev Assembly := JsMap JsString (JsMap Nat JsString)

/-- What a chunk is answered with. -/
inductive Heard where
  | some_ (count of_ : Nat)
  | corrupt
  | message (type : FrameType) (msg : Bytes)
  deriving DecidableEq, Repr

/-- `${c.id}${c.of}${c.type}`. -/
def Chunk.key (c : Chunk) : JsString :=
  c.id ++ js (toString c.of_) ++ js (toString c.type.code.toNat)

/-- `add(c)`. -/
def Assembly.add (N : Node) (msgs : Assembly) (c : Chunk) : Heard × Assembly :=
  let got := ((msgs.get? c.key).getD JsMap.empty).set c.part c.data
  if got.size < c.of_ then (.some_ got.size c.of_, msgs.set c.key got)
  else
    let msg := Base64.decode (scalars ((List.range c.of_).flatMap fun i => (got.get? (i + 1)).getD []))
    let answer := if (Hex.encode (messageId N msg)).take 8 ≠ c.id then .corrupt else .message c.type msg
    (answer, msgs.delete c.key)

/-- The assembler fed with what `parseChunk` makes of a text. -/
def Assembly.receive (N : Node) (msgs : Assembly) (text : JsString) : Option Heard × Assembly :=
  match parseChunk (some text) with
  | none => (none, msgs)
  | some c =>
      let r := msgs.add N c
      (some r.1, r.2)

/-! ## What is played -/

/-- A payment that `soundChunks` accepts. -/
structure Played where
  type : FrameType
  msg : Bytes
  pays : type = .payEf ∨ type = .payBeef
  nonempty : msg ≠ []
  short : slices (base64Text msg) chunk ≤ 35
  deriving DecidableEq

namespace Played

variable (N : Node) (s : Played)

def count : Nat := slices (base64Text s.msg) chunk

/-- The eight digits of the id that a chunk carries. -/
def id : JsString := (Hex.encode (messageId N s.msg)).take 8

/-- The data of a chunk, by its number from one. -/
def piece (i : Nat) : JsString := slice (base64Text s.msg) chunk (i - 1)

/-- A chunk, by its number from one. -/
def text (i : Nat) : JsString :=
  chunkText s.type (Hex.encode (messageId N s.msg)) (base64Text s.msg) s.count (i - 1)

/-- What `parseChunk` makes of it. -/
def parsed (i : Nat) : Chunk where
  part := i
  of_ := s.count
  type := s.type
  id := s.id N
  data := s.piece i

theorem soundChunks_eq :
    soundChunks N s.type s.msg = .ok ((List.range s.count).map fun i => s.text N (i + 1)) :=
  if_neg (Nat.not_lt.mpr s.short)

/-- The pieces put together are the base64 of the message. -/
theorem flatMap_piece : (List.range s.count).flatMap (fun i => s.piece (i + 1)) = base64Text s.msg :=
  flatMap_slice (length_le_slices (by decide))

variable {N s}

theorem length_id (hN : LongDigests N) : (s.id N).length = 8 := by
  have hlen := hN s.msg
  rw [id, List.length_take, Hex.length_encode, messageId, List.length_take]
  omega

theorem isLowHex_id : (s.id N).all isLowHex = true :=
  List.all_eq_true.mpr fun u hu => isLowHex_encode _ u (List.mem_of_mem_take hu)

variable {i : Nat}

theorem piece_ne_nil (hi : i ∈ Finset.Icc 1 s.count) : s.piece i ≠ [] := by
  have hbounds := Finset.mem_Icc.mp hi
  exact slice_ne_nil (by decide) (show i - 1 < s.count by omega)

theorem isBase64_piece : (s.piece i).all isBase64Unit = true :=
  List.all_eq_true.mpr fun u hu => isBase64Unit_base64Text _ u (mem_of_mem_slice hu)

/-- A digit of a number is read as that number. -/
theorem number?_digits : ∀ i ∈ Finset.Icc 1 35, number? (digits.getD (i - 1) 0) = some i := by decide

/-- A chunk taken apart. -/
theorem text_eq : s.text N i = 83 :: digits.getD (i - 1) 0 :: digits.getD (s.count - 1) 0 ::
    (if s.type = .payBeef then 66 else 69) :: (s.id N ++ s.piece i) := by
  unfold text chunkText
  split
  · rfl
  · rfl

theorem length_text (hN : LongDigests N) : (s.text N i).length ≤ 140 := by
  have hpiece : (s.piece i).length ≤ chunk := length_slice_le _
  rw [chunk] at hpiece
  simp only [text_eq, List.length_cons, List.length_append, length_id hN]
  omega

/-- **A chunk is read as it was written.** -/
theorem parseChunk_text (hN : LongDigests N) (hi : i ∈ Finset.Icc 1 s.count) :
    parseChunk (some (s.text N i)) = some (s.parsed N i) := by
  have hbounds := Finset.mem_Icc.mp hi
  have hshort : s.count ≤ 35 := s.short
  have htake : (s.id N ++ s.piece i).take 8 = s.id N := List.take_left' (length_id hN)
  have hdrop : (s.id N ++ s.piece i).drop 8 = s.piece i := List.drop_left' (length_id hN)
  have hpart : number? (digits.getD (i - 1) 0) = some i :=
    number?_digits i (Finset.mem_Icc.mpr ⟨hbounds.1, hbounds.2.trans hshort⟩)
  have hof : number? (digits.getD (s.count - 1) 0) = some s.count :=
    number?_digits _ (Finset.mem_Icc.mpr ⟨hbounds.1.trans hbounds.2, hshort⟩)
  have htype : type? (if s.type = .payBeef then 66 else 69) = some s.type := by
    rcases s.pays with hef | hbeef
    · rw [hef]
      rfl
    · rw [hbeef]
      rfl
  have hpiece : (s.piece i).length ≤ 128 := length_slice_le _
  have hone : 1 ≤ (s.piece i).length := List.length_pos_iff.mpr (piece_ne_nil hi)
  rw [text_eq]
  unfold parseChunk
  dsimp only [Option.getD_some]
  rw [htake, hdrop, if_pos ⟨rfl, length_id hN, isLowHex_id, hone, hpiece, isBase64_piece⟩, hpart, hof, htype]
  exact if_pos hbounds.2

/-- Different ids make different keys. -/
theorem key_ne (hN : LongDigests N) {t : Played} (h : s.id N ≠ t.id N) {j : Nat} :
    (s.parsed N i).key ≠ (t.parsed N j).key := by
  intro hkey
  have hfirst := congrArg (List.take 8) hkey
  rw [Chunk.key, Chunk.key, List.append_assoc, List.append_assoc] at hfirst
  rw [show (s.parsed N i).id = s.id N from rfl, show (t.parsed N j).id = t.id N from rfl,
    List.take_left' (length_id hN), List.take_left' (length_id hN)] at hfirst
  exact h hfirst

end Played

/-! ## What is in of a payment -/

/-- The chunks heard since a payment was last whole. -/
def inOf (front : List (Played × Nat)) : Played → Finset Nat := Pieces.heard Played.count front

/-- A new assembler after some chunks. -/
def Assembly.after (N : Node) (front : List (Played × Nat)) : Assembly :=
  front.foldl (fun msgs p => (msgs.receive N (p.1.text N p.2)).2) JsMap.empty

/-- The key of a payment's chunks. -/
def Played.key (N : Node) (s : Played) : JsString := (s.parsed N 0).key

/-- The assembler holds exactly these chunks of a payment. -/
def Held (N : Node) (msgs : Assembly) (s : Played) (got : Finset Nat) : Prop :=
  if got = ∅ then msgs.get? (s.key N) = none
  else ∃ m, msgs.get? (s.key N) = some m ∧ Holds m got s.piece

variable {N : Node} {msgs : Assembly} {s : Played} {got : Finset Nat} {i : Nat}

/-- What the assembler works on when a chunk of the payment comes. -/
theorem Held.current (h : Held N msgs s got) :
    Holds ((msgs.get? (s.key N)).getD JsMap.empty) got s.piece := by
  rw [Held] at h
  split at h
  · next hnil =>
    subst hnil
    rw [h]
    exact Holds.empty
  · obtain ⟨m, hm, hholds⟩ := h
    rw [hm]
    exact hholds

/-- A chunk of one payment leaves the others as they are. -/
theorem get?_add_ne {c : Chunk} {k : JsString} (h : k ≠ c.key) : (msgs.add N c).2.get? k = msgs.get? k := by
  unfold Assembly.add
  dsimp only
  split
  · exact JsMap.get?_set_ne msgs h _
  · exact JsMap.get?_delete_ne msgs h

/-- What a chunk is answered with that leaves these in. -/
def answer (s : Played) (got : Finset Nat) : Heard :=
  if got = Finset.Icc 1 s.count then .message s.type s.msg else .some_ got.card s.count

/-- **What a chunk of the payment does**: it is kept, or the payment is whole. -/
theorem Held.add (h : Held N msgs s got) (hsub : insert i got ⊆ Finset.Icc 1 s.count) :
    let r := msgs.add N (s.parsed N i)
    Held N r.2 s (if insert i got = Finset.Icc 1 s.count then ∅ else insert i got) ∧
      r.1 = answer s (insert i got) := by
  have hnew := h.current.set i
  have hsize := hnew.size_lt_iff hsub
  have hkey : (s.parsed N i).key = s.key N := rfl
  dsimp only
  unfold Assembly.add answer
  rw [hkey, show (s.parsed N i).part = i from rfl, show (s.parsed N i).data = s.piece i from rfl,
    show (s.parsed N i).of_ = s.count from rfl]
  dsimp only
  by_cases hall : insert i got = Finset.Icc 1 s.count
  · rw [if_neg (fun hlt => hsize.mp hlt hall), if_pos hall, if_pos hall]
    rw [hall] at hnew
    refine ⟨?_, ?_⟩
    · rw [Held, if_pos rfl]
      exact JsMap.get?_delete_self msgs _
    · rw [hnew.joined, s.flatMap_piece, decode_base64Text, if_neg (fun hne => hne rfl)]
      rfl
  · rw [if_pos (hsize.mpr hall), if_neg hall, if_neg hall]
    refine ⟨?_, ?_⟩
    · rw [Held, if_neg (Finset.insert_nonempty i got).ne_empty]
      exact ⟨_, JsMap.get?_set_self msgs _ _, hnew⟩
    · rw [hnew.size_eq]

/-- Chunks of the payments. -/
def Among (playlist : List Played) (p : Played × Nat) : Prop :=
  p.1 ∈ playlist ∧ p.2 ∈ Finset.Icc 1 p.1.count

instance (playlist : List Played) (p : Played × Nat) : Decidable (Among playlist p) :=
  inferInstanceAs (Decidable (_ ∧ _))

theorem receive_text (hN : LongDigests N) (hi : i ∈ Finset.Icc 1 s.count) :
    msgs.receive N (s.text N i) =
      (some (msgs.add N (s.parsed N i)).1, (msgs.add N (s.parsed N i)).2) := by
  unfold Assembly.receive
  rw [Played.parseChunk_text hN hi]

/-- **The assembler holds what was heard of each payment** since it was last whole. -/
theorem held_after (hN : LongDigests N) {playlist : List Played}
    (hids : (playlist.map (Played.id N)).Nodup) {front : List (Played × Nat)}
    (hfront : ∀ p ∈ front, Among playlist p) (hs : s ∈ playlist) :
    Held N (Assembly.after N front) s (inOf front s) := by
  induction front using List.reverseRecOn with
  | nil =>
      rw [Held, inOf, Pieces.heard_nil, if_pos rfl]
      rfl
  | append_singleton front p ih =>
      have hbefore : ∀ q ∈ front, Among playlist q := fun q hq => hfront q (List.mem_append_left _ hq)
      obtain ⟨t, i⟩ := p
      obtain ⟨ht, hi⟩ : Among playlist (t, i) := hfront _ (List.mem_append_right _ List.mem_cons_self)
      have hheld := ih hbefore
      have hafter : Assembly.after N (front ++ [(t, i)]) =
          ((Assembly.after N front).add N (t.parsed N i)).2 := by
        rw [Assembly.after, List.foldl_append]
        show ((Assembly.after N front).receive N (t.text N i)).2 = _
        rw [receive_text hN hi]
      rw [hafter, inOf, Pieces.heard_append]
      by_cases hsame : s = t
      · subst hsame
        rw [hear_self]
        refine (hheld.add ?_).1
        exact Finset.insert_subset hi (Pieces.heard_subset (fun q hq => (hbefore q hq).2) s)
      · -- Payments are told apart by their ids.
        have hkey : s.key N ≠ (t.parsed N i).key :=
          Played.key_ne hN fun h => hsame (List.inj_on_of_nodup_map hids hs ht h)
        rw [hear_of_ne _ hsame]
        unfold Held at hheld ⊢
        rw [get?_add_ne hkey]
        exact hheld

/-- **Chunks make up their payments**: they fit a message of sound, are read back field for field, and the last
one that was missing brings the payment. -/
theorem chunks_collected (N : Node) (hN : LongDigests N) (playlist : List Played)
    (hids : (playlist.map (Played.id N)).Nodup) (front : List (Played × Nat))
    (hfront : ∀ p ∈ front, Among playlist p) :
    (∀ s ∈ playlist,
      soundChunks N s.type s.msg = .ok ((List.range s.count).map fun i => s.text N (i + 1)) ∧
        ∀ i ∈ Finset.Icc 1 s.count, (s.text N i).length ≤ 140 ∧
          parseChunk (some (s.text N i)) =
            some { part := i, of_ := s.count, type := s.type, id := s.id N, data := s.piece i }) ∧
      ∀ s ∈ playlist, ∀ i ∈ Finset.Icc 1 s.count,
        ((Assembly.after N front).receive N (s.text N i)).1 =
          some (if insert i (inOf front s) = Finset.Icc 1 s.count then .message s.type s.msg
            else .some_ (insert i (inOf front s)).card s.count) := by
  refine ⟨fun s _ => ⟨s.soundChunks_eq N, fun i hi => ⟨Played.length_text hN, Played.parseChunk_text hN hi⟩⟩,
    fun s hs i hi => ?_⟩
  have hsub : insert i (inOf front s) ⊆ Finset.Icc 1 s.count :=
    Finset.insert_subset hi (Pieces.heard_subset (fun q hq => (hfront q hq).2) s)
  rw [receive_text hN hi, ((held_after hN hids hfront hs).add hsub).2, answer]

/-! ## Two payments at once -/

/-- A payment of one chunk. -/
def shortPlayed : Played where
  type := .payBeef
  msg := [1, 2, 3]
  pays := .inr rfl
  nonempty := by decide
  short := by decide

/-- A payment of two chunks. -/
def longPlayed : Played where
  type := .payEf
  msg := List.replicate 100 5
  pays := .inl rfl
  nonempty := by decide +kernel
  short := by decide +kernel

/-- A chunk of each, and one of them again. -/
theorem chunks_collected_sample :
    let front := [(longPlayed, 2), (shortPlayed, 1), (longPlayed, 2)]
    (∀ s ∈ [shortPlayed, longPlayed],
      soundChunks longNode s.type s.msg =
          .ok ((List.range s.count).map fun i => s.text longNode (i + 1)) ∧
        ∀ i ∈ Finset.Icc 1 s.count, (s.text longNode i).length ≤ 140 ∧
          parseChunk (some (s.text longNode i)) =
            some { part := i, of_ := s.count, type := s.type, id := s.id longNode, data := s.piece i }) ∧
      ∀ s ∈ [shortPlayed, longPlayed], ∀ i ∈ Finset.Icc 1 s.count,
        ((Assembly.after longNode front).receive longNode (s.text longNode i)).1 =
          some (if insert i (inOf front s) = Finset.Icc 1 s.count then .message s.type s.msg
            else .some_ (insert i (inOf front s)).card s.count) :=
  chunks_collected longNode longNode_longDigests _ (by decide +kernel) _ (by decide +kernel)

end DtnCustody.Radio.Sound
