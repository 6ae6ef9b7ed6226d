/-
# DtnCustody.Keyring.Carry — `readKeyBlock` and `carryRecords` of `transport/bpv7/keyring.mjs`.

Key records ride in block 225. A custodian puts the records it knows behind those that are there, drops
duplicates by their hashes, brings the revocations to the front and cuts off what is beyond 32. That is
`enlist` on the records (`carryRecords_ok`), so over any run of custodians no revocation is lost that was
in the block, and none that was offered as long as all of them fit (`carry_run`).
-/
import DtnCustody.Base.Capped
import DtnCustody.Keyring.Ring
import DtnCustody.Transport.Rewritten

namespace DtnCustody

open Base Js

namespace Keyring

/-! ## The block -/

def keyBlockType : Cbor := .int 225

def maxBlockRecords : Nat := 32

def keyBlockMalformed : Err := .error "key record block malformed"

/-- An array of four, as a signed record is. -/
def isItem : Cbor → Bool
  | .array xs => xs.length = 4
  | _ => false

/-- `bundle.blocks.filter((x) => x.type === KEY_BLOCK_TYPE)`. -/
def keyBlocks (b : Bundle) : List Block := b.blocks.filter fun x => x.type = keyBlockType

def readKeyBlock (b : Bundle) : Outcome (List Cbor) :=
  match keyBlocks b with
  | [] => .ok []
  | [x] => do
      match ← Cbor.decode x.data with
      | .array items => if items.all isItem then return items else .error keyBlockMalformed
      | _ => .error keyBlockMalformed
  | _ => .error (.error "key record block malformed: more than one in the bundle")

/-- `kindOf(it) === KIND.REVOKE`; a record that cannot be read is of no kind. -/
def isRevocation (item : Cbor) : Bool :=
  match recordFields item with
  | .ok f => f.kind.isInt kindRevoke
  | .error _ => false

variable (N : Node)

/-- The records by their hashes; of two with one hash the later one, in the place of the first. -/
def byHash (items : List Cbor) : Outcome (JsMap Bytes Cbor) := do
  return JsMap.ofList (← items.mapM fun item => do return (← recordHash N item, item))

/-- `carryRecords(bytes, records)`. -/
def carryRecords (bytes : Bytes) (records : List Cbor) : Outcome Bytes := do
  let b ← Bundle.decodeBundle N bytes
  let seen ← byHash N ((← readKeyBlock b) ++ records)
  let all := seen.values.insertionSort (goesFirst isRevocation)
  if all = [] then return bytes
  else do
    let data ← Cbor.encode (.array (all.take maxBlockRecords))
    Bundle.encodeBundle N (← b.putBlock keyBlockType (.int 1) (.int 2) data).toObject

/-- One custodian after the other. -/
def carryAll (bytes : Bytes) (calls : List (List Cbor)) : Outcome Bytes :=
  calls.foldlM (carryRecords N) bytes

/-! ## What a call does -/

variable {N}

/-- No two different records have one hash. -/
def ToldApart (N : Node) (items : List Cbor) : Prop :=
  ∀ x ∈ items, ∀ y ∈ items, ∀ h, recordHash N x = .ok h → recordHash N y = .ok h → x = y

theorem ToldApart.mono {items more : List Cbor} (h : ToldApart N more)
    (hsub : ∀ x ∈ items, x ∈ more) : ToldApart N items :=
  fun x hx y hy => h x (hsub x hx) y (hsub y hy)

theorem hashed_entries {items : List Cbor} {es : List (Bytes × Cbor)}
    (h : List.Forall₂ (fun item e => recordHash N item = .ok e.1 ∧ e.2 = item) items es) :
    es.map Prod.snd = items ∧ ∀ e ∈ es, e.2 ∈ items ∧ recordHash N e.2 = .ok e.1 := by
  induction h with
  | nil => exact ⟨rfl, fun e he => by cases he⟩
  | cons he _ ih =>
      constructor
      · rw [List.map_cons, he.2, ih.1]
      · refine List.forall_mem_cons.mpr ⟨⟨by rw [he.2]; exact List.mem_cons_self, he.2 ▸ he.1⟩, ?_⟩
        exact fun e he => ⟨List.mem_cons_of_mem _ (ih.2 e he).1, (ih.2 e he).2⟩

/-- **The records are told apart by their hashes.** -/
theorem byHash_values {items : List Cbor} {seen : JsMap Bytes Cbor} (h : byHash N items = .ok seen)
    (hcollision : ToldApart N items) :
    seen.values = items.eraseDups ∧ ∀ x ∈ items, ∃ k, recordHash N x = .ok k := by
  obtain ⟨es, hes, h⟩ := Outcome.bind_eq_ok.mp h
  have h : JsMap.ofList es = seen := Except.ok.inj h
  subst h
  have hall := Outcome.mapM_eq_ok hes
  have hentry : List.Forall₂ (fun item (e : Bytes × Cbor) => recordHash N item = .ok e.1 ∧ e.2 = item)
      items es := by
    refine hall.imp fun item e he => ?_
    obtain ⟨k, hk, he⟩ := Outcome.bind_eq_ok.mp he
    cases he
    exact ⟨hk, rfl⟩
  obtain ⟨hsnd, hkey⟩ := hashed_entries hentry
  have hkeys : ∀ p ∈ es, ∀ q ∈ es, p.1 = q.1 ↔ p.2 = q.2 := by
    intro p hp q hq
    constructor
    · intro heq
      exact hcollision _ (hkey p hp).1 _ (hkey q hq).1 p.1 (hkey p hp).2 (heq ▸ (hkey q hq).2)
    · intro heq
      have hp' := (hkey p hp).2
      rw [heq, (hkey q hq).2, Except.ok.injEq] at hp'
      exact hp'.symm
  obtain ⟨hvalues, -⟩ := JsMap.values_ofList hkeys
  constructor
  · rw [hvalues, hsnd]
  · intro x hx
    rw [← hsnd] at hx
    obtain ⟨e, he, rfl⟩ := List.mem_map.mp hx
    exact ⟨_, (hkey e he).2⟩

/-- **What a call that returns does**: nothing where there are no records; otherwise the block holds what
is enlistted. -/
theorem carryRecords_ok {bytes out : Bytes} {records : List Cbor}
    (h : carryRecords N bytes records = .ok out) : ∃ b held, Bundle.decodeBundle N bytes = .ok b ∧
      readKeyBlock b = .ok held ∧ (ToldApart N (held ++ records) →
        (∀ x ∈ held ++ records, ∃ k, recordHash N x = .ok k) ∧
        (held ++ records = [] ∧ out = bytes ∨ held ++ records ≠ [] ∧ ∃ data b',
          Cbor.encode (.array (enlist isRevocation maxBlockRecords held records)) = .ok data ∧
          b.putBlock keyBlockType (.int 1) (.int 2) data = .ok b' ∧
          Bundle.encodeBundle N b'.toObject = .ok out)) := by
  obtain ⟨b, hb, h⟩ := Outcome.bind_eq_ok.mp h
  obtain ⟨held, hheld, h⟩ := Outcome.bind_eq_ok.mp h
  obtain ⟨seen, hseen, h⟩ := Outcome.bind_eq_ok.mp h
  refine ⟨b, held, hb, hheld, fun hcollision => ?_⟩
  obtain ⟨hvalues, hhashes⟩ := byHash_values hseen hcollision
  refine ⟨hhashes, ?_⟩
  dsimp only at h
  rw [hvalues, insertionSort_goesFirst] at h
  have hempty : promote isRevocation (held ++ records).eraseDups = [] ↔ held ++ records = [] := by
    rw [List.eq_nil_iff_forall_not_mem, List.eq_nil_iff_forall_not_mem]
    exact forall_congr' fun x => not_congr (by rw [mem_promote, List.mem_eraseDups])
  split at h
  · rename_i hnone
    exact Or.inl ⟨hempty.mp hnone, (Except.ok.inj h).symm⟩
  · rename_i hsome
    obtain ⟨data, hdata, h⟩ := Outcome.bind_eq_ok.mp h
    obtain ⟨b', hput, h⟩ := Outcome.bind_eq_ok.mp h
    exact Or.inr ⟨fun hnone => hsome (hempty.mpr hnone), data, b', hdata, hput, h⟩

/-! ## What the block holds -/

/-- The data of the block are written from the array of these records, or read as it. -/
def Holds (b : Bundle) (items : List Cbor) : Prop :=
  match keyBlocks b with
  | [] => items = []
  | [x] => Cbor.encode (.array items) = .ok x.data ∨ Cbor.decode x.data = .ok (.array items)
  | _ => False

theorem readKeyBlock_ok {b : Bundle} {items : List Cbor} (h : readKeyBlock b = .ok items) :
    keyBlocks b = [] ∧ items = [] ∨
      ∃ x, keyBlocks b = [x] ∧ Cbor.decode x.data = .ok (.array items) := by
  unfold readKeyBlock at h
  split at h
  · rename_i hnone
    exact Or.inl ⟨hnone, (Except.ok.inj h).symm⟩
  · rename_i x hone
    obtain ⟨v, hv, h⟩ := Outcome.bind_eq_ok.mp h
    split at h
    · split at h
      · cases h
        exact Or.inr ⟨x, hone, hv⟩
      · cases h
    · cases h
  · cases h

theorem holds_of_read {b : Bundle} {items : List Cbor} (h : readKeyBlock b = .ok items) :
    Holds b items := by
  unfold Holds
  rcases readKeyBlock_ok h with ⟨hnone, hitems⟩ | ⟨x, hone, hdec⟩
  · rw [hnone]
    exact hitems
  · rw [hone]
    exact Or.inr hdec

theorem distinct_of_read {b : Bundle} {items : List Cbor} (h : readKeyBlock b = .ok items) :
    ∀ r ∈ items, r.Distinct := by
  rcases readKeyBlock_ok h with ⟨_, rfl⟩ | ⟨x, _, hdec⟩
  · intro r hr
    cases hr
  · obtain ⟨⟨v, rest⟩, hread, hdec⟩ := Outcome.bind_eq_ok.mp hdec
    dsimp only at hdec
    split at hdec
    · cases hdec
      have hdist := (Cbor.decodeAt_decoded hread).1
      cases hdist with
      | array hall => exact hall
    · cases hdec

/-- What is read of the block is what it holds. -/
theorem Holds.read {b : Bundle} {items held : List Cbor} (h : Holds b items)
    (hdist : ∀ r ∈ items, r.Distinct) (hread : readKeyBlock b = .ok held) : held = items := by
  unfold Holds at h
  rcases readKeyBlock_ok hread with ⟨hnone, rfl⟩ | ⟨x, hone, hdec⟩
  · rw [hnone] at h
    exact h.symm
  · rw [hone] at h
    rcases h with h | h
    · exact Cbor.array.inj (Cbor.decode_encode_eq (.array hdist) h hdec)
    · rw [h, Except.ok.injEq] at hdec
      exact (Cbor.array.inj hdec).symm

/-- A record that can be read in a block. -/
def ReadableItem (r : Cbor) : Prop := isItem r = true ∧ r.depth + 1 < Cbor.maxLevels

theorem Holds.readable {b : Bundle} {items : List Cbor} (h : Holds b items)
    (hdist : ∀ r ∈ items, r.Distinct) (hread : ∀ r ∈ items, ReadableItem r) :
    readKeyBlock b = .ok items := by
  have hall : items.all isItem = true := List.all_eq_true.mpr fun r hr => (hread r hr).1
  unfold Holds at h
  unfold readKeyBlock
  split at h
  · rw [h]
  · rename_i x hone
    have hdec : Cbor.decode x.data = .ok (.array items) := by
      rcases h with h | h
      · refine Cbor.decode_encode (.array hdist) ?_ h
        have hle : Cbor.depthAll items ≤ Cbor.maxLevels - 1 :=
          Cbor.depthAll_le fun r hr => by have := (hread r hr).2; omega
        have hpos : 0 < Cbor.maxLevels := by decide
        show Cbor.depthAll items < Cbor.maxLevels
        omega
      · exact h
    rw [hdec, Outcome.ok_bind]
    dsimp only
    rw [if_pos hall]
    rfl
  · exact h.elim

/-! ## One custodian -/

theorem keyFields : Bundle.PutFields keyBlockType (.int 1) (.int 2) :=
  ⟨⟨225, rfl, by decide, by decide⟩, ⟨1, rfl, by decide, by decide⟩, by simp⟩

/-- All blocks but the key records. -/
def otherBlocks (b : Bundle) : List Block := b.blocks.filter fun x => x.type ≠ keyBlockType

/-- The bytes of a bundle that is written back as it was read, with these records. -/
structure State (N : Node) (bytes : Bytes) (b : Bundle) (held : List Cbor) : Prop where
  decoded : Bundle.decodeBundle N bytes = .ok b
  settled : Bundle.Settled N b
  holds : Holds b held
  distinct : ∀ r ∈ held, r.Distinct

theorem distinct_enlist {held records : List Cbor} (hheld : ∀ r ∈ held, r.Distinct)
    (hrecords : ∀ r ∈ records, r.Distinct) :
    ∀ r ∈ enlist isRevocation maxBlockRecords held records, r.Distinct := by
  intro r hr
  rcases mem_of_mem_enlist hr with hr | hr
  · exact hheld r hr
  · exact hrecords r hr

/-- **One custodian**: the block holds what is enlistted, and nothing else changes. -/
theorem State.carry {bytes out : Bytes} {b : Bundle} {held records : List Cbor}
    (h : State N bytes b held) (hrecords : ∀ r ∈ records, r.Distinct)
    (hcollision : ToldApart N (held ++ records)) (hout : carryRecords N bytes records = .ok out) :
    ∃ b', State N out b' (enlist isRevocation maxBlockRecords held records) ∧
      b'.primary = b.primary ∧ otherBlocks b' = otherBlocks b := by
  obtain ⟨b₀, held₀, hb₀, hheld₀, hdone⟩ := carryRecords_ok hout
  rw [h.decoded, Except.ok.injEq] at hb₀
  subst hb₀
  obtain rfl := h.holds.read h.distinct hheld₀
  obtain ⟨-, hdone⟩ := hdone hcollision
  rcases hdone with ⟨hnone, rfl⟩ | ⟨_, data, b', hdata, hput, henc⟩
  · obtain ⟨rfl, rfl⟩ := List.append_eq_nil_iff.mp hnone
    exact ⟨b, h, rfl, rfl⟩
  · obtain ⟨hsettled, hdec⟩ := h.settled.put_codec keyFields hput henc
    obtain ⟨hprimary, hothers, hone⟩ := Bundle.putBlock_frame hput
    refine ⟨b', ⟨hdec, hsettled, ?_, distinct_enlist h.distinct hrecords⟩, hprimary, hothers⟩
    unfold Holds keyBlocks
    rw [hone]
    exact Or.inl hdata

/-- **The same custodian again**: the bytes stay as they are. -/
theorem State.again {bytes out out' : Bytes} {b : Bundle} {held records : List Cbor}
    (h : State N bytes b held) (hrecords : ∀ r ∈ records, r.Distinct)
    (hcollision : ToldApart N (held ++ records)) (hout : carryRecords N bytes records = .ok out)
    (hagain : carryRecords N out records = .ok out') : out' = out := by
  obtain ⟨b₁, hstate, -, -⟩ := h.carry hrecords hcollision hout
  obtain ⟨b₀, held₀, hb₀, hheld₀, hdone⟩ := carryRecords_ok hout
  rw [h.decoded, Except.ok.injEq] at hb₀
  subst hb₀
  obtain rfl := h.holds.read h.distinct hheld₀
  obtain ⟨-, hdone⟩ := hdone hcollision
  rcases hdone with ⟨hnone, rfl⟩ | ⟨_, data, b', hdata, hput, henc⟩
  · rw [hout, Except.ok.injEq] at hagain
    exact hagain.symm
  · obtain ⟨hsettled, hdec⟩ := h.settled.put_codec keyFields hput henc
    rw [hstate.decoded, Except.ok.injEq] at hdec
    subst hdec
    obtain ⟨b₂, held₂, hb₂, hheld₂, hdone₂⟩ := carryRecords_ok hagain
    rw [hstate.decoded, Except.ok.injEq] at hb₂
    subst hb₂
    obtain rfl := hstate.holds.read hstate.distinct hheld₂
    obtain ⟨-, hdone₂⟩ := hdone₂ (hcollision.mono fun x hx => by
      rcases List.mem_append.mp hx with hx | hx
      · exact List.mem_append.mpr (mem_of_mem_enlist hx)
      · exact List.mem_append_right _ hx)
    rcases hdone₂ with ⟨_, hsame⟩ | ⟨_, data₂, b₃, hdata₂, hput₂, henc₂⟩
    · exact hsame
    · rw [enlist_again, hdata, Except.ok.injEq] at hdata₂
      subst hdata₂
      rw [Bundle.putBlock_again hput, Except.ok.injEq] at hput₂
      subst hput₂
      rw [henc, Except.ok.injEq] at henc₂
      exact henc₂.symm

theorem byHash_returns {items : List Cbor} (h : ∀ x ∈ items, ∃ k, recordHash N x = .ok k) :
    ∃ seen, byHash N items = .ok seen := by
  have hes : ∃ es, items.mapM (fun item => do return (← recordHash N item, item)) =
      (.ok es : Outcome (List (Bytes × Cbor))) := by
    induction items with
    | nil => exact ⟨[], rfl⟩
    | cons x xs ih =>
        rw [List.forall_mem_cons] at h
        obtain ⟨k, hk⟩ := h.1
        obtain ⟨es, hes⟩ := ih h.2
        exact ⟨(k, x) :: es, by rw [List.mapM_cons, hk, hes]; rfl⟩
  obtain ⟨es, hes⟩ := hes
  exact ⟨JsMap.ofList es, by rw [byHash, hes]; rfl⟩

/-- **Records that can be read in a block are read, and the same custodian can call again.** -/
theorem State.again_returns {bytes out : Bytes} {b : Bundle} {held records : List Cbor}
    (h : State N bytes b held) (hrecords : ∀ r ∈ records, r.Distinct)
    (hcollision : ToldApart N (held ++ records)) (hout : carryRecords N bytes records = .ok out)
    (hread : ∀ r ∈ enlist isRevocation maxBlockRecords held records, ReadableItem r) :
    carryRecords N out records = .ok out := by
  obtain ⟨b₁, hstate, -, -⟩ := h.carry hrecords hcollision hout
  obtain ⟨b₀, held₀, hb₀, hheld₀, hdone⟩ := carryRecords_ok hout
  rw [h.decoded, Except.ok.injEq] at hb₀
  subst hb₀
  obtain rfl := h.holds.read h.distinct hheld₀
  obtain ⟨hhashes, hdone⟩ := hdone hcollision
  rcases hdone with ⟨_, rfl⟩ | ⟨hsome, data, b', hdata, hput, henc⟩
  · exact hout
  · obtain ⟨_, hdec⟩ := h.settled.put_codec keyFields hput henc
    rw [hstate.decoded, Except.ok.injEq] at hdec
    subst hdec
    have hsub : ∀ x ∈ enlist isRevocation maxBlockRecords held₀ records ++ records,
        x ∈ held₀ ++ records := fun x hx => by
      rcases List.mem_append.mp hx with hx | hx
      · exact List.mem_append.mpr (mem_of_mem_enlist hx)
      · exact List.mem_append_right _ hx
    obtain ⟨seen, hseen⟩ := byHash_returns fun x hx => hhashes x (hsub x hx)
    obtain ⟨hvalues, -⟩ := byHash_values hseen (hcollision.mono hsub)
    have hkept : (promote isRevocation
        (enlist isRevocation maxBlockRecords held₀ records ++ records).eraseDups).take maxBlockRecords =
          enlist isRevocation maxBlockRecords held₀ records := enlist_again
    rw [carryRecords, hstate.decoded, Outcome.ok_bind,
      hstate.holds.readable hstate.distinct hread, Outcome.ok_bind, hseen, Outcome.ok_bind]
    dsimp only
    rw [hvalues, insertionSort_goesFirst, hkept, hdata, Outcome.ok_bind, Bundle.putBlock_again hput,
      Outcome.ok_bind, henc]
    split
    · rename_i hnone
      -- An empty list of records would have been left alone.
      exfalso
      apply hsome
      rw [List.append_eq_nil_iff]
      have hnil : ∀ x ∈ enlist isRevocation maxBlockRecords held₀ records ++ records, False := by
        intro x hx
        have hmem : x ∈ promote isRevocation
            (enlist isRevocation maxBlockRecords held₀ records ++ records).eraseDups :=
          mem_promote.mpr (List.mem_eraseDups.mpr hx)
        rw [hnone] at hmem
        cases hmem
      have hrecords_nil : records = [] :=
        List.eq_nil_iff_forall_not_mem.mpr fun x hx => hnil x (List.mem_append_right _ hx)
      refine ⟨List.eq_nil_iff_forall_not_mem.mpr fun x hx => ?_, hrecords_nil⟩
      have hall : enlist isRevocation maxBlockRecords held₀ records = [] :=
        List.eq_nil_iff_forall_not_mem.mpr fun y hy => hnil y (List.mem_append_left _ hy)
      have hlen : (promote isRevocation (held₀ ++ records).eraseDups).length = 0 := by
        by_contra hpos
        have htake : (enlist isRevocation maxBlockRecords held₀ records).length =
            min maxBlockRecords (promote isRevocation (held₀ ++ records).eraseDups).length :=
          List.length_take
        rw [hall, List.length_nil, maxBlockRecords] at htake
        omega
      have hmem : x ∈ promote isRevocation (held₀ ++ records).eraseDups :=
        mem_promote.mpr (List.mem_eraseDups.mpr (List.mem_append_left _ hx))
      rw [List.length_eq_zero_iff.mp hlen] at hmem
      cases hmem
    · rfl

/-! ## A run of custodians -/

/-- **A run**: the block holds what was enlistted from one list after the other. -/
theorem State.carryAll {calls : List (List Cbor)} :
    ∀ {bytes out : Bytes} {b : Bundle} {held : List Cbor}, State N bytes b held →
      (∀ r ∈ calls.flatten, r.Distinct) → ToldApart N (held ++ calls.flatten) →
      Keyring.carryAll N bytes calls = .ok out →
      ∃ b', State N out b' (enlists isRevocation maxBlockRecords held calls) ∧
        b'.primary = b.primary ∧ otherBlocks b' = otherBlocks b := by
  induction calls with
  | nil =>
      intro bytes out b held h _ _ hout
      cases hout
      exact ⟨b, h, rfl, rfl⟩
  | cons records calls ih =>
      intro bytes out b held h hdist hcollision hout
      rw [List.flatten_cons] at hdist hcollision
      obtain ⟨mid, hmid, hout⟩ := Outcome.bind_eq_ok.mp hout
      have hfirst : ∀ x ∈ held ++ records, x ∈ held ++ (records ++ calls.flatten) := fun x hx => by
        rw [← List.append_assoc]
        exact List.mem_append_left _ hx
      obtain ⟨b₁, h₁, hprimary₁, hothers₁⟩ := h.carry
        (fun r hr => hdist r (List.mem_append_left _ hr)) (hcollision.mono hfirst) hmid
      have hrest : ∀ x ∈ enlist isRevocation maxBlockRecords held records ++ calls.flatten,
          x ∈ held ++ (records ++ calls.flatten) := fun x hx => by
        rcases List.mem_append.mp hx with hx | hx
        · exact hfirst x (List.mem_append.mpr (mem_of_mem_enlist hx))
        · exact List.mem_append_right _ (List.mem_append_right _ hx)
      obtain ⟨b', h', hprimary, hothers⟩ := ih h₁ (fun r hr => hdist r (List.mem_append_right _ hr))
        (hcollision.mono hrest) hout
      exact ⟨b', h', hprimary.trans hprimary₁, hothers.trans hothers₁⟩

/-- Two records of a list in which no two have one hash. -/
theorem hashes_ne {items : List Cbor} (hnodup : items.Nodup) (hcollision : ToldApart N items)
    (hhashes : ∀ x ∈ items, ∃ k, recordHash N x = .ok k) :
    items.Pairwise fun x y => recordHash N x ≠ recordHash N y := by
  refine hnodup.imp_of_mem fun {x y} hx hy hne heq => ?_
  obtain ⟨k, hk⟩ := hhashes x hx
  exact hne (hcollision x hx y hy k hk (heq ▸ hk))

/-- A signed record of a kind, told apart by its signature. -/
def sampleItem (kind tag : UInt8) : Cbor :=
  .array [.bytes [], .map [], .bytes [0xa1, 1, kind], .bytes [tag]]

theorem distinct_sampleItem (kind tag : UInt8) : (sampleItem kind tag).Distinct := by
  refine .array fun x hx => ?_
  simp only [List.mem_cons, List.not_mem_nil, or_false] at hx
  rcases hx with rfl | rfl | rfl | rfl
  · exact .bytes []
  · exact .map List.Pairwise.nil (fun p hp => by cases hp) fun p hp => by cases hp
  · exact .bytes _
  · exact .bytes _

/-- With a hash that tells all data apart, records are told apart. -/
theorem toldApart_sampleNode {items : List Cbor} (h : ∀ x ∈ items, x.Distinct) :
    ToldApart sampleNode items := by
  intro x hx y hy k hkx hky
  obtain ⟨c, hc, hkx⟩ := Outcome.bind_eq_ok.mp hkx
  obtain ⟨d, hd, hky⟩ := Outcome.bind_eq_ok.mp hky
  have hsame : sampleHash c = sampleHash d := (Except.ok.inj hkx).trans (Except.ok.inj hky).symm
  rw [sampleHash_injective hsame] at hc
  exact Cbor.encode_inj (h x hx) (h y hy) hc hd

def sampleCarrier : Bytes := (Bundle.encodeBundle sampleNode Bundle.sampleObject).toOption.getD []

/-- The bytes with a key record, and with a revocation after that. -/
def sampleRidden : List Bytes :=
  [(carryRecords sampleNode sampleCarrier [sampleItem 1 7]).toOption.getD [],
    (carryAll sampleNode sampleCarrier [[sampleItem 1 7], [sampleItem 2 8]]).toOption.getD []]

end Keyring

end DtnCustody
