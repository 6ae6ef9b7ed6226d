/-
# DtnCustody.Transport.AddBib — `addBib` of `transport/bpv7/bpsec.mjs`, against `verifyBibs`.

`addBib` takes the CRCs off its targets, computes a MAC over each and puts the block before the payload.
The block opens with the key it was made with (`Added.opens`) and its own MACs are right in the bundle
that it becomes part of (`Added.passes`). What an earlier BIB targets is left as it is
(`Added.target_kept`), but the primary block can be covered without being a target. When it loses its
CRC to the new block, the earlier BIB fails (`addBib_verifies_iff`, `primaryBib_breaks`).
-/
import DtnCustody.Transport.BibVerdict

namespace DtnCustody

open Base Js

namespace Bpsec

/-! ## The call -/

/-- `{ targets, key, source, shaVariant, scope, flags, crcType, number, mode }`. -/
structure AddBib where
  /-- Block numbers; `0` is the primary block. -/
  targets : List Int
  key : Bytes
  source : String
  shaVariant : Int := 5
  scope : Int := 7
  flags : Int := 0
  crcType : Int := 0
  number : Option Int := none
  mode : Mode := .rfc9173

namespace AddBib

/-- `targets.includes(v)`. -/
def has (a : AddBib) (v : Cbor) : Bool := a.targets.any fun n => Cbor.int n = v

end AddBib

/-- The primary block with its CRC taken off. -/
def withoutCrc (p : Primary) : Primary := { p with crcType := .int 0 }

/-- A block with its CRC taken off, if it is a target. -/
def stripBlock (a : AddBib) (x : Block) : Block :=
  if a.has x.number then { x with crcType := .int 0 } else x

/-- The bundle with the CRCs of the targets taken off. -/
def strip (b : Bundle) (a : AddBib) : Bundle where
  primary := if a.has (.int 0) then withoutCrc b.primary else b.primary
  blocks := b.blocks.map (stripBlock a)

/-- `number ?? nextBlockNumber(bundle)`. -/
def newNumber (b : Bundle) (a : AddBib) : Int := a.number.getD b.nextBlockNumber

/-- Block Integrity and Block Confidentiality Blocks. -/
def isSecurity : Target → Bool
  | .primary => false
  | .block x => x.type = bibType || x.type = .int 12

variable (H : BibHost)

/-- The results for one target: its MAC. -/
def bibResult (b : Bundle) (a : AddBib) (bib : Block) (n : Int) : Outcome Cbor :=
  match targetOf b (.val (.int n)) with
  | none => .error (.error s!"no block {n} to target")
  | some t =>
      if isSecurity t then .error (.error "a BIB must not target a security block")
      else do
        let m ← mac H (.int a.shaVariant) a.key (← ippt H b t bib (.int a.scope) a.mode false)
        return .array [.array [.int 1, .bytes m]]

/-- `Buffer.concat`: no Buffer is longer than the runtime allows. -/
def concat (parts : List Bytes) : Outcome Bytes :=
  if parts.flatten.length ≤ Cbor.maxBuffer then .ok parts.flatten else .error .rangeError

/-- The abstract security block. -/
def encodeAsb (a : AddBib) (results : List Cbor) : Outcome Bytes := do
  let targets ← Cbor.encode (.array (a.targets.map .int))
  let contextId ← Cbor.encode (.int 1)
  let contextFlags ← Cbor.encode (.int 1)
  let source ← (← Bundle.encodeEid a.source).encodeItem
  let params ← Cbor.encode
    (.array [.array [.int 1, .int a.shaVariant], .array [.int 3, .int a.scope]])
  let results ← Cbor.encode (.array results)
  concat [targets, contextId, contextFlags, source, params, results]

/-- The block without its data. -/
def bibHead (b : Bundle) (a : AddBib) : Block where
  type := bibType
  number := .int (newNumber b a)
  flags := .int a.flags
  crcType := .int a.crcType
  data := []

/-- `addBib(bundle, …)`. Without any block, `undefined` ends the list, and nothing can be done with the
bundle. -/
def addBib (b : Bundle) (a : AddBib) : Outcome Bundle :=
  if (hashName (.int a.shaVariant)).isNone then
    .error (.error s!"unknown SHA variant {a.shaVariant}")
  else do
    let stripped := strip b a
    let head := bibHead stripped a
    let results ← a.targets.mapM (bibResult H stripped a head)
    let data ← encodeAsb a results
    match stripped.blocks.getLast? with
    | some payload =>
        return { stripped with blocks := stripped.blocks.dropLast ++ [{ head with data }, payload] }
    | none => .error .typeError

/-! ## What the call leaves -/

variable {H} {b b' : Bundle} {a : AddBib} {o : Options}

/-- What a call that returns has done. -/
structure Added (H : BibHost) (b b' : Bundle) (a : AddBib) (macs : List Cbor) (asb : Bytes)
    (front : List Block) (payload : Block) : Prop where
  variant : ∃ hash, hashName (.int a.shaVariant) = some hash
  results : List.Forall₂ (fun n r => bibResult H (strip b a) a (bibHead (strip b a) a) n = .ok r)
    a.targets macs
  data : encodeAsb a macs = .ok asb
  blocks : (strip b a).blocks = front ++ [payload]
  bundle : b' = { strip b a with
    blocks := front ++ [{ bibHead (strip b a) a with data := asb }, payload] }

theorem addBib_ok (h : addBib H b a = .ok b') : ∃ macs asb front payload,
    Added H b b' a macs asb front payload := by
  unfold addBib at h
  split at h
  · cases h
  · rename_i hvariant
    dsimp only at h
    obtain ⟨macs, hmacs, h⟩ := Outcome.bind_eq_ok.mp h
    obtain ⟨asb, hasb, h⟩ := Outcome.bind_eq_ok.mp h
    split at h
    · rename_i payload hlast
      cases h
      refine ⟨macs, asb, _, payload, ?_, Outcome.mapM_eq_ok hmacs, hasb,
        (List.dropLast_append_getLast? payload hlast).symm, rfl⟩
      cases hhash : hashName (.int a.shaVariant) with
      | none =>
          rw [hhash] at hvariant
          exact absurd rfl hvariant
      | some hash => exact ⟨hash, rfl⟩
    · cases h

theorem stripBlock_number (a : AddBib) (x : Block) : (stripBlock a x).number = x.number := by
  unfold stripBlock
  split <;> rfl

theorem stripBlock_type (a : AddBib) (x : Block) : (stripBlock a x).type = x.type := by
  unfold stripBlock
  split <;> rfl

theorem stripBlock_data (a : AddBib) (x : Block) : (stripBlock a x).data = x.data := by
  unfold stripBlock
  split <;> rfl

theorem stripBlock_flags (a : AddBib) (x : Block) : (stripBlock a x).flags = x.flags := by
  unfold stripBlock
  split <;> rfl

theorem stripBlock_untargeted {x : Block} (h : a.has x.number = false) : stripBlock a x = x := by
  rw [stripBlock, h]
  rfl

theorem newNumber_strip (b : Bundle) (a : AddBib) : newNumber (strip b a) a = newNumber b a := by
  have hnumbers : (strip b a).blocks.map Block.number = b.blocks.map Block.number := by
    rw [strip, List.map_map]
    exact List.map_congr_left fun x _ => stripBlock_number a x
  have hlength : (strip b a).blocks.length = b.blocks.length := List.length_map _
  rw [newNumber, newNumber, Bundle.nextBlockNumber, Bundle.nextBlockNumber, hnumbers, hlength]

/-! ## The new block is one of the bundle's -/

/-- The block that is added is of the documented types, and its number is no other block's: one that is
given has to be free, as the one that is found is. -/
structure AddBib.Fits (b : Bundle) (a : AddBib) : Prop where
  flags : Bundle.IntField (.int a.flags)
  crcType : Cbor.int a.crcType ∈ [.int 0, .int 1, .int 2]
  number : Bundle.IntField (.int (newNumber b a))
  free : ∀ n, a.number = some n → ∀ x ∈ b.blocks, x.number ≠ .int n

theorem AddBib.Fits.newNumber_free (h : a.Fits b) :
    ∀ x ∈ b.blocks, x.number ≠ .int (newNumber b a) := by
  unfold newNumber
  cases hnumber : a.number with
  | none => exact b.nextBlockNumber_free
  | some n => exact h.free n hnumber

theorem typed_withoutCrc {N : Node} (ht : Bundle.Typed N b.toObject) :
    Bundle.Typed N { b.toObject with primary := (withoutCrc b.primary).toObject } :=
  ⟨ht.flags, List.mem_cons_self, ht.created, ht.lifetime, ht.fragment, ht.blocks, ht.numbers⟩

/-- Taking CRCs off leaves the types as they are. -/
theorem typed_strip {N : Node} (ht : Bundle.Typed N b.toObject) :
    Bundle.Typed N (strip b a).toObject := by
  have hprimary : Bundle.Typed N
      { b.toObject with primary := ((strip b a).primary).toObject } := by
    unfold strip
    dsimp only
    split
    · exact typed_withoutCrc ht
    · exact ht
  refine ⟨hprimary.flags, hprimary.crcType, hprimary.created, hprimary.lifetime, hprimary.fragment, ?_,
    ?_⟩
  · intro y hy
    obtain ⟨z, hz, rfl⟩ := List.mem_map.mp hy
    obtain ⟨x, hx, rfl⟩ := List.mem_map.mp hz
    obtain ⟨htype, hnumber, hflags, hcrc⟩ := ht.blocks x.toObject (List.mem_map_of_mem hx)
    unfold stripBlock
    split
    · exact ⟨htype, hnumber, hflags, List.mem_cons_self⟩
    · exact ⟨htype, hnumber, hflags, hcrc⟩
  · apply Bundle.pairwise_toObject.mpr
    show ((b.blocks.map (stripBlock a)).Pairwise _)
    rw [List.pairwise_map]
    refine (Bundle.pairwise_toObject.mp ht.numbers).imp fun hne => ?_
    rw [stripBlock_number, stripBlock_number]
    exact hne

variable {macs : List Cbor} {asb : Bytes} {front : List Block} {payload : Block}

/-- The new block. -/
def newBib (b : Bundle) (a : AddBib) (asb : Bytes) : Block :=
  { bibHead (strip b a) a with data := asb }

theorem Added.mem_blocks (h : Added H b b' a macs asb front payload) {x : Block} :
    x ∈ b'.blocks ↔ x ∈ (strip b a).blocks ∨ x = newBib b a asb := by
  rw [h.bundle, h.blocks]
  simp only [List.mem_append, List.mem_cons, List.not_mem_nil, or_false, newBib]
  tauto

theorem Added.data_le (h : Added H b b' a macs asb front payload) : asb.length ≤ Cbor.maxBuffer := by
  have hdata := h.data
  unfold encodeAsb at hdata
  obtain ⟨_, _, hdata⟩ := Outcome.bind_eq_ok.mp hdata
  obtain ⟨_, _, hdata⟩ := Outcome.bind_eq_ok.mp hdata
  obtain ⟨_, _, hdata⟩ := Outcome.bind_eq_ok.mp hdata
  obtain ⟨_, _, hdata⟩ := Outcome.bind_eq_ok.mp hdata
  obtain ⟨_, _, hdata⟩ := Outcome.bind_eq_ok.mp hdata
  obtain ⟨_, _, hdata⟩ := Outcome.bind_eq_ok.mp hdata
  obtain ⟨_, _, hdata⟩ := Outcome.bind_eq_ok.mp hdata
  unfold concat at hdata
  split at hdata
  · rename_i hle
    exact Except.ok.inj hdata ▸ hle
  · cases hdata

/-- **The bundle keeps its types.** -/
theorem Added.typed {N : Node} (h : Added H b b' a macs asb front payload)
    (ht : Bundle.Typed N b.toObject) (hfits : a.Fits b) : Bundle.Typed N b'.toObject := by
  have hs : Bundle.Typed N (strip b a).toObject := typed_strip ht
  have hprimary : b'.toObject.primary = (strip b a).toObject.primary := by rw [h.bundle]; rfl
  have hpair := Bundle.pairwise_toObject.mp hs.numbers
  refine ⟨?_, ?_, ?_, ?_, ?_, ?_, ?_⟩
  · rw [hprimary]
    exact hs.flags
  · rw [hprimary]
    exact hs.crcType
  · rw [hprimary]
    exact hs.created
  · rw [hprimary]
    exact hs.lifetime
  · rw [hprimary]
    exact hs.fragment
  · intro y hy
    obtain ⟨x, hx, rfl⟩ := List.mem_map.mp hy
    rcases h.mem_blocks.mp hx with hx | rfl
    · exact hs.blocks _ (List.mem_map_of_mem hx)
    · refine ⟨⟨_, rfl, 11, rfl, by decide, by decide⟩, ⟨_, rfl, ?_⟩, hfits.flags, hfits.crcType⟩
      show Bundle.IntField (.int (newNumber (strip b a) a))
      rw [newNumber_strip]
      exact hfits.number
  · apply Bundle.pairwise_toObject.mpr
    have hfree : ∀ x ∈ (strip b a).blocks, x.number ≠ (newBib b a asb).number := by
      intro y hy
      obtain ⟨x, hx, rfl⟩ := List.mem_map.mp hy
      rw [stripBlock_number]
      show x.number ≠ .int (newNumber (strip b a) a)
      rw [newNumber_strip]
      exact hfits.newNumber_free x hx
    rw [h.blocks] at hpair hfree
    rw [h.bundle]
    exact Bundle.pairwise_insert hpair hfree

/-! ## The new block opens -/

/-- The results as they are written: one for each target. -/
def IsResult (r : Cbor) : Prop := ∃ m, r = .array [.array [.int 1, .bytes m]]

theorem bibResult_isResult {n : Int} {bib : Block} {r : Cbor} (h : bibResult H b a bib n = .ok r) :
    IsResult r := by
  unfold bibResult at h
  split at h
  · cases h
  · split at h
    · cases h
    · obtain ⟨p, _, h⟩ := Outcome.bind_eq_ok.mp h
      obtain ⟨m, _, h⟩ := Outcome.bind_eq_ok.mp h
      exact ⟨m, (Except.ok.inj h).symm⟩

/-- What comes first is read first. -/
theorem next_encoded {v : Cbor} {raw : Bytes} (hdist : v.Distinct) (hdepth : v.depth < Cbor.maxLevels)
    (h : Cbor.encode v = .ok raw) (rest : Bytes) : next (raw ++ rest) = .ok (v, rest) :=
  Cbor.decodeAt_encode hdist hdepth raw rest h

theorem distinct_ints (ns : List Int) : (Cbor.array (ns.map .int)).Distinct := by
  apply Cbor.Distinct.array
  intro x hx
  obtain ⟨n, _, rfl⟩ := List.mem_map.mp hx
  exact .int n

theorem depth_ints (ns : List Int) : (Cbor.array (ns.map .int)).depth ≤ 1 := by
  apply Cbor.depthAll_le
  intro x hx
  obtain ⟨n, _, rfl⟩ := List.mem_map.mp hx
  exact Nat.zero_lt_one

theorem distinct_results {macs : List Cbor} (h : ∀ r ∈ macs, IsResult r) :
    (Cbor.array macs).Distinct := by
  apply Cbor.Distinct.array
  intro r hr
  obtain ⟨m, rfl⟩ := h r hr
  refine .array (List.forall_mem_singleton.mpr (.array (List.forall_mem_cons.mpr ⟨.int 1, ?_⟩)))
  exact List.forall_mem_singleton.mpr (.bytes m)

theorem depth_results {macs : List Cbor} (h : ∀ r ∈ macs, IsResult r) :
    (Cbor.array macs).depth ≤ 3 := by
  apply Cbor.depthAll_le
  intro r hr
  obtain ⟨m, rfl⟩ := h r hr
  simp [Cbor.depth, Cbor.depthAll]

/-- The parameters as they are read. -/
def bibParams (a : AddBib) : List (JsVal × JsVal) :=
  [(some (.int 1), some (.int a.shaVariant)), (some (.int 3), some (.int a.scope))]

/-- **The abstract security block is read as it was written**, with a source that is written alike. -/
theorem parseAsb_encodeAsb {macs : List Cbor} {asb : Bytes} (h : encodeAsb a macs = .ok asb)
    (hmacs : ∀ r ∈ macs, IsResult r) : ∃ source, parseAsb H asb =
      .ok ⟨.array (a.targets.map .int), .int 1, .int 1, source, bibParams a, .array macs⟩ := by
  unfold encodeAsb at h
  obtain ⟨targets, htargets, h⟩ := Outcome.bind_eq_ok.mp h
  obtain ⟨contextId, hid, h⟩ := Outcome.bind_eq_ok.mp h
  obtain ⟨contextFlags, hflags, h⟩ := Outcome.bind_eq_ok.mp h
  obtain ⟨item, hitem, h⟩ := Outcome.bind_eq_ok.mp h
  obtain ⟨source, hsource, h⟩ := Outcome.bind_eq_ok.mp h
  obtain ⟨params, hparams, h⟩ := Outcome.bind_eq_ok.mp h
  obtain ⟨results, hresults, h⟩ := Outcome.bind_eq_ok.mp h
  have hasb : asb = targets ++ (contextId ++ (contextFlags ++ (source ++ (params ++ (results ++ []))))) := by
    unfold concat at h
    split at h
    · exact (Except.ok.inj h).symm
    · cases h
  obtain ⟨eid, heid, v, hform, hdist, hdepth, hcarried⟩ := Bundle.encodeEid_reads hitem hsource
  have hv : Cbor.encode v = .ok source := by
    obtain ⟨item', hitem', hsame⟩ := hform.encode
    rw [heid, Except.ok.injEq] at hitem'
    rw [← hsame, ← hitem', hsource]
  have hlevels : (3 : Nat) < Cbor.maxLevels := by decide
  have hpdepth : (Cbor.array [.array [.int 1, .int a.shaVariant], .array [.int 3, .int a.scope]]).depth <
      Cbor.maxLevels := by
    simp only [Cbor.depth, Cbor.depthAll]
    decide
  have hpdist : (Cbor.array [.array [.int 1, .int a.shaVariant], .array [.int 3, .int a.scope]]).Distinct := by
    refine .array (List.forall_mem_cons.mpr ⟨distinct_ints [1, a.shaVariant], ?_⟩)
    exact List.forall_mem_singleton.mpr (distinct_ints [3, a.scope])
  refine ⟨eid, ?_⟩
  have hbit : (Cbor.toPrim (.int 1)).bitAnd H.toNode 1 = .ok 1 := rfl
  have hentries : entries (.array [.array [.int 1, .int a.shaVariant], .array [.int 3, .int a.scope]]) =
      .ok (bibParams a) := rfl
  rw [hasb, parseAsb, next_encoded (distinct_ints _) (by have := depth_ints a.targets; omega) htargets,
    Outcome.ok_bind]
  dsimp only
  rw [next_encoded (.int 1) (by decide) hid, Outcome.ok_bind]
  dsimp only
  rw [next_encoded (.int 1) (by decide) hflags, Outcome.ok_bind]
  dsimp only
  rw [next_encoded hdist (by omega) hv, Outcome.ok_bind]
  dsimp only
  rw [hform.decode, Outcome.ok_bind, hbit, Outcome.ok_bind, parseParams, if_neg (by decide),
    next_encoded hpdist hpdepth hparams, Outcome.ok_bind]
  dsimp only
  rw [hentries, Outcome.ok_bind]
  rw [pure_bind, next_encoded (distinct_results hmacs)
    (by have := depth_results hmacs; omega) hresults, Outcome.ok_bind]
  rfl

/-- What the new block is checked with. -/
def newContext (b : Bundle) (a : AddBib) (asb : Bytes) (source : String) (macs : List Cbor) : Context :=
  ⟨newBib b a asb, ⟨.array (a.targets.map .int), .int 1, .int 1, source, bibParams a, .array macs⟩, a.key⟩

/-- What stands at one place on the left has its counterpart there on the right. -/
theorem exists_at {α β : Type} {R : α → β → Prop} {xs : List α} {ys : List β}
    (h : List.Forall₂ R xs ys) {i : Nat} {x : α} (hx : xs[i]? = some x) :
    ∃ y, ys[i]? = some y ∧ R x y := by
  induction h generalizing i with
  | nil => cases hx
  | cons hxy _ ih =>
      cases i with
      | zero =>
          cases hx
          exact ⟨_, rfl, hxy⟩
      | succ i => exact ih hx

theorem Added.isResult (h : Added H b b' a macs asb front payload) : ∀ r ∈ macs, IsResult r := by
  intro r hr
  obtain ⟨i, hi⟩ := List.mem_iff_getElem?.mp hr
  obtain ⟨n, _, hn⟩ := exists_at h.results.flip hi
  exact bibResult_isResult hn

/-- **The new block opens with the key it was made with.** -/
theorem Added.opens (h : Added H b b' a macs asb front payload) :
    ∃ source, Opens H a.key (newBib b a asb) (newContext b a asb source macs) := by
  obtain ⟨source, hparse⟩ := parseAsb_encodeAsb (H := H) h.data h.isResult
  exact ⟨source, hparse, rfl, rfl, rfl⟩

/-! ## The new block passes -/

theorem targetOf_primary {n : Slot} (h : targetOf b n = some .primary) : n = .val (.int 0) := by
  unfold targetOf at h
  split at h
  · rfl
  · obtain ⟨_, _, h⟩ := Option.map_eq_some_iff.mp h
    cases h
  · cases h

/-- The primary block is written in the result as in the bundle without the CRCs. -/
theorem Added.primary_written (h : Added H b b' a macs asb front payload)
    (ht : Bundle.Typed H.toNode b.toObject) (hfits : a.Fits b) {raw : Bytes}
    (hraw : primaryBytes H (strip b a) = .ok raw) : primaryBytes H b' = .ok raw := by
  obtain ⟨hprimary, hdata, hpayload⟩ := (primaryBytes_iff (typed_strip ht)).mp hraw
  refine (primaryBytes_iff (h.typed ht hfits)).mpr ⟨?_, ?_, ?_⟩
  · rw [h.bundle]
    exact hprimary
  · intro x hx
    rcases h.mem_blocks.mp hx with hx | rfl
    · exact hdata x hx
    · exact h.data_le
  · rw [h.blocks] at hpayload
    rw [h.bundle]
    simpa using hpayload

theorem AddBib.has_of_mem {n : Int} (h : n ∈ a.targets) : a.has (.int n) = true :=
  List.any_eq_true.mpr ⟨n, h, decide_eq_true rfl⟩

/-- A target of the call is in the result as its MAC was computed, without a CRC. -/
theorem Added.covered (h : Added H b b' a macs asb front payload)
    (ht : Bundle.Typed H.toNode b.toObject) (hfits : a.Fits b) {n : Int} {t : Target}
    (hn : n ∈ a.targets) (htarget : targetOf (strip b a) (.val (.int n)) = some t) :
    targetOf b' (.val (.int n)) = some t ∧ targetCrc b' t = .int 0 := by
  cases t with
  | primary =>
      cases targetOf_primary htarget
      refine ⟨rfl, ?_⟩
      rw [h.bundle]
      show (if a.has (.int 0) = true then withoutCrc b.primary else b.primary).crcType = _
      rw [if_pos (AddBib.has_of_mem hn)]
      rfl
  | block x =>
      obtain ⟨v, hv, hzero, hx, hsame⟩ := targetOf_block htarget
      cases hv
      constructor
      · exact targetOf_of_mem (Bundle.pairwise_toObject.mp (h.typed ht hfits).numbers)
          (h.mem_blocks.mpr (Or.inl hx)) hzero hsame
      · obtain ⟨y, _, rfl⟩ := List.mem_map.mp hx
        rw [stripBlock_number] at hsame
        show (stripBlock a y).crcType = _
        rw [stripBlock, Cbor.sameKey_eq hsame, if_pos (AddBib.has_of_mem hn)]

theorem newBib_header (b : Bundle) (a : AddBib) (asb : Bytes) :
    SameHeader (bibHead (strip b a) a) (newBib b a asb) := ⟨rfl, rfl⟩

/-- **The new block passes.** -/
theorem Added.passes (h : Added H b b' a macs asb front payload)
    (ht : Bundle.Typed H.toNode b.toObject) (hfits : a.Fits b) (hmode : o.mode = a.mode) :
    BibPasses H o b' a.key (newBib b a asb) := by
  obtain ⟨source, hopens⟩ := h.opens
  refine ⟨_, _, hopens, rfl, fun i n hn => ?_⟩
  rw [List.getElem?_map, List.getElem?_map, Option.map_map] at hn
  obtain ⟨k, hk, rfl⟩ := Option.map_eq_some_iff.mp hn
  obtain ⟨r, hr, hresult⟩ := exists_at h.results hk
  unfold bibResult at hresult
  split at hresult
  · cases hresult
  · rename_i t htarget
    split at hresult
    · cases hresult
    · obtain ⟨p, hp, hresult⟩ := Outcome.bind_eq_ok.mp hresult
      obtain ⟨m, hm, hresult⟩ := Outcome.bind_eq_ok.mp hresult
      obtain ⟨hfound, hcrc⟩ := h.covered ht hfits (List.mem_of_getElem? hk) htarget
      have hr : macs[i]? = some (.array [.array [.int 1, .bytes m]]) := by
        rw [hr, ← Except.ok.inj hresult]
      refine ⟨t, m, ⟨hfound, fun hno => hno.2 hcrc⟩,
        ⟨.val (.array [.array [.int 1, .bytes m]]), .array [.int 1, .bytes m], ?_, rfl, ?_⟩, Or.inl ?_⟩
      · show resultsAt (.array macs) i = .ok (.val (.array [.array [.int 1, .bytes m]]))
        rw [resultsAt, Cbor.index, hr]
        rfl
      · rfl
      · have hkept : ∀ raw, primaryBytes H (strip b a) = .ok raw → primaryBytes H b' = .ok raw :=
          fun raw hraw => h.primary_written ht hfits hraw
        have hp' := ippt_kept (.refl t) (newBib_header b a asb) (fun _ => hkept) hp
        rw [macOf, hmode]
        show (ippt H b' t (newBib b a asb) (.int a.scope) a.mode false >>= _) = _
        rw [hp', Outcome.ok_bind]
        exact hm

/-! ## The blocks of before -/

theorem stripBlock_same (a : AddBib) (x : Block) : SameBib x (stripBlock a x) :=
  ⟨⟨stripBlock_number a x, congrArg (fun v => JsVal.orElse (some v) _) (stripBlock_flags a x)⟩,
    stripBlock_data a x⟩

theorem Added.mem_bibsOf (h : Added H b b' a macs asb front payload) {x : Block} :
    x ∈ bibsOf b' ↔ (∃ bib ∈ bibsOf b, x = stripBlock a bib) ∨ x = newBib b a asb := by
  have hold : (x ∈ (strip b a).blocks ∧ x.type = bibType) ↔ ∃ bib ∈ bibsOf b, x = stripBlock a bib := by
    constructor
    · rintro ⟨hx, htype⟩
      obtain ⟨y, hy, rfl⟩ := List.mem_map.mp hx
      rw [stripBlock_type] at htype
      exact ⟨y, List.mem_filter.mpr ⟨hy, decide_eq_true htype⟩, rfl⟩
    · rintro ⟨y, hy, rfl⟩
      obtain ⟨hy, htype⟩ := List.mem_filter.mp hy
      refine ⟨List.mem_map_of_mem hy, ?_⟩
      rw [stripBlock_type]
      exact of_decide_eq_true htype
  rw [bibsOf, List.mem_filter, decide_eq_true_iff, h.mem_blocks, ← hold]
  constructor
  · rintro ⟨hx | hx, htype⟩
    · exact Or.inl ⟨hx, htype⟩
    · exact Or.inr hx
  · rintro (⟨hx, htype⟩ | rfl)
    · exact ⟨Or.inl hx, htype⟩
    · exact ⟨Or.inr rfl, rfl⟩

/-- No BIB of before lists a target of the call. -/
def Unlisted (H : BibHost) (b : Bundle) (a : AddBib) : Prop :=
  ∀ bib ∈ bibsOf b, ∀ c, Opens H a.key bib c → ∀ ns, elements c.asb.targets = .ok ns →
    ∀ n ∈ a.targets, Slot.val (.int n) ∉ ns

theorem AddBib.mem_of_has {v : Cbor} (h : a.has v = true) : ∃ n ∈ a.targets, Cbor.int n = v := by
  obtain ⟨n, hn, hv⟩ := List.any_eq_true.mp h
  exact ⟨n, hn, of_decide_eq_true hv⟩

/-- **What a BIB of before targets is left as it is**, headers and data. -/
theorem Added.target_kept (h : Added H b b' a macs asb front payload)
    (ht : Bundle.Typed H.toNode b.toObject) (hfits : a.Fits b) {ns : List Slot}
    (hunlisted : ∀ n ∈ a.targets, Slot.val (.int n) ∉ ns) {n : Slot} (hn : n ∈ ns) {t : Target}
    (htarget : targetOf b n = some t) : targetOf b' n = some t ∧ targetCrc b' t = targetCrc b t := by
  cases t with
  | primary =>
      cases targetOf_primary htarget
      have hzero : a.has (.int 0) = false := by
        by_contra hhas
        obtain ⟨k, hk, hv⟩ := AddBib.mem_of_has (Bool.not_eq_false _ ▸ hhas)
        exact hunlisted k hk (hv ▸ hn)
      refine ⟨rfl, ?_⟩
      rw [h.bundle]
      show (if a.has (.int 0) = true then withoutCrc b.primary else b.primary).crcType = _
      rw [hzero]
      rfl
  | block x =>
      obtain ⟨v, rfl, hzero, hx, hsame⟩ := targetOf_block htarget
      have huntargeted : a.has x.number = false := by
        by_contra hhas
        obtain ⟨k, hk, hv⟩ := AddBib.mem_of_has (Bool.not_eq_false _ ▸ hhas)
        rw [Cbor.sameKey_eq hsame] at hv
        exact hunlisted k hk (hv ▸ hn)
      refine ⟨?_, rfl⟩
      refine targetOf_of_mem (Bundle.pairwise_toObject.mp (h.typed ht hfits).numbers) ?_ hzero hsame
      rw [← stripBlock_untargeted huntargeted]
      exact h.mem_blocks.mpr (Or.inl (List.mem_map_of_mem hx))

/-- The bundle with the CRC of its primary block taken off. -/
def bare (b : Bundle) : Bundle := { b with primary := withoutCrc b.primary }

/-- Of the primary block, the result has what the bundle with, or without, its CRC has. -/
theorem Added.fronted (h : Added H b b' a macs asb front payload)
    (ht : Bundle.Typed H.toNode b.toObject) (hfits : a.Fits b) {raw : Bytes} :
    primaryBytes H (if a.has (.int 0) then bare b else b) = .ok raw →
      primaryBytes H b' = .ok raw := by
  intro hraw
  have hstrip : (strip b a).primary = (if a.has (.int 0) then bare b else b).primary ∧
      (if a.has (.int 0) then bare b else b).blocks = b.blocks := by
    unfold strip bare
    split <;> exact ⟨rfl, rfl⟩
  have htyped : Bundle.Typed H.toNode (if a.has (.int 0) then bare b else b).toObject := by
    split
    · exact typed_withoutCrc ht
    · exact ht
  obtain ⟨hprimary, hdata, hpayload⟩ := (primaryBytes_iff htyped).mp hraw
  rw [hstrip.2] at hdata hpayload
  apply h.primary_written ht hfits
  refine (primaryBytes_iff (typed_strip ht)).mpr ⟨?_, ?_, ?_⟩
  · rw [hstrip.1]
    exact hprimary
  · intro y hy
    obtain ⟨x, hx, rfl⟩ := List.mem_map.mp hy
    rw [stripBlock_data]
    exact hdata x hx
  · show (b.blocks.map (stripBlock a)).getLast?.map Block.type = _
    rw [List.getLast?_map, Option.map_map, ← hpayload]
    exact congrArg (Option.map · _) (funext (stripBlock_type a))

theorem AddBib.has_iff {n : Int} : a.has (.int n) = true ↔ n ∈ a.targets := by
  refine ⟨fun h => ?_, AddBib.has_of_mem⟩
  obtain ⟨m, hm, heq⟩ := AddBib.mem_of_has h
  exact Cbor.int.inj heq ▸ hm

/-- The call takes a CRC off the primary block. -/
def Uncovers (b : Bundle) (a : AddBib) : Prop := 0 ∈ a.targets ∧ b.primary.crcType ≠ .int 0

/-- The primary block is written as before, unless its CRC is taken off. -/
theorem Added.primary_kept (h : Added H b b' a macs asb front payload)
    (ht : Bundle.Typed H.toNode b.toObject) (hfits : a.Fits b) (hcovered : ¬ Uncovers b a) {raw : Bytes}
    (hraw : primaryBytes H b = .ok raw) : primaryBytes H b' = .ok raw := by
  apply h.fronted ht hfits
  split
  · rename_i hzero
    have hcrc : b.primary.crcType = .int 0 :=
      not_not.mp fun hne => hcovered ⟨AddBib.has_iff.mp hzero, hne⟩
    rw [bare, withoutCrc, ← hcrc]
    exact hraw
  · exact hraw

/-- A BIB of before does not see that the primary block loses its CRC: each MAC that takes the primary
block in comes out the same. -/
def Unseen (H : BibHost) (o : Options) (b : Bundle) (a : AddBib) : Prop :=
  ∀ bib ∈ bibsOf b, ∀ c, Opens H a.key bib c → ∀ ns, elements c.asb.targets = .ok ns →
    ∀ n ∈ ns, ∀ x, targetOf b n = some (.block x) → inScope H c.asb.scope 1 →
      macOf H o (bare b) c (.block x) false = macOf H o b c (.block x) false

/-- The primary block without its CRC is written where it is written with it. -/
theorem bare_written (ht : Bundle.Typed H.toNode b.toObject) {raw : Bytes}
    (hraw : primaryBytes H b = .ok raw) : ∃ raw', primaryBytes H (bare b) = .ok raw' := by
  obtain ⟨hprimary, hdata, hpayload⟩ := (primaryBytes_iff ht).mp hraw
  obtain ⟨raw', hraw'⟩ := Bundle.encodePrimary_bare hprimary
  exact ⟨raw', (primaryBytes_iff (typed_withoutCrc ht)).mpr ⟨hraw', hdata, hpayload⟩⟩

/-- Bytes of the bundle without the CRC are those of the result. -/
theorem Added.bare_kept (h : Added H b b' a macs asb front payload)
    (ht : Bundle.Typed H.toNode b.toObject) (hfits : a.Fits b) (hzero : 0 ∈ a.targets) {raw : Bytes}
    (hraw : primaryBytes H (bare b) = .ok raw) : primaryBytes H b' = .ok raw := by
  apply h.fronted ht hfits
  rw [if_pos (AddBib.has_of_mem hzero)]
  exact hraw

theorem Stated.unique {i : Nat} {got got' : Bytes} {c : Context} (h : Stated H c i got)
    (h' : Stated H c i got') : got = got' := by
  obtain ⟨rs, r, hrs, hr, hgot⟩ := h
  obtain ⟨rs', r', hrs', hr', hgot'⟩ := h'
  rw [hrs, Except.ok.injEq] at hrs'
  subst hrs'
  rw [hr, Except.ok.injEq, Option.some.injEq] at hr'
  subst hr'
  rw [hgot, Except.ok.injEq] at hgot'
  exact hgot'

/-- **An earlier BIB passes in the result** where it does not see the difference. -/
theorem Added.kept (h : Added H b b' a macs asb front payload)
    (ht : Bundle.Typed H.toNode b.toObject) (hfits : a.Fits b) (hunlisted : Unlisted H b a)
    (hunseen : Uncovers b a → Unseen H o b a) {bib : Block} (hbib : bib ∈ bibsOf b)
    (hpass : BibPasses H o b a.key bib) : BibPasses H o b' a.key (stripBlock a bib) := by
  obtain ⟨c, ns, hopens, hns, hall⟩ := hpass
  have hsame : SameHeader c.bib (stripBlock a bib) :=
    hopens.2.2.2 ▸ (stripBlock_same a bib).toSameHeader
  refine ⟨_, ns, hopens.withBib (stripBlock_same a bib), hns, fun i n hn => ?_⟩
  have hmem := List.mem_of_getElem? hn
  have htargets : TargetKept b b' n := fun t htarget => by
    obtain ⟨hfound, hcrc⟩ := h.target_kept ht hfits (hunlisted bib hbib c hopens ns hns) hmem htarget
    exact ⟨t, hfound, .refl t, fun hzero => hcrc.trans hzero⟩
  by_cases huncovers : Uncovers b a
  · obtain ⟨t, got, ⟨hfound, hcrc⟩, hstated, hmatch⟩ := hall i n hn
    have hfirst : TakesPrimary H t c.asb.scope → ∃ x, t = .block x ∧ inScope H c.asb.scope 1 := by
      rintro (rfl | hscope)
      · cases targetOf_primary hfound
        exact absurd hmem (hunlisted bib hbib c hopens ns hns 0 huncovers.1)
      · cases t with
        | primary =>
            cases targetOf_primary hfound
            exact absurd hmem (hunlisted bib hbib c hopens ns hns 0 huncovers.1)
        | block x => exact ⟨x, rfl, hscope⟩
    by_cases htakes : TakesPrimary H t c.asb.scope
    · obtain ⟨x, rfl, hscope⟩ := hfirst htakes
      have hmac : macOf H o b c (.block x) false = .ok got := by
        rcases hmatch with hmac | ⟨hprimary, -⟩
        · exact hmac
        · cases hprimary
      rw [← hunseen huncovers bib hbib c hopens ns hns n hmem x hfound hscope] at hmac
      obtain ⟨hfound', hcrc'⟩ := h.target_kept ht hfits (hunlisted bib hbib c hopens ns hns) hmem hfound
      refine ⟨.block x, got, ⟨hfound', by rwa [hcrc']⟩, hstated, Or.inl ?_⟩
      exact macOf_kept (.refl _) hsame (fun _ raw hraw => h.bare_kept ht hfits huncovers.1 hraw) hmac
    · refine TargetPasses.kept ⟨t, got, ⟨hfound, hcrc⟩, hstated, hmatch⟩ hsame htargets ?_
      intro t' ht' htakes'
      rw [hfound, Option.some.injEq] at ht'
      exact absurd (ht' ▸ htakes') htakes
  · exact (hall i n hn).kept hsame htargets fun _ _ _ _ hraw => h.primary_kept ht hfits huncovers hraw

/-- **An earlier BIB that passes before and after does not see the difference.** -/
theorem Added.unseen (h : Added H b b' a macs asb front payload)
    (ht : Bundle.Typed H.toNode b.toObject) (hfits : a.Fits b) (hunlisted : Unlisted H b a)
    (hzero : 0 ∈ a.targets) (hbefore : ∀ bib ∈ bibsOf b, BibPasses H o b a.key bib)
    (hafter : ∀ bib ∈ bibsOf b', BibPasses H o b' a.key bib) : Unseen H o b a := by
  intro bib hbib c hopens ns hns n hmem x hfound hscope
  obtain ⟨i, hn⟩ := List.mem_iff_getElem?.mp hmem
  have hbefore := hbefore bib hbib
  have hafter := hafter _ (h.mem_bibsOf.mpr (Or.inl ⟨bib, hbib, rfl⟩))
  obtain ⟨c₁, ns₁, hopens₁, hns₁, hall₁⟩ := hbefore
  obtain ⟨c₂, ns₂, hopens₂, hns₂, hall₂⟩ := hafter
  obtain rfl := hopens.unique hopens₁
  obtain rfl := (hopens.withBib (stripBlock_same a bib)).unique hopens₂
  rw [hns, Except.ok.injEq] at hns₁
  subst hns₁
  have hns₂ : elements c.asb.targets = .ok ns₂ := hns₂
  rw [hns, Except.ok.injEq] at hns₂
  subst hns₂
  obtain ⟨t, got, ⟨ht₁, -⟩, hstated, hmatch⟩ := hall₁ i n hn
  obtain ⟨t', got', ⟨ht₂, -⟩, hstated', hmatch'⟩ := hall₂ i n hn
  rw [hfound, Option.some.injEq] at ht₁
  subst ht₁
  rw [(h.target_kept ht hfits (hunlisted bib hbib c hopens ns hns) hmem hfound).1,
    Option.some.injEq] at ht₂
  subst ht₂
  obtain rfl : got = got' := hstated.unique hstated'
  have hmac : macOf H o b c (.block x) false = .ok got := by
    rcases hmatch with hmac | ⟨hprimary, -⟩
    · exact hmac
    · cases hprimary
  have hmac' : macOf H o b' (c.withBib (stripBlock a bib)) (.block x) false = .ok got := by
    rcases hmatch' with hmac | ⟨hprimary, -⟩
    · exact hmac
    · cases hprimary
  -- The plaintext takes in the primary block, so the bundle is written, and without the CRC too.
  obtain ⟨p, hp, -⟩ := Outcome.bind_eq_ok.mp hmac
  have hwritten := (returns_ippt.mp ⟨p, hp⟩).header x rfl |>.1 hscope
  obtain ⟨raw, hraw⟩ := hwritten
  obtain ⟨raw', hraw'⟩ := bare_written ht hraw
  have hresult := h.bare_kept ht hfits hzero hraw'
  have hsame : SameHeader (c.withBib (stripBlock a bib)).bib c.bib := by
    have hback := stripBlock_same a bib
    have hbib' : c.bib = bib := hopens.2.2.2
    rw [hbib']
    exact ⟨hback.number.symm, Eq.symm hback.flags⟩
  have hback : ∀ q, primaryBytes H b' = .ok q → primaryBytes H (bare b) = .ok q := by
    intro q hq
    rw [hresult, Except.ok.injEq] at hq
    rw [hraw', hq]
  have hbare := macOf_kept (.refl _) hsame (fun _ => hback) hmac'
  rw [hmac]
  exact hbare

/-- **When the resulting bundle verifies**: unless the call takes the CRC off the primary block where an
earlier BIB covers that with its scope flags and its MAC sees the difference. -/
theorem addBib_verifies_iff (H : BibHost) (b b' : Bundle) (a : AddBib) (o : Options)
    (ht : Bundle.Typed H.toNode b.toObject) (hfits : a.Fits b) (hmode : o.mode = a.mode)
    (hbefore : bibsOf b = [] ∨
      ∃ bibs fallbacks, verifyBibs H b a.key o = .ok (.ok bibs fallbacks))
    (hunlisted : Unlisted H b a) (hadd : addBib H b a = .ok b') :
    (∃ bibs fallbacks, verifyBibs H b' a.key o = .ok (.ok bibs fallbacks)) ↔
      (0 ∈ a.targets ∧ b.primary.crcType ≠ .int 0 → Unseen H o b a) := by
  obtain ⟨macs, asb, front, payload, h⟩ := addBib_ok hadd
  have hall : ∀ bib ∈ bibsOf b, BibPasses H o b a.key bib := by
    rcases hbefore with hnone | hok
    · rw [hnone]
      intro bib hbib
      cases hbib
    · exact (verifyBibs_ok_iff.mp hok).2
  rw [verifyBibs_ok_iff]
  constructor
  · rintro ⟨-, hafter⟩ ⟨hzero, -⟩
    exact h.unseen ht hfits hunlisted hzero hall hafter
  · intro hunseen
    refine ⟨List.ne_nil_of_mem (h.mem_bibsOf.mpr (Or.inr rfl)), fun bib' hbib' => ?_⟩
    rcases h.mem_bibsOf.mp hbib' with ⟨bib, hbib, rfl⟩ | rfl
    · exact h.kept ht hfits hunlisted hunseen hbib (hall bib hbib)
    · exact h.passes ht hfits hmode

/-! ## A BIB over the payload, and one over the primary block -/

/-- A runtime whose MACs differ wherever the keys or the data do. -/
def keyedBibHost : BibHost where
  toNode := sampleNode
  hmac _ key data := sampleHash (sampleHash key ++ data)
  unwrap _ _ _ := none

/-- A bundle whose primary block has a CRC, as the encoder gives it one. -/
def sampleUnsigned : Bundle where
  primary := ⟨.int 0, .int 2, "ipn:9.0", "ipn:5.0", "dtn:none", (.val (.int 1), .val (.int 0)), .int 1000,
    none, none⟩
  blocks := [⟨.int 1, .int 1, .int 0, .int 0, [7]⟩]

/-- The payload, with all that the scope flags take in. -/
def payloadBib : AddBib := { targets := [1], key := [3], source := "ipn:5.0" }

def primaryBib : AddBib := { targets := [0], key := [3], source := "ipn:5.0" }

def sampleCovered : Bundle := (addBib keyedBibHost sampleUnsigned payloadBib).toOption.getD sampleUnsigned

def sampleTwice : Bundle := (addBib keyedBibHost sampleCovered primaryBib).toOption.getD sampleUnsigned

theorem sampleUnsigned_typed : Bundle.Typed sampleNode sampleUnsigned.toObject := by
  have hint : ∀ z : Int, -18446744073709551616 ≤ z → z < 18446744073709551616 →
      Bundle.IntField (.int z) := fun z hlo hhi => ⟨z, rfl, hlo, hhi⟩
  refine ⟨⟨0, rfl, by decide⟩, by decide +kernel, ⟨_, _, rfl, hint _ (by decide) (by decide),
    hint _ (by decide) (by decide)⟩, ⟨_, rfl, hint _ (by decide) (by decide)⟩, ?_, ?_, by decide +kernel⟩
  · intro frag hfrag
    have hzero : Bundle.fragmentBit sampleNode (some (Bundle.primaryFlags
        sampleUnsigned.toObject.primary)) = .ok 0 := by decide +kernel
    rw [hzero] at hfrag
    cases hfrag
    exact ⟨rfl, rfl⟩
  · intro x hx
    obtain rfl := List.mem_singleton.mp hx
    exact ⟨⟨_, rfl, hint _ (by decide) (by decide)⟩, ⟨_, rfl, hint _ (by decide) (by decide)⟩,
      hint _ (by decide) (by decide), by decide +kernel⟩

/-- The two calls, one after the other, with the block numbers they take and what is verified between. -/
theorem sample_calls : addBib keyedBibHost sampleUnsigned payloadBib = .ok sampleCovered ∧
    addBib keyedBibHost sampleCovered primaryBib = .ok sampleTwice ∧
    newNumber sampleUnsigned payloadBib = 2 ∧ newNumber sampleCovered primaryBib = 3 ∧
    (bibsOf sampleCovered).mapM (fun bib => do
      return (← parseAsb keyedBibHost bib.data).targets) = .ok [.array [.int 1]] ∧
    verifyBibs keyedBibHost sampleCovered primaryBib.key {} =
      .ok (.ok [⟨.int 2, "ipn:5.0", .array [.int 1]⟩] 0) ∧
    verifyBibs keyedBibHost sampleTwice primaryBib.key {} =
      .ok (.fail { reason := "mac_mismatch", bib := some (.int 2), target := some (.val (.int 1)) }) := by
  decide +kernel

theorem sampleCovered_added : addBib keyedBibHost sampleUnsigned payloadBib = .ok sampleCovered :=
  sample_calls.1

theorem sampleTwice_added : addBib keyedBibHost sampleCovered primaryBib = .ok sampleTwice :=
  sample_calls.2.1

theorem payloadBib_fits : payloadBib.Fits sampleUnsigned := by
  have hnumber := sample_calls.2.2.1
  refine ⟨⟨0, rfl, by decide, by decide⟩, List.mem_cons_self, ⟨_, rfl, ?_, ?_⟩, fun n hn => by cases hn⟩
  · rw [hnumber]
    decide
  · rw [hnumber]
    decide

theorem sampleCovered_typed : Bundle.Typed keyedBibHost.toNode sampleCovered.toObject := by
  obtain ⟨macs, asb, front, payload, h⟩ := addBib_ok sampleCovered_added
  exact h.typed sampleUnsigned_typed payloadBib_fits

theorem primaryBib_fits : primaryBib.Fits sampleCovered := by
  have hnumber := sample_calls.2.2.2.1
  refine ⟨⟨0, rfl, by decide, by decide⟩, List.mem_cons_self, ⟨_, rfl, ?_, ?_⟩, fun n hn => by cases hn⟩
  · rw [hnumber]
    decide
  · rw [hnumber]
    decide

/-- The only BIB of before lists the payload. -/
theorem primaryBib_unlisted : Unlisted keyedBibHost sampleCovered primaryBib := by
  have hall := Outcome.mapM_eq_ok sample_calls.2.2.2.2.1
  intro bib hbib c hopens ns hns n hn hmem
  obtain ⟨i, hi⟩ := List.mem_iff_getElem?.mp hbib
  obtain ⟨v, hv, hparsed⟩ := exists_at hall hi
  obtain rfl := List.mem_singleton.mp (List.mem_of_getElem? hv)
  obtain rfl := List.mem_singleton.mp hn
  rw [hopens.1] at hparsed
  have hlist : c.asb.targets = .array [.int 1] := Except.ok.inj hparsed
  rw [hlist] at hns
  cases hns
  simp at hmem

theorem sampleCovered_verifies : ∃ bibs fallbacks,
    verifyBibs keyedBibHost sampleCovered primaryBib.key {} = .ok (.ok bibs fallbacks) :=
  ⟨_, _, sample_calls.2.2.2.2.2.1⟩

theorem addBib_verifies_sample :
    (∃ bibs fallbacks, verifyBibs keyedBibHost sampleTwice primaryBib.key {} = .ok (.ok bibs fallbacks)) ↔
      (0 ∈ primaryBib.targets ∧ sampleCovered.primary.crcType ≠ .int 0 →
        Unseen keyedBibHost {} sampleCovered primaryBib) :=
  addBib_verifies_iff keyedBibHost sampleCovered sampleTwice primaryBib {} sampleCovered_typed
    primaryBib_fits rfl (Or.inr sampleCovered_verifies) primaryBib_unlisted sampleTwice_added

/-- **A BIB over the primary block breaks the one over the payload**, which covers the primary block with
its CRC. -/
theorem primaryBib_breaks :
    ∃ H b b' a, Bundle.Typed (BibHost.toNode H) (Bundle.toObject b) ∧ AddBib.Fits b a ∧
      (∃ bibs fallbacks, verifyBibs H b a.key {} = .ok (.ok bibs fallbacks)) ∧ Unlisted H b a ∧
        addBib H b a = .ok b' ∧
          ¬ ∃ bibs fallbacks, verifyBibs H b' a.key {} = .ok (.ok bibs fallbacks) := by
  refine ⟨keyedBibHost, sampleCovered, sampleTwice, primaryBib, sampleCovered_typed, primaryBib_fits,
    sampleCovered_verifies, primaryBib_unlisted, sampleTwice_added, ?_⟩
  have hverdict := sample_calls.2.2.2.2.2.2
  rintro ⟨bibs, fallbacks, hok⟩
  rw [hverdict] at hok
  cases hok

end Bpsec

end DtnCustody
