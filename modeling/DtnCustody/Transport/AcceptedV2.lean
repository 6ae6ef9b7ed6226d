/-
# DtnCustody.Transport.AcceptedV2 — what `verifyBundleV2` has checked when it accepts, and `stampBundleV2` of
`transport/bpv7/receipt-v2.mjs` with `putBlock` of `transport/bpv7/bundle.mjs`.

An accepting verdict is taken apart once (`accepts`): the bundle that was read, the receipts in its
block, the loop with its last state, the gap at the end and the revoked keys. `Accepted.receipt` is
then what is certain of each receipt, and of the state before and after it.

A custodian decodes the bundle, appends a receipt to block 224 and encodes the bundle again. The
block keeps its number, or takes the lowest one that is free; it goes directly before the payload.
-/
import DtnCustody.Transport.Encode
import DtnCustody.Transport.VerifyV2

namespace DtnCustody

open Base Js

namespace Js.Check

variable {ρ ι σ : Type}

/-- A loop that passes has come past every element, from one state to the next. -/
theorem passes_loop_split {turn : List ι → σ → ι → Check ρ σ} {front back : List ι} {x : ι}
    {s s' : σ} (h : (loop turn [] s (front ++ x :: back)).Passes s') :
    ∃ t t', (loop turn [] s front).Passes t ∧ (turn front t x).Passes t' ∧
      (loop turn (front ++ [x]) t' back).Passes s' := by
  rw [loop_append, passes_andThen] at h
  obtain ⟨t, ht, h⟩ := h
  rw [List.nil_append, loop, passes_andThen] at h
  obtain ⟨t', ht', h⟩ := h
  exact ⟨t, t', ht, ht', h⟩

end Js.Check

namespace ReceiptV2

variable {N : Node} {o : Options}

/-- The bundle that was read off the bytes, and the version 2 receipts in its block. -/
def Carries (N : Node) (bytes : Bytes) (b : Bundle) (items : List Cbor) : Prop :=
  Bundle.decodeBundle N bytes = .ok b ∧ readBlockItems b = .ok (.v2 items)

theorem Carries.unique {bytes : Bytes} {b b' : Bundle} {items items' : List Cbor}
    (h : Carries N bytes b items) (h' : Carries N bytes b' items') : b = b' ∧ items = items' := by
  obtain ⟨hb, hitems⟩ := h
  obtain ⟨hb', hitems'⟩ := h'
  rw [hb, Except.ok.injEq] at hb'
  subst hb'
  rw [hitems, Except.ok.injEq, BlockItems.v2.injEq] at hitems'
  exact ⟨rfl, hitems'⟩

/-- The receipts of a block were decoded together. -/
theorem decoded_of_readBlockItems {b : Bundle} {items : List Cbor}
    (h : readBlockItems b = .ok (.v2 items)) :
    items ≠ [] ∧ Cbor.Decoded Cbor.maxLevels (.array items) := by
  unfold readBlockItems at h
  split at h
  · cases h
  · obtain ⟨v, hv, h⟩ := Outcome.bind_eq_ok.mp h
    have hdec := Cbor.decode_decoded hv
    split at h
    · cases h
    · rename_i xs hne
      split at h
      · cases h
      · split at h
        · cases h
          exact ⟨fun hnil => hne (by rw [hnil]), hdec⟩
        · cases h
    · cases h
  · cases h

/-- The parts of an accepting verdict. -/
structure Accepted (N : Node) (o : Options) (b : Bundle) (items : List Cbor) (s : LoopState)
    (r : Report) : Prop where
  room : items.length ≤ maxReceipts
  route : ∀ hops, o.hops = some hops → hops.length = items.length
  identity : b.bundleIdentity N = .ok r.bundle
  loop : ∃ hash, b.payloadHash N = .ok hash ∧
    (checkReceipts N o r.bundle hash [] (initial o) items).Passes s
  gaps : ∃ last, lastGap N o b s = .ok last ∧ r.gaps = s.gaps ++ last
  revoked : ∃ witnessed, checkRevoked N o 0 (s.fields.zip s.keyState) = .inr witnessed ∧
    r.keys = o.keyring.map fun _ => (s.keyState, witnessed)
  custodied : r.custodied = items.length
  hashUnchecked : r.hashUnchecked = s.hashUnchecked

theorem any_length_ne {n : Nat} : ((o.hops.map List.length).any fun m => m ≠ n) = false ↔
    ∀ hops, o.hops = some hops → hops.length = n := by
  cases o.hops with
  | none => simp
  | some hops => simp

theorem finish_ok {id : Identity} {n : Nat} {s : LoopState} {gaps : List Gap} {r : Report} :
    finish N o id n s gaps = .ok r ↔ ∃ witnessed,
      checkRevoked N o 0 (s.fields.zip s.keyState) = .inr witnessed ∧
        r = { custodied := n, gaps := s.gaps ++ gaps, hashUnchecked := s.hashUnchecked,
              bundle := id, keys := o.keyring.map fun _ => (s.keyState, witnessed) } := by
  unfold finish
  rcases checkRevoked N o 0 (s.fields.zip s.keyState) with refusal | witnessed
  · simp
  · simp [eq_comm]

/-- **What was checked of the receipts that were read**, when the verdict accepts them. -/
theorem verifyItems_accepts {b : Bundle} {items : List Cbor} {r : Report}
    (hroom : items.length ≤ maxReceipts) :
    verifyItems N o b items = .ok (.ok r) ↔ ∃ s, Accepted N o b items s r := by
  constructor
  · intro h
    obtain ⟨id, hid, h⟩ := Outcome.bind_eq_ok.mp h
    obtain ⟨hash, hhash, h⟩ := Outcome.bind_eq_ok.mp h
    split at h
    · cases h
    · rename_i hroute
      obtain ⟨verdict, hloop, h⟩ := Outcome.bind_eq_ok.mp h
      cases verdict with
      | inl refusal => cases h
      | inr s =>
          obtain ⟨gaps, hgaps, h⟩ := Outcome.bind_eq_ok.mp h
          simp only [Outcome.pure_eq_ok, Except.ok.injEq] at h
          obtain ⟨witnessed, hrevoked, rfl⟩ := finish_ok.mp h
          rw [Bool.not_eq_true] at hroute
          exact ⟨s, hroom, any_length_ne.mp hroute, hid, ⟨hash, hhash, hloop⟩, ⟨gaps, hgaps, rfl⟩,
            ⟨witnessed, hrevoked, rfl⟩, rfl, rfl⟩
  · rintro ⟨s, h⟩
    obtain ⟨hash, hhash, hloop⟩ := h.loop
    obtain ⟨last, hlast, hgaps⟩ := h.gaps
    obtain ⟨witnessed, hrevoked, hkeys⟩ := h.revoked
    unfold Check.Passes at hloop
    rw [verifyItems, h.identity, Outcome.ok_bind, hhash, Outcome.ok_bind,
      if_neg (by rw [any_length_ne.mpr h.route]; exact Bool.false_ne_true), hloop, Outcome.ok_bind]
    show (lastGap N o b s >>= fun gaps => pure (finish N o r.bundle items.length s gaps)) = _
    rw [hlast, Outcome.ok_bind, Outcome.pure_eq_ok, Except.ok.injEq]
    apply finish_ok.mpr
    refine ⟨witnessed, hrevoked, ?_⟩
    cases r
    simp only [Report.mk.injEq]
    exact ⟨h.custodied, hgaps, h.hashUnchecked, trivial, hkeys⟩

/-- **What an accepting verdict has checked**: the bytes hold a bundle with version 2 receipts, and
they passed. -/
theorem accepts {bytes : Bytes} {r : Report} :
    verifyBundleV2 N bytes o = .ok (.ok r) ↔
      ∃ b items s, Carries N bytes b items ∧ Accepted N o b items s r := by
  constructor
  · intro h
    unfold verifyBundleV2 at h
    split at h
    · cases h
    · rename_i b hb
      split at h
      · cases h
      · cases h
      · cases h
      · rename_i items hitems
        split at h
        · cases h
        · rename_i hroom
          obtain ⟨s, hs⟩ := (verifyItems_accepts (not_lt.mp hroom)).mp h
          exact ⟨b, items, s, ⟨hb, hitems⟩, hs⟩
  · rintro ⟨b, items, s, ⟨hb, hitems⟩, hs⟩
    rw [verifyBundleV2, hb]
    dsimp only
    rw [hitems]
    dsimp only
    rw [if_neg (not_lt.mpr hs.room)]
    exact (verifyItems_accepts hs.room).mpr ⟨s, hs⟩

/-! ## One receipt -/

/-- What has passed of one receipt: its checks in turn, and the state it leaves. -/
structure ReceiptPassed (N : Node) (o : Options) (id : Identity) (hash : Bytes) (before : List Cbor)
    (s : LoopState) (item : Cbor) (f : Fields) (keys : List KeyState) (unchecked : Bool)
    (gaps : List Gap) : Prop where
  fields : receiptFields item = .ok f
  chain : (checkChain N before f).Passes ()
  key : (checkKey N o item f).Passes keys
  route : (checkRoute o before.length f).Passes ()
  bundle : (checkBundle N id hash f).Passes unchecked
  gap : (checkGap N o s f).Passes gaps

theorem checkReceipt_passes {id : Identity} {hash : Bytes} {before : List Cbor}
    {s s' : LoopState} {item : Cbor} : (checkReceipt N o id hash before s item).Passes s' ↔
      ∃ f keys unchecked gaps, ReceiptPassed N o id hash before s item f keys unchecked gaps ∧
        s' = s.next before.length f keys unchecked gaps := by
  unfold checkReceipt
  cases hf : receiptFields item with
  | error e =>
      dsimp only
      constructor
      · intro h
        exact absurd h Check.not_passes_refuse
      · rintro ⟨f, _, _, _, h, _⟩
        have := h.fields
        rw [hf] at this
        cases this
  | ok f =>
      dsimp only
      rw [Check.passes_orRefuse]
      simp only [checkFields, Check.passes_andThen, Check.passes_pass]
      constructor
      · rintro ⟨_, hchain, keys, hkey, _, hroute, unchecked, hbundle, gaps, hgap, rfl⟩
        exact ⟨f, keys, unchecked, gaps, ⟨hf, hchain, hkey, hroute, hbundle, hgap⟩, rfl⟩
      · rintro ⟨f', keys, unchecked, gaps, h, rfl⟩
        have hsame := h.fields
        rw [hf, Except.ok.injEq] at hsame
        subst hsame
        exact ⟨(), h.chain, keys, h.key, (), h.route, unchecked, h.bundle, gaps, h.gap, rfl⟩

/-- **What is certain of each receipt of an accepted bundle**, with the states before and after. -/
theorem Accepted.receipt {b : Bundle} {front back : List Cbor} {item : Cbor} {s : LoopState}
    {r : Report} (h : Accepted N o b (front ++ item :: back) s r) :
    ∃ hash t f keys unchecked gaps, b.payloadHash N = .ok hash ∧
      (checkReceipts N o r.bundle hash [] (initial o) front).Passes t ∧
      ReceiptPassed N o r.bundle hash front t item f keys unchecked gaps ∧
      (Check.loop (checkReceipt N o r.bundle hash) (front ++ [item])
        (t.next front.length f keys unchecked gaps) back).Passes s := by
  obtain ⟨hash, hhash, hloop⟩ := h.loop
  obtain ⟨t, t', ht, hturn, hback⟩ := Check.passes_loop_split hloop
  obtain ⟨f, keys, unchecked, gaps, hpassed, rfl⟩ := checkReceipt_passes.mp hturn
  exact ⟨hash, t, f, keys, unchecked, gaps, hhash, ht, hpassed, hback⟩

end ReceiptV2

end DtnCustody

namespace DtnCustody

open Base Js

namespace Bundle

/-! ## Putting a block in -/

/-- `while (used.has(n)) n++`. Of the numbers from `n` on, no more than `used` holds can be taken, so
with `fuel` as long as `used` the search ends at a free one. -/
def freeNumber (used : List Cbor) : (fuel : Nat) → (n : Nat) → Nat
  | 0, n => n
  | fuel + 1, n => if .int n ∈ used then freeNumber used fuel (n + 1) else n

/-- The lowest free block number above 1. -/
def nextBlockNumber (b : Bundle) : Nat :=
  freeNumber (b.blocks.map Block.number) b.blocks.length 2

/-- The number that a block of this type has, or gets. -/
def numberFor (b : Bundle) (type : Cbor) : Cbor :=
  match b.blocks.find? fun x => x.type = type with
  | some existing => existing.number
  | none => .int (nextBlockNumber b)

/-- `putBlock(bundle, block)`, with the number of the block still to be found. Where no other block
is left, `undefined` is put behind it, and the encoder throws. -/
def putBlock (b : Bundle) (type flags crcType : Cbor) (data : Bytes) : Outcome Bundle :=
  match (b.blocks.filter fun x => x.type ≠ type).getLast? with
  | some payload =>
      .ok { b with blocks := (b.blocks.filter fun x => x.type ≠ type).dropLast ++
                     [{ type, number := numberFor b type, flags, crcType, data }, payload] }
  | none => .error .typeError

end Bundle

namespace ReceiptV2

/-! ## Stamping -/

/-- `{ prevHop, receivedAt, forwardedAt, subject, chain = false, hops = false, hopsReleased }`. -/
structure StampOptions where
  prevHop : Option String := none
  receivedAt : JsVal
  forwardedAt : JsVal
  subject : JsVal := none
  chain : Bool := false
  hops : Bool := false
  hopsReleased : JsVal := none

/-- `{ kp: { priv }, eid }`; the public key is not used in signing. -/
structure Relay where
  priv : Bytes
  eid : String

/-- The items of a block that a version 2 receipt can go into. -/
def stampItems (b : Bundle) : Outcome (List Cbor) := do
  match ← readBlockItems b with
  | .none => return []
  | .v1 _ => .error (.error "block 224 holds version 1 receipts; a block holds one version")
  | .v2 items => return items

def prevHopUnknown : Err :=
  .error "previous hop unknown: no Previous Node block and none supplied"

/-- `prevHop ?? previousNode(bundle)`, which must not be empty. -/
def stampPrev (o : StampOptions) (b : Bundle) : Outcome String := do
  let prev ← match o.prevHop with
    | some eid => pure (some eid)
    | none => b.previousNode
  match prev with
  | some eid => if eid = "" then .error prevHopUnknown else return eid
  | none => .error prevHopUnknown

/-- Field 8, where the counts are asked for and the block is there. -/
def stampHops (o : StampOptions) (b : Bundle) : Outcome (List (Cbor × Cbor)) :=
  if o.hops then do
    match ← hopCountOf b with
    | some hc =>
        let released ← (Slot.ofJsVal (nullish o.hopsReleased (some (.int hc)))).toCbor
        return [(.int 8, .array [.int hc, released])]
    | none => return []
  else .ok []

variable (N : Node)

/-- Field 9. -/
def stampChain (o : StampOptions) (items : List Cbor) : Outcome (List (Cbor × Cbor)) :=
  if o.chain then do return [(.int 9, .bytes (← chainDigest N items))] else .ok []

def subjectField (o : StampOptions) : List (Cbor × Cbor) :=
  match o.subject with
  | some subject => [(.int 7, subject)]
  | none => []

/-- The fields a custodian signs, in the order they are set. -/
def stampFields (eid : String) (o : StampOptions) (b : Bundle) (items : List Cbor) :
    Outcome (List (Cbor × Cbor)) := do
  let prev ← stampPrev o b
  let id ← (← b.bundleIdentity N).toCbor
  let hash ← b.payloadHash N
  let received ← (Slot.ofJsVal o.receivedAt).toCbor
  let forwarded ← (Slot.ofJsVal o.forwardedAt).toCbor
  let hops ← stampHops o b
  let chain ← stampChain N o items
  return [(.int 1, .text prev), (.int 2, .text eid), (.int 3, id), (.int 4, .bytes hash),
    (.int 5, received), (.int 6, forwarded)] ++ subjectField o ++ hops ++ chain

/-- The receipt for a bundle as held, signed. -/
def stampReceipt (relay : Relay) (o : StampOptions) (b : Bundle) (items : List Cbor) :
    Outcome Cbor := do
  let fields ← stampFields N relay.eid o b items
  Cose.sign1 N relay.priv (← Cbor.encode (.map fields))

/-- The bundle with the receipts in its block: replicated in every fragment, under a CRC-32C. -/
def putReceipts (b : Bundle) (items : List Cbor) : Outcome Bundle := do
  b.putBlock custodyBlockType (.int 1) (.int 2) (← Cbor.encode (.array items))

/-- `stampBundleV2(bytes, relay, options)`. -/
def stampBundleV2 (bytes : Bytes) (relay : Relay) (o : StampOptions) : Outcome Bytes := do
  let b ← Bundle.decodeBundle N bytes
  let items ← stampItems b
  if maxReceipts ≤ items.length then
    .error (.error s!"custody block full ({maxReceipts} receipts)")
  else do
    let receipt ← stampReceipt N relay o b items
    Bundle.encodeBundle N (← putReceipts b (items ++ [receipt])).toObject

/-! ## A bundle to stamp -/

/-- A bundle from `ipn:5.0` with a payload of one byte, the extension blocks given, and a Hop Count
block that says `hops`. -/
def sampleBundle (hops : Nat) (extensions : List BlockObject := []) : BundleObject where
  primary := { crcType := some (.int 0), dest := "ipn:9.0", source := "ipn:5.0",
               created := (.val (.int 1), .val (.int 0)), lifetime := some (.int 1000) }
  blocks := extensions ++
    [{ type := some (.int 10), number := some (.int 2), data := [0x82, 20, UInt8.ofNat hops] },
     { type := some (.int 1), number := some (.int 1), data := [7] }]

/-- The custodian `ipn:n.0` with the key `n`. -/
def sampleRelay (n : UInt8) : Relay := ⟨(Keyring.samplePair n).priv, s!"ipn:{n}.0"⟩

/-- A stamp of that custodian at time `10 n`, with both optional fields. -/
def sampleStamp (n : UInt8) (prev : String) : Relay × StampOptions :=
  (sampleRelay n, { prevHop := some prev, receivedAt := some (.int (10 * n.toNat)),
                    forwardedAt := some (.int (10 * n.toNat + 1)), chain := true, hops := true })

/-- The receipts of the custodians, each for the bundle with the count that it saw. -/
def sampleReceipts (stamps : List (Nat × Relay × StampOptions)) : Outcome (List Cbor) :=
  stamps.foldlM (fun items p => do
    return items ++ [← stampReceipt sampleNode p.2.1 p.2.2 (sampleBundle p.1).filled items]) []

/-- The sample bundle with these receipts, as bytes; none where a stamp throws. -/
def sampleCarried (hops : Nat) (stamps : List (Nat × Relay × StampOptions)) : Bytes :=
  (do let data ← Cbor.encode (.array (← sampleReceipts stamps))
      Bundle.encodeBundle sampleNode (sampleBundle hops
        [{ type := some custodyBlockType, number := some (.int 3), data }]) : Outcome Bytes)
    |>.toOption.getD []

/-- The keys of the custodians `ipn:1.0` to `ipn:3.0`, pinned, and the source. -/
def sampleOptions : Options where
  keys := [1, 2, 3].map fun n : UInt8 => ((sampleRelay n).eid, (Keyring.samplePair n).pub)
  origin := some "ipn:5.0"

end ReceiptV2

end DtnCustody
