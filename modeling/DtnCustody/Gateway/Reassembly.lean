/-
# DtnCustody.Gateway.Reassembly — `Gateway._reassemble` of `gateway/gateway.mjs`.

Fragments are kept by source and creation timestamp until their offsets, in order, reach the total
length without a hole. The decoder lets any item stand for an offset or a total, so everything here is
done with the operators of the language; offsets that `a - b` does not put into one order are sorted as
an insertion sort does.

A step changes the state before some of the places where it throws, so it returns a state with either
outcome. Whatever arrives, `partialBytes` stays the sum of the lengths of the stored fragments
(`accounted_reassemble`).
-/
import DtnCustody.Base.JsMap
import DtnCustody.Base.Sweep
import DtnCustody.Transport.Encode

namespace DtnCustody

open Base Js

namespace Gateway

/-! ## The state -/

/-- What is held of one bundle. -/
structure Entry where
  total : JsVal
  /-- By offset, in the order of arrival. -/
  parts : List (JsVal × Bytes) := []
  first : Option Bundle := none
  bytes : Nat := 0
  /-- `at`. -/
  since : Int

structure Config where
  lifetimeMs : JsNum
  maxReassemblyBytes : JsNum

structure State where
  partials : JsMap JsString Entry := .empty
  partialBytes : Int := 0
  fragmentsIn : Nat := 0
  reassembled : Nat := 0

/-- `x > limit`. -/
def exceeds (x : Int) (limit : JsNum) : Bool := limit.lt (.fin x) = some true

/-- One half of a timestamp in a template string. -/
def slotText : Slot → JsString
  | .undefined => js "undefined"
  | .val v => js v.toText
  | .half u => [u]

/-- `${p.source}|${p.created[0]}|${p.created[1]}`. -/
def keyOf (p : Primary) : JsString :=
  js p.source ++ js "|" ++ (slotText p.created.1 ++ js "|" ++ slotText p.created.2)

/-! ## Storing a fragment -/

variable (N : Node) (cfg : Config)

/-- `!(total > 0) || offset + length > total`. -/
def outside (offset total : JsVal) (length : Nat) : Outcome Bool :=
  if Prim.lt N (.int 0) total.toPrim = false then .ok true
  else do return Prim.lt N total.toPrim (← offset.toPrim.add N (.int length))

/-- Sets that have been waiting too long are dropped. -/
def expire (now : Int) (s : State) : State :=
  s.partials.entries.foldl (fun s p =>
    if exceeds (now - p.2.since) cfg.lifetimeMs then
      { s with partials := s.partials.delete p.1, partialBytes := s.partialBytes - p.2.bytes }
    else s) s

/-- `v === w`, and what a `Map` finds a key by; there is no NaN among decoded values. -/
def same : JsVal → JsVal → Bool
  | none, none => true
  | some v, some w => Cbor.sameKey v w
  | _, _ => false

def Entry.has (e : Entry) (offset : JsVal) : Bool := e.parts.any fun p => same p.1 offset

/-- The entry of a fragment: the one that is there, or a new one. -/
def entryOf (s : State) (now : Int) (p : Primary) : Entry :=
  (s.partials.get? (keyOf p)).getD { total := p.totalAduLength, since := now }

/-- The entry is put into the map if it is new. -/
def opened (s : State) (now : Int) (p : Primary) : State :=
  if s.partials.has (keyOf p) then s
  else { s with partials := s.partials.set (keyOf p) (entryOf s now p) }

/-- The total is that of the fragments before; a new entry has it from this one. -/
def agrees (s : State) (p : Primary) : Bool :=
  match s.partials.get? (keyOf p) with
  | none => true
  | some e => same e.total p.totalAduLength

/-- The entry with the fragment. -/
def Entry.store (e : Entry) (b : Bundle) (part : Bytes) : Entry :=
  let e := if e.has b.primary.fragmentOffset then e
    else { e with parts := e.parts ++ [(b.primary.fragmentOffset, part)], bytes := e.bytes + part.length }
  if b.primary.fragmentOffset.isInt 0 then { e with first := some b } else e

/-- The bytes that storing the fragment adds. -/
def added (e : Entry) (offset : JsVal) (part : Bytes) : Nat := if e.has offset then 0 else part.length

/-! ## Putting fragments together -/

/-- The comparison function of the sort, as a Number. -/
def compareOffsets (a b : JsVal) : Outcome JsNum := do (← a.toPrim.sub N b.toPrim).toNumber N

def insertPart (x : JsVal × Bytes) : List (JsVal × Bytes) → Outcome (List (JsVal × Bytes))
  | [] => .ok [x]
  | y :: ys => do
      let d ← compareOffsets N x.1 y.1
      if d.lt (.fin 0) = some true then return x :: y :: ys
      else return y :: (← insertPart x ys)

/-- `[...keys].sort((a, b) => a - b)`, with the parts. -/
def sortParts (ps : List (JsVal × Bytes)) : Outcome (List (JsVal × Bytes)) :=
  ps.foldlM (fun sorted p => insertPart N p sorted) []

/-- `Math.max(x, y)`. -/
def maxNumber (x y : JsNum) : JsNum :=
  match x.lt y with
  | none => .nan
  | some less => if less then y else x

/-- The sweep over the sorted offsets; `none` is a hole. -/
def sweepParts (reach : JsNum) : List (JsVal × Bytes) → Outcome (Option JsNum)
  | [] => .ok (some reach)
  | p :: ps =>
      if Prim.lt N (.num reach) p.1.toPrim then .ok none
      else do
        let stop ← (← p.1.toPrim.add N (.int p.2.length)).toNumber N
        sweepParts (maxNumber reach stop) ps

/-- `Buffer.alloc(v)`: only a length is taken. -/
def allocLength : JsVal → Outcome Nat
  | some (.int z) =>
      if Cbor.isNumber z = false then .error .typeError
      else if z < 0 then .error .rangeError
      else .ok z.toNat
  | _ => .error .typeError

/-- Where `copy` starts to write. -/
def copyStart (offset : JsVal) : Outcome Nat := do
  match ← offset.toPrim.toNumber N with
  | .fin q =>
      -- what is not a safe integer counts as no argument
      if q < -9007199254740991 ∨ 9007199254740991 < q then return 0
      else if q < 0 then .error .rangeError
      else return ⌊q⌋.toNat
  | _ => return 0

def copyParts (buf : Bytes) : List (JsVal × Bytes) → Outcome Bytes
  | [] => .ok buf
  | p :: ps => do
      let start ← copyStart N p.1
      copyParts (Piece.blit buf (start, p.2)) ps

/-- `flags & ~BUNDLE_FLAG.IS_FRAGMENT`, a signed 32-bit number. -/
def clearFragment (flags : Cbor) : Outcome Cbor := do
  let n := (← flags.toPrim.toNumber N).toUint32
  let m : Int := (n - n % 2 : Nat)
  return .int (if m < 2147483648 then m else m - 4294967296)

/-- The first fragment's bundle, made whole. -/
def wholeBundle (first : Bundle) (payload : Bytes) : Outcome Bundle := do
  let flags ← clearFragment N first.primary.flags
  return {
    primary := { first.primary with flags, fragmentOffset := none, totalAduLength := none }
    blocks := first.blocks.map fun b =>
      if b.type = Bundle.payloadType then { b with data := payload } else b }

/-- The sorted parts and the first fragment, when they reach the total. -/
def ready (e : Entry) : Outcome (Option (Bundle × List (JsVal × Bytes))) := do
  let sorted ← sortParts N e.parts
  match ← sweepParts N (.fin 0) sorted with
  | none => return none
  | some stop =>
      if Prim.lt N (.num stop) e.total.toPrim then return none
      else return e.first.map fun first => (first, sorted)

/-! ## One step -/

/-- The bundle is whole: its entry goes, and its bytes. -/
def closed (s : State) (key : JsString) (e : Entry) : State :=
  { s with partials := s.partials.delete key, partialBytes := s.partialBytes - e.bytes,
           reassembled := s.reassembled + 1 }

def finish (s : State) (key : JsString) (e : Entry) : State × Outcome (Option Bundle) :=
  match ready N e with
  | .error err => (s, .error err)
  | .ok none => (s, .ok none)
  | .ok (some (first, sorted)) =>
      match (do copyParts N (List.replicate (← allocLength e.total) 0) sorted : Outcome Bytes) with
      | .error err => (s, .error err)
      | .ok payload =>
          (closed s key e, do return some (← wholeBundle N first payload))

/-- The entry with its fragment is put into the map. -/
def kept (s : State) (key : JsString) (e : Entry) (bytes : Nat) : State :=
  { s with partials := s.partials.set key e, partialBytes := s.partialBytes + bytes,
           fragmentsIn := s.fragmentsIn + 1 }

/-- A fragment that lies inside its total. -/
def storeFragment (now : Int) (s : State) (b : Bundle) (part : Bytes) :
    State × Outcome (Option Bundle) :=
  let p := b.primary
  let e := entryOf s now p
  let opened := opened s now p
  if agrees s p = false then (opened, .error (.error "fragments disagree on the total length"))
  else if exceeds (opened.partialBytes + added e p.fragmentOffset part) cfg.maxReassemblyBytes ∧
      e.has p.fragmentOffset = false then
    (opened, .error (.error "reassembly buffer full"))
  else
    let stored := e.store b part
    finish N (kept opened (keyOf p) stored (added e p.fragmentOffset part)) (keyOf p) stored

def reassemble (now : Int) (s : State) (b : Bundle) : State × Outcome (Option Bundle) :=
  match Bundle.fragmentBit N (some b.primary.flags) with
  | .error err => (s, .error err)
  | .ok frag =>
      if frag = 0 then (s, .ok (some b))
      else match b.payloadOf with
        | .error err => (s, .error err)
        | .ok part =>
            match outside N b.primary.fragmentOffset b.primary.totalAduLength part.length with
            | .error err => (s, .error err)
            | .ok true => (s, .error (.error "fragment outside its total length"))
            | .ok false => storeFragment N cfg now (expire cfg now s) b part

/-! ## Byte accounting -/

variable {N cfg}

/-- **The account of the buffer**: each entry counts the bytes of its fragments, and `partialBytes`
counts those of all entries. -/
structure Accounted (s : State) : Prop where
  entries : ∀ e ∈ s.partials.values, e.bytes = (e.parts.map fun p => p.2.length).sum
  total : s.partialBytes = s.partials.total fun e => e.bytes

/-- The lengths of all stored fragments. -/
def storedLength (s : State) : Int :=
  s.partials.total fun e => ((e.parts.map fun p => p.2.length).sum : Nat)

theorem Accounted.eq_storedLength {s : State} (h : Accounted s) : s.partialBytes = storedLength s := by
  rw [h.total, storedLength, JsMap.total, JsMap.total]
  congr 1
  apply List.map_congr_left
  intro e he
  rw [h.entries e he]

theorem exceeds_mono {x y : Int} {limit : JsNum} (hle : x ≤ y) (h : exceeds y limit = false) :
    exceeds x limit = false := by
  unfold exceeds at h ⊢
  cases limit with
  | nan => rfl
  | inf negative => exact h
  | fin q =>
      simp only [JsNum.lt_fin, Option.some.injEq, decide_eq_true_eq, decide_eq_false_iff_not] at h ⊢
      have hle : (x : ℚ) ≤ y := by exact_mod_cast hle
      exact not_lt.mpr (hle.trans (not_lt.mp h))

theorem accounted_delete {s : State} (h : Accounted s) {key : JsString} {e : Entry}
    (he : s.partials.get? key = some e) : Accounted { s with
      partials := s.partials.delete key, partialBytes := s.partialBytes - e.bytes } := by
  refine ⟨fun x hx => ?_, ?_⟩
  · obtain ⟨k, hk⟩ := JsMap.mem_values_iff.mp hx
    by_cases hkey : k = key
    · rw [hkey, JsMap.get?_delete_self] at hk
      cases hk
    · rw [JsMap.get?_delete_ne _ hkey] at hk
      exact h.entries x (JsMap.mem_values_iff.mpr ⟨k, hk⟩)
  · show s.partialBytes - e.bytes = (s.partials.delete key).total _
    rw [JsMap.total_delete, he, h.total]
    rfl

theorem accounted_set {s : State} (h : Accounted s) {key : JsString} {e : Entry}
    (he : e.bytes = (e.parts.map fun p => p.2.length).sum) {n : Int}
    (hn : n + ((s.partials.get? key).elim 0 fun e => (e.bytes : Int)) = e.bytes) : Accounted { s with
      partials := s.partials.set key e, partialBytes := s.partialBytes + n } := by
  refine ⟨fun x hx => ?_, ?_⟩
  · obtain ⟨k, hk⟩ := JsMap.mem_values_iff.mp hx
    by_cases hkey : k = key
    · rw [hkey, JsMap.get?_set_self, Option.some.injEq] at hk
      exact hk ▸ he
    · rw [JsMap.get?_set_ne _ hkey] at hk
      exact h.entries x (JsMap.mem_values_iff.mpr ⟨k, hk⟩)
  · show s.partialBytes + n = (s.partials.set key e).total _
    rw [JsMap.total_set, h.total]
    omega

/-- The account of the state that a step leaves: `s'` keeps it, and has no more bytes than `s`. -/
def Shrinks (s s' : State) : Prop := Accounted s' ∧ s'.partialBytes ≤ s.partialBytes

theorem shrinks_expireAll {now : Int} {es : List (JsString × Entry)} :
    ∀ {s : State}, Accounted s → (es.map Prod.fst).Nodup →
      (∀ p ∈ es, s.partials.get? p.1 = some p.2) →
      Shrinks s (es.foldl (fun s p =>
        if exceeds (now - p.2.since) cfg.lifetimeMs then
          { s with partials := s.partials.delete p.1, partialBytes := s.partialBytes - p.2.bytes }
        else s) s) := by
  induction es with
  | nil => exact fun h _ _ => ⟨h, le_refl _⟩
  | cons p es ih =>
      intro s h hkeys hget
      rw [List.map_cons, List.nodup_cons] at hkeys
      rw [List.forall_mem_cons] at hget
      rw [List.foldl_cons]
      split
      · have hdel := accounted_delete h hget.1
        have hrest := ih hdel hkeys.2 (fun q hq => by
          have hne : q.1 ≠ p.1 := by
            intro heq
            exact hkeys.1 (heq ▸ List.mem_map_of_mem hq)
          show (s.partials.delete p.1).get? q.1 = _
          rw [JsMap.get?_delete_ne _ hne]
          exact hget.2 q hq)
        refine ⟨hrest.1, hrest.2.trans ?_⟩
        show s.partialBytes - p.2.bytes ≤ s.partialBytes
        omega
      · exact ih h hkeys.2 hget.2

theorem shrinks_expire {now : Int} {s : State} (h : Accounted s) : Shrinks s (expire cfg now s) :=
  shrinks_expireAll h s.partials.nodup fun _ hp => JsMap.mem_entries_iff.mp hp

theorem Entry.store_account {e : Entry} (h : e.bytes = (e.parts.map fun p => p.2.length).sum)
    (b : Bundle) (part : Bytes) :
    (e.store b part).bytes = ((e.store b part).parts.map fun p => p.2.length).sum ∧
      (e.store b part).bytes = e.bytes + added e b.primary.fragmentOffset part := by
  unfold Entry.store added
  cases e.has b.primary.fragmentOffset <;> cases b.primary.fragmentOffset.isInt 0 <;>
    simp [h]

theorem accounted_finish {s : State} {key : JsString} {e : Entry} (h : Accounted s)
    (he : s.partials.get? key = some e) : Shrinks s (finish N s key e).1 := by
  unfold finish
  split
  · exact ⟨h, le_refl _⟩
  · exact ⟨h, le_refl _⟩
  · split
    · exact ⟨h, le_refl _⟩
    · have hdel := accounted_delete h he
      refine ⟨⟨hdel.entries, hdel.total⟩, ?_⟩
      show s.partialBytes - e.bytes ≤ s.partialBytes
      omega

/-- The entry that a fragment opens counts no bytes yet. -/
theorem accounted_opened {now : Int} {s : State} {p : Primary} (h : Accounted s) :
    Accounted (opened s now p) ∧ (opened s now p).partialBytes = s.partialBytes ∧
      (opened s now p).partials.get? (keyOf p) = some (entryOf s now p) ∧
      (entryOf s now p).bytes = ((entryOf s now p).parts.map fun p => p.2.length).sum := by
  unfold opened entryOf
  cases hget : s.partials.get? (keyOf p) with
  | none =>
      have hhas : s.partials.has (keyOf p) = false := by rw [JsMap.has, hget]; rfl
      rw [if_neg (by simp [hhas])]
      have hset := @accounted_set s h (keyOf p) { total := p.totalAduLength, since := now } rfl 0
        (by rw [hget]; rfl)
      rw [add_zero] at hset
      exact ⟨hset, rfl, JsMap.get?_set_self _ _ _, rfl⟩
  | some e =>
      have hhas : s.partials.has (keyOf p) = true := by rw [JsMap.has, hget]; rfl
      rw [if_pos hhas]
      exact ⟨h, rfl, hget, h.entries e (JsMap.mem_values_iff.mpr ⟨_, hget⟩)⟩

theorem accounted_storeFragment {now : Int} {s : State} {b : Bundle} {part : Bytes} (h : Accounted s)
    (hwithin : exceeds s.partialBytes cfg.maxReassemblyBytes = false) :
    Accounted (storeFragment N cfg now s b part).1 ∧
      exceeds (storeFragment N cfg now s b part).1.partialBytes cfg.maxReassemblyBytes = false := by
  obtain ⟨hopen, hbytes, hget, hentry⟩ := @accounted_opened now s b.primary h
  unfold storeFragment
  dsimp only
  split
  · exact ⟨hopen, hbytes ▸ hwithin⟩
  · split
    · exact ⟨hopen, hbytes ▸ hwithin⟩
    · rename_i hfits
      obtain ⟨hstore, hsum⟩ := (entryOf s now b.primary).store_account hentry b part
      have hset := @accounted_set _ hopen (keyOf b.primary) _ hstore
        (added (entryOf s now b.primary) b.primary.fragmentOffset part) (by
          rw [hget, hsum]
          show _ + ((entryOf s now b.primary).bytes : Int) = _
          omega)
      have hstored : Accounted (kept (opened s now b.primary) (keyOf b.primary)
          ((entryOf s now b.primary).store b part)
          (added (entryOf s now b.primary) b.primary.fragmentOffset part)) :=
        ⟨hset.entries, hset.total⟩
      have hfinish := accounted_finish (N := N) hstored (JsMap.get?_set_self _ _ _)
      refine ⟨hfinish.1, exceeds_mono hfinish.2 ?_⟩
      show exceeds ((opened s now b.primary).partialBytes +
        added (entryOf s now b.primary) b.primary.fragmentOffset part) _ = false
      -- a repeat adds nothing, and what is new was checked
      cases hhas : (entryOf s now b.primary).has b.primary.fragmentOffset with
      | true =>
          rw [added, hhas, if_pos rfl, Nat.cast_zero, add_zero, hbytes]
          exact hwithin
      | false =>
          by_contra hover
          exact hfits ⟨by simpa using hover, hhas⟩

/-- **Whatever arrives, the account stays right and within the limit.** -/
theorem accounted_reassemble {now : Int} {s : State} {b : Bundle} (h : Accounted s)
    (hwithin : exceeds s.partialBytes cfg.maxReassemblyBytes = false) :
    Accounted (reassemble N cfg now s b).1 ∧
      exceeds (reassemble N cfg now s b).1.partialBytes cfg.maxReassemblyBytes = false := by
  unfold reassemble
  split
  · exact ⟨h, hwithin⟩
  · split
    · exact ⟨h, hwithin⟩
    · split
      · exact ⟨h, hwithin⟩
      · split
        · exact ⟨h, hwithin⟩
        · exact ⟨h, hwithin⟩
        · have hexpire := @shrinks_expire cfg now s h
          exact accounted_storeFragment hexpire.1 (exceeds_mono hexpire.2 hwithin)

end Gateway

end DtnCustody
