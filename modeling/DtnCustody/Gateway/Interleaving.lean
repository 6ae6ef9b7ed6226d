/-
# DtnCustody.Gateway.Interleaving — fragments of many payloads, in any order.

The fragments of several shipments arrive in some order, each as often as it likes until its shipment
is complete. After any of them the state is known from what has arrived (`Tracks`): an entry for each
shipment of which some fragments are there but not all. So the last missing fragment, and no other,
gives the whole payload (`reassembles_any_order`).
-/
import DtnCustody.Agent.Path
import DtnCustody.Gateway.Shipment
import Mathlib.Algebra.BigOperators.Fin

namespace DtnCustody

open Base Js

namespace Gateway

variable {H : GatewayHost}

/-! ## Arrivals -/

/-- One bundle of one shipment arrives at a time. -/
structure Arrival (ships : List (Shipment H)) where
  now : Int
  ship : Fin ships.length
  index : Fin (ships.get ship).bundles.length

variable {ships : List (Shipment H)}

def Arrival.bytes (x : Arrival ships) : Bytes := (ships.get x.ship).bundles.get x.index

/-- What `_reassemble` does with the bundle. -/
def arrive (cfg : Config) (s : State) (x : Arrival ships) : State × Outcome (Option Bundle) :=
  match Bundle.decodeBundle H.toNode x.bytes with
  | .error err => (s, .error err)
  | .ok b => reassemble H.toNode cfg x.now s b

def run (cfg : Config) (front : List (Arrival ships)) : State :=
  front.foldl (fun s x => (arrive cfg s x).1) {}

/-- Every bundle of the shipment has arrived. -/
def Complete (front : List (Arrival ships)) (j : Fin ships.length) : Prop :=
  ∀ i, i < (ships.get j).bundles.length → ∃ x ∈ front, x.ship = j ∧ (x.index : Nat) = i

/-- The source and creation timestamp that a bundle carries. -/
def bundleId (N : Node) (buf : Bytes) : Outcome (String × Slot × Slot) := do
  let b ← Bundle.decodeBundle N buf
  return (b.primary.source, b.primary.created)

/-- **The interleavings**: the shipments differ in source, creation time or sequence, and together they
fit into the buffer; nothing arrives for a shipment that is complete, and no set of fragments expires. -/
structure Interleaving (cfg : Config) (arrivals : List (Arrival ships)) : Prop where
  distinct : ∀ j k : Fin ships.length, j ≠ k → ∀ b ∈ (ships.get j).bundles, ∀ c ∈ (ships.get k).bundles,
    bundleId H.toNode b ≠ bundleId H.toNode c
  fits : exceeds ((ships.map fun S => S.payload.length).sum : Nat) cfg.maxReassemblyBytes = false
  fresh : ∀ front x back, arrivals = front ++ x :: back → ¬ Complete front x.ship
  live : ∀ front x back, arrivals = front ++ x :: back → Shipment.Live cfg x.now (run cfg front)

/-! ## What has arrived -/

/-- The fragments of a shipment, in the order in which they arrived first. -/
def arrived (front : List (Arrival ships)) (j : Fin ships.length) : List Nat :=
  front.foldl (fun l x => if x.ship = j then Shipment.visit l x.index else l) []

theorem arrived_concat (front : List (Arrival ships)) (x : Arrival ships) (j : Fin ships.length) :
    arrived (front ++ [x]) j =
      if x.ship = j then Shipment.visit (arrived front j) x.index else arrived front j := by
  rw [arrived, List.foldl_concat]
  rfl

theorem mem_arrived {front : List (Arrival ships)} {j : Fin ships.length} {i : Nat} :
    i ∈ arrived front j ↔ ∃ x ∈ front, x.ship = j ∧ (x.index : Nat) = i := by
  induction front using List.reverseRecOn with
  | nil => simp [arrived]
  | append_singleton front x ih =>
      rw [arrived_concat]
      simp only [List.mem_append, List.mem_singleton, or_and_right, exists_or, exists_eq_left]
      split
      · rename_i hj
        rw [Shipment.mem_visit, ih]
        simp only [hj, true_and]
        rw [eq_comm]
      · rename_i hj
        rw [ih]
        simp only [hj, false_and, or_false]

theorem complete_iff {front : List (Arrival ships)} {j : Fin ships.length} :
    Complete front j ↔ (ships.get j).All (arrived front j) :=
  forall_congr' fun _ => imp_congr_right fun _ => mem_arrived.symm

theorem arrived_lt {front : List (Arrival ships)} {j : Fin ships.length} :
    ∀ k ∈ arrived front j, k < (ships.get j).bundles.length := by
  intro k hk
  obtain ⟨x, _, rfl, rfl⟩ := mem_arrived.mp hk
  exact x.index.isLt

theorem nodup_arrived {front : List (Arrival ships)} {j : Fin ships.length} :
    (arrived front j).Nodup := by
  induction front using List.reverseRecOn with
  | nil => exact List.nodup_nil
  | append_singleton front x ih =>
      rw [arrived_concat]
      split
      · exact Shipment.nodup_visit ih
      · exact ih

/-! ## One key, one shipment -/

namespace Shipment

/-- The bundles of a shipment are made, the first of them with its key. -/
theorem exists_first (S : Shipment H) : ∃ buf b extra place part, S.bundles[0]? = some buf ∧
    Bundle.decodeBundle H.toNode buf = .ok b ∧ IsMade S.args extra place part b ∧
      keyOf b.primary = S.key := by
  cases hcut : S.isCut with
  | false =>
      obtain ⟨extra, buf, b, _, _, hlist, hread, hmade⟩ := makeBundles_whole hcut S.made
      refine ⟨buf, b, extra, none, S.payload, by rw [hlist]; rfl, hread, hmade, ?_⟩
      rw [key, hlist, List.head?_cons, Option.map_some, hread]
  | true =>
      obtain ⟨extra, _, hinto⟩ := isCutInto hcut
      have hpos : 0 < S.bundles.length := by
        have hreach := hinto.reach
        have hlong := hinto.long
        by_contra hzero
        rw [Nat.eq_zero_of_not_pos hzero, Nat.zero_mul] at hreach
        omega
      have hbuf := List.getElem?_eq_getElem hpos
      obtain ⟨_, b, hread, hmade⟩ := hinto.reads 0 _ hbuf
      exact ⟨_, b, extra, _, _, hbuf, hread, hmade, key_eq hcut hbuf hread⟩

end Shipment

theorem Interleaving.key_inj {cfg : Config} {arrivals : List (Arrival ships)}
    (h : Interleaving cfg arrivals) {j k : Fin ships.length}
    (hkey : (ships.get j).key = (ships.get k).key) : j = k := by
  by_contra hne
  obtain ⟨buf, b, _, _, _, hbuf, hread, hmade, hb⟩ := (ships.get j).exists_first
  obtain ⟨buf', c, _, _, _, hbuf', hread', hmade', hc⟩ := (ships.get k).exists_first
  obtain ⟨hsource, hcreated⟩ := keyOf_inj hmade.stamped hmade'.stamped (hb.trans (hkey.trans hc.symm))
  apply h.distinct j k hne buf (List.mem_of_getElem? hbuf) buf' (List.mem_of_getElem? hbuf')
  rw [bundleId, bundleId, hread, hread', Outcome.ok_bind, Outcome.ok_bind, hsource, hcreated]

/-! ## The invariant -/

/-- **The state after `front`**: what is stored of each shipment that is cut, and nothing else. -/
structure Tracks (cfg : Config) (front : List (Arrival ships)) (s : State) : Prop where
  accounted : Accounted s
  within : exceeds s.partialBytes cfg.maxReassemblyBytes = false
  pending : ∀ j, (ships.get j).isCut = true → ¬ Complete front j → (ships.get j).Stores s (arrived front j)
  done : ∀ j, (ships.get j).isCut = true → Complete front j → s.partials.get? (ships.get j).key = none
  only : ∀ k ∈ s.partials.keys, ∃ j, (ships.get j).isCut = true ∧ (ships.get j).key = k

variable {cfg : Config} {front : List (Arrival ships)} {s : State}

/-- How many bytes are stored of a shipment. -/
def storedOf (s : State) (S : Shipment H) : Int := (s.partials.get? S.key).elim 0 fun e => e.bytes

/-- What is stored of one shipment, and one more fragment, are slices of its payload. -/
theorem storedOf_add_le {S : Shipment H} {l : List Nat} (hacc : Accounted s) (h : S.Stores s l)
    (hl : l.Nodup) {i : Nat} (hi : i ∉ l) :
    storedOf s S + (S.slice i).2.length ≤ (S.payload.length : Int) := by
  have hnodup : (l ++ [i]).Nodup := List.Nodup.append hl (List.nodup_singleton i) (by simpa using hi)
  have hle : ((l ++ [i]).map fun i => (S.slice i).2.length).sum ≤ S.payload.length :=
    Piece.sum_slices_le S.payload S.fragmentSize hnodup
  rw [List.map_append, List.sum_append, List.map_singleton, List.sum_singleton] at hle
  unfold Shipment.Stores at h
  rw [storedOf]
  cases hget : s.partials.get? S.key with
  | none =>
      show (0 : Int) + _ ≤ _
      omega
  | some e =>
      rw [hget] at h
      have hbytes := hacc.entries e (JsMap.mem_values_iff.mpr ⟨_, hget⟩)
      rw [h.length_sum] at hbytes
      show (e.bytes : Int) + _ ≤ _
      omega

theorem Tracks.storedOf_le {arrivals : List (Arrival ships)} (hint : Interleaving cfg arrivals)
    (h : Tracks cfg front s) (j : Fin ships.length) :
    storedOf s (ships.get j) ≤ ((ships.get j).payload.length : Int) := by
  cases hget : s.partials.get? (ships.get j).key with
  | none =>
      rw [storedOf, hget]
      exact Int.natCast_nonneg _
  | some e =>
      obtain ⟨k, hcut, hkey⟩ := h.only _ (JsMap.mem_keys_iff.mpr ⟨e, hget⟩)
      obtain rfl := hint.key_inj hkey
      have hmissing : ¬ Complete front k := fun hc => by
        rw [h.done k hcut hc] at hget
        cases hget
      have hstores := h.pending k hcut hmissing
      unfold Shipment.Stores at hstores
      rw [hget] at hstores
      have hbytes := h.accounted.entries e (JsMap.mem_values_iff.mpr ⟨_, hget⟩)
      have hle : ((arrived front k).map fun i => ((ships.get k).slice i).2.length).sum ≤
          (ships.get k).payload.length :=
        Piece.sum_slices_le (ships.get k).payload (ships.get k).fragmentSize nodup_arrived
      rw [storedOf, hget]
      rw [hstores.length_sum] at hbytes
      show (e.bytes : Int) ≤ _
      omega

/-- **There is room for a fragment that is not there yet.** -/
theorem Tracks.room {arrivals : List (Arrival ships)} (hint : Interleaving cfg arrivals)
    (h : Tracks cfg front s) {j : Fin ships.length} (hcut : (ships.get j).isCut = true)
    (hmissing : ¬ Complete front j) {i : Nat} (hi : i ∉ arrived front j) :
    exceeds (s.partialBytes + ((ships.get j).slice i).2.length) cfg.maxReassemblyBytes = false := by
  have hmap : s.partialBytes ≤ ∑ k, storedOf s (ships.get k) := by
    have hle := @JsMap.total_le _ _ _ (fun e : Entry => (e.bytes : Int)) (fun e => Int.natCast_nonneg _)
      s.partials ((List.finRange ships.length).map fun k => (ships.get k).key) (fun k hk => by
        obtain ⟨j, _, hkey⟩ := h.only k hk
        exact List.mem_map.mpr ⟨j, List.mem_finRange j, hkey⟩)
    rw [h.accounted.total]
    refine hle.trans (le_of_eq ?_)
    rw [List.map_map, Fin.sum_univ_def]
    rfl
  have hone := storedOf_add_le h.accounted (h.pending j hcut hmissing) nodup_arrived hi
  -- the other shipments are no longer than their payloads
  have hsum : (∑ k, storedOf s (ships.get k)) + ((ships.get j).slice i).2.length ≤
      ∑ k, ((ships.get k).payload.length : Int) := by
    have hadd : ((ships.get j).slice i).2.length =
        ∑ k, if k = j then (((ships.get j).slice i).2.length : Int) else 0 := by
      rw [Finset.sum_ite_eq' Finset.univ j, if_pos (Finset.mem_univ j)]
    rw [hadd, ← Finset.sum_add_distrib]
    apply Finset.sum_le_sum
    intro k _
    split
    · rename_i hk
      rw [hk]
      exact hone
    · rw [add_zero]
      exact h.storedOf_le hint k
  have htotal : ∑ k, ((ships.get k).payload.length : Int) =
      ((ships.map fun S => S.payload.length).sum : Nat) := by
    rw [← Fin.sum_univ_fun_getElem, Nat.cast_sum]
    rfl
  exact exceeds_mono (by omega) hint.fits

/-! ## One arrival -/

theorem complete_other {x : Arrival ships} {j : Fin ships.length} (h : x.ship ≠ j) :
    Complete (front ++ [x]) j ↔ Complete front j := by
  rw [complete_iff, complete_iff, arrived_concat, if_neg h]

/-- What an arrival gives: nothing, until it completes its shipment. -/
def Answers (front : List (Arrival ships)) (x : Arrival ships) (r : Outcome (Option Bundle)) : Prop :=
  (¬ Complete (front ++ [x]) x.ship → r = .ok none) ∧
    (Complete (front ++ [x]) x.ship → ∃ w, r = .ok (some w) ∧ (ships.get x.ship).Delivered w)

/-- A payload that is not cut goes past the buffer. -/
theorem arrive_whole (h : Tracks cfg front s) {x : Arrival ships}
    (hcut : (ships.get x.ship).isCut = false) :
    Tracks cfg (front ++ [x]) (arrive cfg s x).1 ∧ Answers front x (arrive cfg s x).2 := by
  obtain ⟨extra, buf, b, hextra, hlen, hlist, hread, hmade⟩ :=
    makeBundles_whole hcut (ships.get x.ship).made
  have hcount : (ships.get x.ship).bundles.length = 1 := by rw [hlist]; rfl
  have hindex : (x.index : Nat) = 0 := by
    have hlt := x.index.isLt
    omega
  have hbytes : x.bytes = buf := by
    have hget : (ships.get x.ship).bundles[(x.index : Nat)]? = some x.bytes :=
      List.getElem?_eq_getElem x.index.isLt
    rw [hindex, hlist] at hget
    exact (Option.some.inj hget).symm
  have harrive : arrive cfg s x = (s, .ok (some b)) := by
    have hbit : Bundle.fragmentBit H.toNode (some (.int 0)) = .ok 0 := fragmentBit_flags H.toNode false
    have hflags : b.primary.flags = .int 0 := hmade.flags
    rw [arrive, hbytes, hread]
    dsimp only
    rw [reassemble, hflags, hbit]
    exact if_pos rfl
  rw [harrive]
  have hne : ∀ j, (ships.get j).isCut = true → x.ship ≠ j := by
    rintro j hj rfl
    rw [hcut] at hj
    cases hj
  refine ⟨⟨h.accounted, h.within, fun j hj hmissing => ?_, fun j hj hdone => ?_, h.only⟩, ?_, fun _ => ?_⟩
  · rw [arrived_concat, if_neg (hne j hj)]
    exact h.pending j hj (fun hc => hmissing ((complete_other (hne j hj)).mpr hc))
  · exact h.done j hj ((complete_other (hne j hj)).mp hdone)
  · intro hmissing
    refine absurd (fun i hi => ⟨x, by simp, rfl, ?_⟩) hmissing
    omega
  · have hnumber : Cbor.isNumber (ships.get x.ship).payload.length = true := by
      have hmax : (ships.get x.ship).payload.length ≤ Cbor.maxBuffer := hlen
      unfold Cbor.maxBuffer at hmax
      unfold Cbor.isNumber
      rw [Bool.and_eq_true, decide_eq_true_eq, decide_eq_true_eq]
      omega
    exact ⟨b, rfl, Shipment.delivered_of_blocks hextra hnumber hmade.flags hmade.offset hmade.total
      hmade.blocks⟩

/-- **One arrival keeps the invariant, and answers as it should.** -/
theorem arrive_tracks {arrivals : List (Arrival ships)} (hint : Interleaving cfg arrivals)
    (h : Tracks cfg front s) {x : Arrival ships} (hmissing : ¬ Complete front x.ship)
    (hlive : Shipment.Live cfg x.now s) :
    Tracks cfg (front ++ [x]) (arrive cfg s x).1 ∧ Answers front x (arrive cfg s x).2 := by
  cases hcut : (ships.get x.ship).isCut with
  | false => exact arrive_whole h hcut
  | true =>
      obtain ⟨b, hread, hb⟩ := Shipment.fragment_of_cut hcut (List.getElem?_eq_getElem x.index.isLt)
      have hread : Bundle.decodeBundle H.toNode x.bytes = .ok b := hread
      have hsteps := Shipment.reassemble_made (h.pending _ hcut hmissing) arrived_lt hb hlive
        (h.room hint hcut hmissing)
      obtain ⟨hacc, hwithin⟩ :=
        @accounted_reassemble H.toNode cfg x.now s b h.accounted h.within
      have hself : arrived (front ++ [x]) x.ship = Shipment.visit (arrived front x.ship) x.index := by
        rw [arrived_concat, if_pos rfl]
      rw [← hself] at hsteps
      have harrive : arrive cfg s x = reassemble H.toNode cfg x.now s b := by rw [arrive, hread]
      rw [harrive]
      have hothers : ∀ j, x.ship ≠ j → (ships.get j).key ≠ (ships.get x.ship).key :=
        fun j hne hkey => hne (hint.key_inj hkey).symm
      refine ⟨⟨hacc, hwithin, fun j hj hpending => ?_, fun j hj hdone => ?_, fun k hk => ?_⟩, ?_, ?_⟩
      · by_cases hne : x.ship = j
        · subst hne
          exact (hsteps.missing fun hall => hpending (complete_iff.mpr hall)).2
        · rw [arrived_concat, if_neg hne]
          unfold Shipment.Stores
          rw [hsteps.others _ (hothers j hne)]
          exact h.pending j hj fun hc => hpending ((complete_other hne).mpr hc)
      · by_cases hne : x.ship = j
        · subst hne
          exact (hsteps.complete (complete_iff.mp hdone)).2
        · rw [hsteps.others _ (hothers j hne)]
          exact h.done j hj ((complete_other hne).mp hdone)
      · by_cases hkey : k = (ships.get x.ship).key
        · exact ⟨x.ship, hcut, hkey.symm⟩
        · apply h.only
          rw [JsMap.mem_keys_iff] at hk ⊢
          rw [← hsteps.others k hkey]
          exact hk
      · exact fun hpending => (hsteps.missing fun hall => hpending (complete_iff.mpr hall)).1
      · exact fun hdone => (hsteps.complete (complete_iff.mp hdone)).1

/-! ## Whole runs -/

theorem tracks_nil (hwithin : exceeds 0 cfg.maxReassemblyBytes = false) :
    Tracks cfg ([] : List (Arrival ships)) {} :=
  ⟨⟨fun _ he => (by cases he), rfl⟩, hwithin, fun _ _ _ => rfl, fun _ _ _ => rfl, fun _ hk => (by cases hk)⟩

theorem run_concat (front : List (Arrival ships)) (x : Arrival ships) :
    run cfg (front ++ [x]) = (arrive cfg (run cfg front) x).1 := by
  rw [run, List.foldl_concat]
  rfl

/-- The invariant holds after every part of an interleaving. -/
theorem run_tracks {arrivals : List (Arrival ships)} (hint : Interleaving cfg arrivals) :
    ∀ {front back : List (Arrival ships)}, arrivals = front ++ back → Tracks cfg front (run cfg front) := by
  intro front
  induction front using List.reverseRecOn with
  | nil =>
      intro back _
      exact tracks_nil (exceeds_mono (Int.natCast_nonneg _) hint.fits)
  | append_singleton front x ih =>
      intro back hsplit
      rw [List.append_assoc, List.singleton_append] at hsplit
      rw [run_concat]
      exact (arrive_tracks hint (ih hsplit) (hint.fresh _ _ _ hsplit) (hint.live _ _ _ hsplit)).1

/-- **Reassembly is exact under any order of arrival.** Every fragment gives `null` until the last one
that is missing, which gives the payload as one bundle with an ingress receipt that is accepted; and at
every point `partialBytes` is the sum of the lengths of the stored fragments, and within the limit. -/
theorem reassembly_exact (H : GatewayHost) (cfg : Config) (ships : List (Shipment H))
    (arrivals : List (Arrival ships)) (h : Interleaving cfg arrivals) :
    (∀ front x back, arrivals = front ++ x :: back →
      (¬ Complete (front ++ [x]) x.ship → (arrive cfg (run cfg front) x).2 = .ok none) ∧
      (Complete (front ++ [x]) x.ship → ∃ w, (arrive cfg (run cfg front) x).2 = .ok (some w) ∧
        (ships.get x.ship).Delivered w)) ∧
    ∀ front back, arrivals = front ++ back →
      (run cfg front).partialBytes = storedLength (run cfg front) ∧
        exceeds (run cfg front).partialBytes cfg.maxReassemblyBytes = false := by
  refine ⟨fun front x back hsplit => ?_, fun front back hsplit => ?_⟩
  · have htracks := run_tracks h hsplit
    exact (arrive_tracks h htracks (h.fresh _ _ _ hsplit) (h.live _ _ _ hsplit)).2
  · have htracks := run_tracks h hsplit
    exact ⟨htracks.accounted.eq_storedLength, htracks.within⟩

/-! ## Two fragments -/

def sampleGateway : GatewayHost := { Path.sampleHost with isoDate := fun _ => some (js "T") }

/-- Three bytes in fragments of two, with a receipt. -/
def sampleArgs : BundleArgs where
  payload := [1, 2, 3]
  source := "ipn:1.1"
  dest := "ipn:2.1"
  lifetimeMs := .fin 1000
  seq := .fin 0
  keypair := some Path.sampleKey
  gateway := some (js "G")
  now := .fin 946684800001
  maxPayload := .fin 2

@[irreducible] def sampleBundles : List Bytes := (makeBundles sampleGateway sampleArgs).toOption.getD []

theorem sampleBundles_made : makeBundles sampleGateway sampleArgs = .ok sampleBundles ∧
    sampleBundles.length = 2 := by
  have hlen : (makeBundles sampleGateway sampleArgs).toOption.map List.length = some 2 := by
    decide +kernel
  unfold sampleBundles
  cases hmade : makeBundles sampleGateway sampleArgs with
  | error err =>
      rw [hmade] at hlen
      cases hlen
  | ok bs =>
      rw [hmade] at hlen
      exact ⟨rfl, Option.some.inj hlen⟩

theorem lt_sampleBundles {i : Nat} (h : i < 2) : i < sampleBundles.length := by
  rw [sampleBundles_made.2]
  exact h

def sampleShipment : Shipment sampleGateway where
  args := sampleArgs
  bundles := sampleBundles
  made := sampleBundles_made.1
  size := by decide

/-- The fragment at `i` arrives. -/
def sampleArrival (i : Nat) (h : i < 2) : Arrival [sampleShipment] where
  now := 0
  ship := 0
  index := ⟨i, lt_sampleBundles h⟩

/-- A buffer of three bytes, in which nothing expires. -/
def sampleConfig : Config where
  lifetimeMs := .inf false
  maxReassemblyBytes := .fin 3

/-- The second fragment, once more, and then the first. -/
def sampleArrivals : List (Arrival [sampleShipment]) :=
  [sampleArrival 1 Nat.one_lt_two, sampleArrival 1 Nat.one_lt_two, sampleArrival 0 Nat.two_pos]

theorem sample_interleaving : Interleaving sampleConfig sampleArrivals := by
  have hone : ∀ j : Fin [sampleShipment].length, j = 0 := fun j => Fin.ext (Nat.lt_one_iff.mp j.isLt)
  refine ⟨fun j k hne => absurd ((hone j).trans (hone k).symm) hne, ?_, ?_, fun _ _ _ _ _ _ => rfl⟩
  · show decide ((3 : ℚ) < ((3 : Nat) : Int)) = _
    simp
  · intro front x back hsplit hcomplete
    -- the first fragment comes last
    obtain ⟨y, hy, _, hindex⟩ := hcomplete 0 (by
      rw [hone x.ship]
      exact lt_sampleBundles (by decide))
    have hlate : ∀ y ∈ front, (y.index : Nat) = 1 := by
      rcases front with _ | ⟨a, _ | ⟨b, _ | ⟨c, rest⟩⟩⟩
      · intro _ h
        cases h
      · cases hsplit
        simp [sampleArrival]
      · cases hsplit
        simp [sampleArrival]
      · simp [sampleArrivals] at hsplit
    rw [hlate y hy] at hindex
    cases hindex

/-- The second fragment gives nothing, and the first then gives the three bytes. -/
theorem sample_reassembled :
    (arrive sampleConfig (run sampleConfig [sampleArrival 1 (by decide)]) (sampleArrival 1 (by decide))).2 =
      .ok none ∧
    ∃ w, (arrive sampleConfig (run sampleConfig [sampleArrival 1 (by decide), sampleArrival 1 (by decide)])
      (sampleArrival 0 (by decide))).2 = .ok (some w) ∧ w.payloadOf = .ok [1, 2, 3] := by
  have hruns := (reassembly_exact sampleGateway sampleConfig [sampleShipment] sampleArrivals
    sample_interleaving).1
  constructor
  · refine (hruns [sampleArrival 1 (by decide)] _ [sampleArrival 0 (by decide)] rfl).1 fun hcomplete => ?_
    obtain ⟨y, hy, _, hindex⟩ := hcomplete 0 (lt_sampleBundles (by decide))
    simp only [List.cons_append, List.nil_append, List.mem_cons, List.not_mem_nil, or_false, or_self] at hy
    rw [hy] at hindex
    cases hindex
  · obtain ⟨w, hw, hdelivered⟩ := (hruns [sampleArrival 1 (by decide), sampleArrival 1 (by decide)] _ []
      rfl).2 fun i hi => by
        have hi : i < sampleBundles.length := hi
        rw [sampleBundles_made.2] at hi
        have hcase : i = 0 ∨ i = 1 := by omega
        rcases hcase with rfl | rfl
        · exact ⟨sampleArrival 0 (by decide), by simp, rfl, rfl⟩
        · exact ⟨sampleArrival 1 (by decide), by simp, rfl, rfl⟩
    exact ⟨w, hw, hdelivered.payload⟩

end Gateway

end DtnCustody
