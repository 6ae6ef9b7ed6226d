/-
# DtnCustody.Ssi.OnPlan — when the network respects its contact plan.

Every run starts with each bundle in one place, and comes to an end with nothing left to do
(`loop_ends`). In between, what it does not keep to by itself is the end of a contact: `route` is asked
with the size a bundle arrives with, and the bundle leaves with its stamp, its key news and a new hop
count. `on_plan_iff` is the exact statement: the plan is respected when every contact that is taken has
room for the bundle that leaves. It always has room for the one that arrived (`Leaves.roomy`).
-/
import DtnCustody.Ssi.Schedule

namespace DtnCustody.Network

open Base Js

variable {σ : Type} {H : NetHost} {W : World}

/-! ## Runs -/

/-- A state that a run comes to. -/
def Reaches (H : NetHost) (W : World) : Net σ → Net σ → Prop :=
  Relation.ReflTransGen fun net net' => step H W net = .ok (some net')

/-- **Every state of a run keeps the invariant.** -/
theorem inv_run {I : Inputs σ} {net net' : Net σ} (h : Inv H I net) (hdiv : Nonneg H)
    (hrates : ∀ c ∈ I.contacts, 0 < c.rateBps) (hrun : Reaches H W net net') : Inv H I net' := by
  induction hrun with
  | refl => exact h
  | tail _ hstep ih => exact ih.step hdiv hrates hstep

/-- A turn takes from the weight of the queue. -/
theorem weight_step {net net' : Net σ} (h : step H W net = .ok (some net')) :
    weight net'.queue < weight net.queue := by
  rcases step_cases h with ⟨t, ev, queue, keys, hooks, hq, rfl⟩ |
    ⟨t, node, b, queue, keys, b', atDest, hq, _, _, rfl⟩ |
    ⟨t, node, b, queue, keys, b', hq, _, _, rfl⟩ |
    ⟨keys, t, node, b, queue, hc, signed, i, c, data, hleaves, rfl⟩
  · have hpos := (Event.key t ev).weight_pos
    rw [hq]
    simp only [weight, List.map_cons, List.sum_cons]
    omega
  · have hpos := Event.weight_pos (Event.arrive t node b : Event σ)
    rw [hq]
    simp only [weight, List.map_cons, List.sum_cons]
    omega
  · have hpos := Event.weight_pos (Event.arrive t node b : Event σ)
    rw [hq]
    simp only [weight, List.map_cons, List.sum_cons]
    omega
  · obtain ⟨_, hlen, _⟩ := choose_some hleaves.onward hleaves.chosen
    rw [hleaves.next]
    show weight (push queue _) < _
    rw [weight_push]
    simp only [weight, List.map_cons, List.sum_cons, Event.weight, Parcel.leaving,
      List.length_append, List.length_singleton]
    omega

/-- **Every run comes to an end**: as much fuel as the queue weighs is enough. -/
theorem loop_ends : ∀ {fuel : Nat} {net net' : Net σ}, weight net.queue ≤ fuel →
    loop H W fuel net = .ok net' → Reaches H W net net' ∧ net'.queue = [] := by
  have empty : ∀ {net : Net σ}, weight net.queue = 0 → net.queue = [] := by
    intro net hweight
    cases hq : net.queue with
    | nil => rfl
    | cons e queue =>
        have hpos := e.weight_pos
        rw [hq] at hweight
        simp only [weight, List.map_cons, List.sum_cons] at hweight
        omega
  intro fuel
  induction fuel with
  | zero =>
      intro net net' hfuel h
      cases h
      exact ⟨Relation.ReflTransGen.refl, empty (Nat.le_zero.mp hfuel)⟩
  | succ fuel ih =>
      intro net net' hfuel h
      obtain ⟨next, hnext, h⟩ := Outcome.bind_eq_ok.mp h
      cases next with
      | none =>
          cases h
          refine ⟨Relation.ReflTransGen.refl, ?_⟩
          unfold step at hnext
          split at hnext
          · assumption
          · obtain ⟨p, _, hnext⟩ := Outcome.bind_eq_ok.mp hnext
            cases hnext
          · obtain ⟨p, _, hnext⟩ := Outcome.bind_eq_ok.mp hnext
            cases hnext
      | some next =>
          have hlt := weight_step hnext
          obtain ⟨hreach, hdone⟩ := ih (by omega) h
          exact ⟨Relation.ReflTransGen.head hnext hreach, hdone⟩

/-! ## The start -/

/-- The queue after the traffic is pushed: one bundle for each. -/
theorem pushTraffic_parcels {seq : Nat} {traffic : List Traffic} {all : List Traffic} :
    ∀ {ref : Nat} {q q' : List (Event σ)}, pushTraffic H seq ref q traffic = .ok q' →
      (∀ i tr, traffic[i]? = some tr → all[ref + i]? = some tr) →
      ((parcels q').map Parcel.ref).Perm
          ((parcels q).map Parcel.ref ++ (List.range traffic.length).map (ref + ·)) ∧
        ∀ b ∈ parcels q', b ∈ parcels q ∨ all[b.ref]? = some b.traffic := by
  induction traffic with
  | nil =>
      intro ref q q' h _
      cases h
      refine ⟨?_, fun b hb => Or.inl hb⟩
      rw [List.length_nil, List.range_zero, List.map_nil, List.append_nil]
  | cons tr rest ih =>
      intro ref q q' h hall
      obtain ⟨data, _, h⟩ := Outcome.bind_eq_ok.mp h
      obtain ⟨hperm, hnamed⟩ := ih h fun i tr' hi => by
        rw [Nat.add_assoc, Nat.add_comm 1]
        exact hall (i + 1) tr' (by rwa [List.getElem?_cons_succ])
      constructor
      · refine hperm.trans (((parcels_push q _).map _).append_right _ |>.trans ?_)
        have hrange : (List.range (tr :: rest).length).map (ref + ·) =
            ref :: (List.range rest.length).map (ref + 1 + ·) := by
          rw [List.length_cons, List.range_succ_eq_map, List.map_cons, List.map_map, Nat.add_zero]
          refine congrArg (ref :: ·) (List.map_congr_left fun i _ => ?_)
          show ref + (i + 1) = ref + 1 + i
          omega
        rw [hrange]
        exact (List.perm_middle (a := ref)).symm
      · intro b hb
        rcases hnamed b hb with hb | hb
        · rcases List.mem_cons.mp ((parcels_push q _).mem_iff.mp hb) with rfl | hb
          · exact Or.inr (hall 0 tr rfl)
          · exact Or.inl hb
        · exact Or.inr hb

theorem parcels_events {events : List (KeyEvent σ)} :
    ∀ {q : List (Event σ)},
      (parcels (events.foldl (fun q ev => push q (.key ev.due ev)) q)).Perm (parcels q) := by
  induction events with
  | nil => intro q; exact List.Perm.refl _
  | cons ev events ih =>
      intro q
      exact ih.trans (parcels_push q _)

/-- **The network starts with every bundle in one place.** -/
theorem inv_launch {I : Inputs σ} {net : Net σ} (h : launch H I = .ok net) : Inv H I net := by
  obtain ⟨ring, _, h⟩ := Outcome.bind_eq_ok.mp h
  obtain ⟨q, hq, h⟩ := Outcome.bind_eq_ok.mp h
  cases h
  obtain ⟨hperm, hnamed⟩ := @pushTraffic_parcels σ H I.seq I.traffic I.traffic 0 [] q hq fun i tr hi => by
    rwa [Nat.zero_add]
  have hevents := @parcels_events σ I.events q
  refine ⟨fun i c hc => ⟨c, hc, rfl⟩, ?_, ?_, List.Pairwise.nil, ?_, ?_⟩
  · intro x hx
    cases hx
  · intro x hx
    cases hx
  · show ((parcels _ ++ ([] ++ [])).map Parcel.ref).Perm _
    rw [List.append_nil, List.append_nil]
    refine (hevents.map _).trans (hperm.trans ?_)
    simp [parcels]
  · intro b hb
    rcases List.mem_append.mp hb with hb | hb
    · exact (hnamed b (hevents.mem_iff.mp hb)).resolve_left fun hb => by cases hb
    · cases hb

/-! ## The plan -/

/-- **The transmissions so far respect the plan**: none starts before the contact does or before the
bundle is there, none ends after the contact, and no two overlap on one contact. -/
structure OnPlan (H : NetHost) (contacts : List Contact) (net : Net σ) : Prop where
  inside : ∀ x ∈ net.sent, ∃ c, contacts[x.contact]? = some c ∧ c.start ≤ x.depart ∧
    x.arrived ≤ x.depart ∧ x.depart + txMs H x.bytesOut c ≤ c.endAt
  apart : net.sent.Pairwise fun x y => x.contact = y.contact → ∀ c, contacts[x.contact]? = some c →
    x.depart + txMs H x.bytesOut c ≤ y.depart

/-- **Every bundle ends once**, in `deliveries` or in `undelivered`. -/
structure EndsOnce (traffic : List Traffic) (net : Net σ) : Prop where
  once : ((net.deliveries.map fun d => d.b.ref) ++ net.undelivered.map fun u => u.b.ref).Perm
    (List.range traffic.length)
  delivered : ∀ d ∈ net.deliveries, traffic[d.b.ref]? = some d.b.traffic
  undelivered : ∀ u ∈ net.undelivered, traffic[u.b.ref]? = some u.b.traffic

/-- **The contact has room for what leaves**: if the next turn sends a bundle on, the contact passes
the test of `route` with the bundle as it leaves. -/
def HasRoom (H : NetHost) (W : World) (net : Net σ) : Prop :=
  ∀ keys t node b queue hc signed i c data,
    Leaves H W net keys t node b queue hc signed i c data →
      fits H data.length c (departure t c) = true

/-- It does pass the test with the bundle as it arrived. -/
theorem Leaves.roomy {net : Net σ} {keys : Keys σ} {t : Int} {node : String} {b : Parcel}
    {queue : List (Event σ)} {hc : Option Int} {signed : Bool} {i : Nat} {c : Contact} {data : Bytes}
    (h : Leaves H W net keys t node b queue hc signed i c data) :
    fits H b.data.length c (departure t c) = true :=
  (choose_some h.onward h.chosen).2.2

/-- One turn of a network with room stays on plan. -/
theorem OnPlan.step {I : Inputs σ} {net net' : Net σ} (hinv : Inv H I net) (hinv' : Inv H I net')
    (h : OnPlan H I.contacts net) (hroom : HasRoom H W net)
    (hstep : step H W net = .ok (some net')) : OnPlan H I.contacts net' := by
  refine ⟨?_, hinv'.apart⟩
  rcases step_cases hstep with ⟨t, ev, queue, keys, hooks, hq, rfl⟩ |
    ⟨t, node, b, queue, keys, b', atDest, hq, _, _, rfl⟩ |
    ⟨t, node, b, queue, keys, b', hq, _, _, rfl⟩ |
    ⟨keys, t, node, b, queue, hc, signed, i, c, data, hleaves, rfl⟩
  · exact h.inside
  · exact h.inside
  · exact h.inside
  · intro x hx
    rcases List.mem_append.mp hx with hx | hx
    · exact h.inside x hx
    · rw [List.mem_singleton.mp hx]
      obtain ⟨hcontact, _, _⟩ := choose_some hleaves.onward hleaves.chosen
      obtain ⟨c₀, hc₀, hsame⟩ := hinv.plan i c hcontact
      obtain ⟨ht, hstart, _⟩ := le_departure t c
      have hfits := of_decide_eq_true (hroom _ _ _ _ _ _ _ _ _ _ hleaves)
      refine ⟨c₀, hc₀, ?_, ht, ?_⟩
      · have hopen : c.start = c₀.start := by rw [hsame]
        exact hopen ▸ hstart
      · have htx : txMs H data.length c = txMs H data.length c₀ := by
          rw [hsame]
          rfl
        have hend : c.endAt = c₀.endAt := by rw [hsame]
        rw [htx, hend] at hfits
        exact hfits

/-- A bundle that is sent on a contact without room for it is not on plan. -/
theorem HasRoom.of_step {I : Inputs σ} {net : Net σ} (hinv : Inv H I net)
    (h : ∀ net', step H W net = .ok (some net') → OnPlan H I.contacts net') : HasRoom H W net := by
  intro keys t node b queue hc signed i c data hleaves
  obtain ⟨hcontact, _, _⟩ := choose_some hleaves.onward hleaves.chosen
  obtain ⟨c₀, hc₀, hsame⟩ := hinv.plan i c hcontact
  obtain ⟨c', hc', _, _, hend⟩ := (h _ hleaves.step).inside
    ⟨i, t, departure t c, b.data.length, data.length⟩
    (List.mem_append_right _ (List.mem_singleton.mpr rfl))
  rw [hc₀, Option.some.injEq] at hc'
  subst hc'
  have htx : txMs H data.length c = txMs H data.length c₀ := by
    rw [hsame]
    rfl
  refine decide_eq_true ?_
  rw [htx, show c.endAt = c₀.endAt by rw [hsame]]
  exact hend

/-- The network respects its plan in every state of its run, and its bundles end once each. -/
def RespectsPlan (H : NetHost) (I : Inputs σ) : Prop :=
  (∀ net₀ net, launch H I = .ok net₀ → Reaches H I.toWorld net₀ net → OnPlan H I.contacts net) ∧
    ∀ net, runNetwork H I = .ok net → EndsOnce I.traffic net

/-- **The network respects its contact plan exactly when every contact it takes has room for the
bundle that leaves.** -/
theorem respects_plan_iff (I : Inputs σ) (hdiv : Nonneg H)
    (hrates : ∀ c ∈ I.contacts, 0 < c.rateBps) :
    RespectsPlan H I ↔
      ∀ net₀ net, launch H I = .ok net₀ → Reaches H I.toWorld net₀ net → HasRoom H I.toWorld net := by
  constructor
  · rintro ⟨hplan, _⟩ net₀ net hlaunch hreach
    have hinv := inv_run (inv_launch hlaunch) hdiv hrates hreach
    exact HasRoom.of_step hinv fun net' hstep => hplan net₀ net' hlaunch (hreach.tail hstep)
  · intro hroom
    constructor
    · intro net₀ net hlaunch hreach
      induction hreach with
      | refl =>
          refine ⟨?_, (inv_launch hlaunch).apart⟩
          obtain ⟨ring, _, hlaunch⟩ := Outcome.bind_eq_ok.mp hlaunch
          obtain ⟨q, _, hlaunch⟩ := Outcome.bind_eq_ok.mp hlaunch
          cases hlaunch
          intro x hx
          cases hx
      | tail hreach hstep ih =>
          have hinv := inv_run (inv_launch hlaunch) hdiv hrates hreach
          exact OnPlan.step hinv (hinv.step hdiv hrates hstep) ih
            (hroom net₀ _ hlaunch hreach) hstep
    · intro net hrun
      obtain ⟨net₀, hlaunch, hrun⟩ := Outcome.bind_eq_ok.mp hrun
      obtain ⟨hreach, hdone⟩ := loop_ends (le_refl _) hrun
      have hinv := inv_run (inv_launch hlaunch) hdiv hrates hreach
      have hbundles : net.bundles =
          net.deliveries.map Delivered.b ++ net.undelivered.map Stuck.b := by
        unfold Net.bundles
        rw [hdone]
        rfl
      have honce := hinv.once
      have hnamed := hinv.named
      rw [hbundles] at honce hnamed
      rw [List.map_append, List.map_map, List.map_map] at honce
      refine ⟨honce, ?_, ?_⟩
      · intro d hd
        exact hnamed _ (List.mem_append_left _ (List.mem_map.mpr ⟨d, hd, rfl⟩))
      · intro u hu
        exact hnamed _ (List.mem_append_right _ (List.mem_map.mpr ⟨u, hu, rfl⟩))

/-! ## One bundle, one contact -/

def sampleNetHost : NetHost := { sampleNode with divide := fun a b => a / b }

theorem nonneg_sampleNetHost : Nonneg sampleNetHost :=
  fun _ _ ha hb => div_nonneg ha hb.le

/-- A custodian with a bundle of 59 bytes for a node that it has a contact with: `length`
milliseconds, at one byte each. -/
def sampleInputs (length : Int) : Inputs Unit where
  start := 946684800000
  nodes := JsMap.ofList [("ipn:1.0", { custodian := true }), ("ipn:2.0", { custodian := false })]
  contacts := [{ id := "c", fromEid := "ipn:1.0", toEid := "ipn:2.0", start := 946684800000,
                 endAt := 946684800000 + length, rateBps := 8000, owltMs := 1 }]
  anchors := []
  launchRecords := []
  nodeKeys := JsMap.ofList [("ipn:1.0", Keyring.samplePair 1)]
  traffic := [{ src := "ipn:1.0", dst := "ipn:2.0", bytes := 1, created := 946684800000,
                label := "b" }]
  outside := ()

theorem sampleInputs_respects_iff : RespectsPlan sampleNetHost (sampleInputs 1000) ↔
    ∀ net₀ net, launch sampleNetHost (sampleInputs 1000) = .ok net₀ →
      Reaches sampleNetHost (sampleInputs 1000).toWorld net₀ net →
        HasRoom sampleNetHost (sampleInputs 1000).toWorld net :=
  respects_plan_iff (sampleInputs 1000) nonneg_sampleNetHost fun c hc => by
    rw [List.mem_singleton.mp hc]
    norm_num

/-- **A stamped bundle outlasts its contact**: with 60 milliseconds to send 59 bytes, the custodian
sends the 212 bytes that they are with its receipt. -/
theorem stamped_outlasts : ¬ RespectsPlan sampleNetHost (sampleInputs 60) := by
  have hsent : (do
      let net ← launch sampleNetHost (sampleInputs 60)
      let next ← step sampleNetHost (sampleInputs 60).toWorld net
      return next.map fun net => net.sent.map fun x => (x.contact, x.depart, x.bytesOut)
        : Outcome (Option (List (Nat × Int × Nat)))) = .ok (some [(0, 946684800000, 212)]) := by
    decide +kernel
  obtain ⟨net₀, hlaunch, hsent⟩ := Outcome.bind_eq_ok.mp hsent
  obtain ⟨next, hstep, hsent⟩ := Outcome.bind_eq_ok.mp hsent
  cases next with
  | none => cases hsent
  | some net =>
      rintro ⟨hplan, _⟩
      have hinside := (hplan net₀ net hlaunch (Relation.ReflTransGen.single hstep)).inside
      have hsent : net.sent.map (fun x => (x.contact, x.depart, x.bytesOut)) =
          [(0, 946684800000, 212)] := Option.some.inj (Except.ok.inj hsent)
      obtain ⟨x, hx, heq⟩ := List.mem_map.mp (hsent ▸ List.mem_singleton.mpr rfl :
        ((0, 946684800000, 212) : Nat × Int × Nat) ∈
          net.sent.map fun x => (x.contact, x.depart, x.bytesOut))
      obtain ⟨c, hc, _, _, hend⟩ := hinside x hx
      rw [Prod.mk.injEq, Prod.mk.injEq] at heq
      rw [heq.1] at hc
      rw [heq.2.1, heq.2.2] at hend
      cases hc
      revert hend
      decide +kernel

end DtnCustody.Network
