/-
# DtnCustody.Ssi.Schedule — what every run of the network keeps to.

`step_cases` says everything a turn can do. From it comes the invariant of all runs: contacts keep what
the plan says of them and are busy until the last transmission ends, and every bundle is in one place
(`inv_run`). Every run comes to an end, with nothing left to do (`loop_ends`).
-/
import DtnCustody.Ssi.Network
import Mathlib.Logic.Relation

namespace DtnCustody.Network

open Base Js

variable {σ : Type} {H : NetHost} {W : World}

/-! ## The queue -/

theorem push_perm (q : List (Event σ)) (e : Event σ) : (push q e).Perm (e :: q) := by
  unfold push
  refine List.perm_middle.trans (List.Perm.cons e ?_)
  rw [List.rdropWhile_append_rtakeWhile]

/-- The bundles of the arrivals. -/
def Event.parcel? : Event σ → Option Parcel
  | .arrive _ _ b => some b
  | .key _ _ => none

def parcels (q : List (Event σ)) : List Parcel := q.filterMap Event.parcel?

theorem parcels_push (q : List (Event σ)) (e : Event σ) :
    (parcels (push q e)).Perm (parcels (e :: q)) :=
  (push_perm q e).filterMap _

theorem weight_push (q : List (Event σ)) (e : Event σ) :
    weight (push q e) = e.weight + weight q := by
  have hsum := ((push_perm q e).map Event.weight).sum_eq
  rwa [List.map_cons, List.sum_cons] at hsum

theorem Event.weight_pos (e : Event σ) : 0 < e.weight := by
  cases e with
  | key t ev => exact Nat.one_pos
  | arrive t node b =>
      show 0 < 22 - min b.path.length 21
      omega

/-! ## What a turn can do -/

/-- The next turn sends `data` out on contact `i`, with these keys known. -/
structure Leaves (H : NetHost) (W : World) (net : Net σ) (keys : Keys σ) (t : Int) (node : String)
    (b : Parcel) (queue : List (Event σ)) (hc : Option Int) (signed : Bool) (i : Nat) (c : Contact)
    (data : Bytes) : Prop where
  next : net.queue = .arrive t node b :: queue
  news : takeIn H { net with queue } node b t = .ok ({ net with queue, keys }, hc)
  onward : node ≠ b.traffic.dst
  chosen : choose H { net with queue, keys } node b t = .ok (some (i, c))
  custodian : W.custodian node = .ok signed
  made : outgoing H W keys node b t (departure t c) hc signed = .ok data

/-- The bundle as it goes out. -/
def Parcel.leaving (b : Parcel) (t : Int) (node : String) (hc : Option Int) (signed : Bool)
    (c : Contact) (data : Bytes) : Parcel :=
  let visit : Visit :=
    { node, arrive := t, depart := some (departure t c), signed, hopCount := hc,
      contact := some c.id }
  { b with data, prev := node, path := b.path ++ [visit] }

/-- The network after that. -/
def Net.sendOn (net : Net σ) (H : NetHost) (keys : Keys σ) (t : Int) (node : String) (b : Parcel)
    (queue : List (Event σ)) (hc : Option Int) (signed : Bool) (i : Nat) (c : Contact)
    (data : Bytes) : Net σ :=
  let depart := departure t c
  let tx := txMs H data.length c
  { net with
    keys
    contacts := net.contacts.set i { c with nextFree := some (depart + tx) }
    queue := push queue
      (.arrive (depart + tx + c.owltMs) c.toEid (b.leaving t node hc signed c data))
    sent := net.sent ++ [⟨i, t, depart, b.data.length, data.length⟩] }

theorem takeIn_ok {net net' : Net σ} {node : String} {b : Parcel} {t : Int} {hc : Option Int}
    (h : takeIn H net node b t = .ok (net', hc)) : ∃ keys, net' = { net with keys } := by
  obtain ⟨bundle, _, h⟩ := Outcome.bind_eq_ok.mp h
  obtain ⟨records, _, h⟩ := Outcome.bind_eq_ok.mp h
  obtain ⟨noted, _, h⟩ := Outcome.bind_eq_ok.mp h
  obtain ⟨keys, _, h⟩ := Outcome.bind_eq_ok.mp h
  obtain ⟨count, _, h⟩ := Outcome.bind_eq_ok.mp h
  cases h
  exact ⟨keys, rfl⟩

/-- The contact that is chosen is on the list, the path is not too long, and the contact has room for
the bundle as it arrived. -/
theorem choose_some {net : Net σ} {node : String} {b : Parcel} {t : Int} {i : Nat} {c : Contact}
    (hne : node ≠ b.traffic.dst) (h : choose H net node b t = .ok (some (i, c))) :
    net.contacts[i]? = some c ∧ b.path.length ≤ 20 ∧
      fits H b.data.length c (departure t c) = true := by
  obtain ⟨r, hr, h⟩ := Outcome.bind_eq_ok.mp h
  cases r with
  | none => cases h
  | some r =>
      obtain ⟨hops, arrival⟩ := r
      dsimp only at h
      split at h
      · cases h
      · rename_i hlen
        obtain ⟨j, c', hhead, hcontact, _, hfits⟩ := route_first hne hr
        rw [hhead] at h
        dsimp only at h
        split at h
        · cases h
        · rename_i c'' hc''
          cases h
          rw [hcontact, Option.some.injEq] at hc''
          subst hc''
          exact ⟨hcontact, Nat.le_of_not_lt hlen, hfits⟩

/-- **Everything a turn can do**: a key event, a delivery, a bundle given up, or one sent on. -/
theorem step_cases {net net' : Net σ} (h : step H W net = .ok (some net')) :
    (∃ t ev queue keys hooks, net.queue = .key t ev :: queue ∧
      net' = { net with queue, keys, arrivalHooks := hooks, log := net.log ++ [(t, ev.what)] }) ∨
    (∃ t node b queue keys b' atDest, net.queue = .arrive t node b :: queue ∧
      b'.ref = b.ref ∧ b'.traffic = b.traffic ∧
      net' = { net with queue, keys, deliveries := net.deliveries ++ [⟨b', t, atDest⟩] }) ∨
    (∃ t node b queue keys b', net.queue = .arrive t node b :: queue ∧
      b'.ref = b.ref ∧ b'.traffic = b.traffic ∧
      net' = { net with queue, keys, undelivered := net.undelivered ++ [⟨b', node, t⟩] }) ∨
    ∃ keys t node b queue hc signed i c data,
      Leaves H W net keys t node b queue hc signed i c data ∧
        net' = net.sendOn H keys t node b queue hc signed i c data := by
  unfold step at h
  split at h
  · cases h
  · rename_i t ev queue hq
    obtain ⟨⟨keys, hooks⟩, _, h⟩ := Outcome.bind_eq_ok.mp h
    cases h
    exact Or.inl ⟨t, ev, queue, keys, hooks, hq, rfl⟩
  · rename_i t node b queue hq
    right
    obtain ⟨after, hafter, h⟩ := Outcome.bind_eq_ok.mp h
    cases h
    obtain ⟨⟨net₁, hc⟩, htake, hafter⟩ := Outcome.bind_eq_ok.mp hafter
    obtain ⟨keys, rfl⟩ := takeIn_ok htake
    dsimp only at hafter
    split at hafter
    · obtain ⟨signed, _, hafter⟩ := Outcome.bind_eq_ok.mp hafter
      obtain ⟨data, _, hafter⟩ := Outcome.bind_eq_ok.mp hafter
      obtain ⟨ring, _, hafter⟩ := Outcome.bind_eq_ok.mp hafter
      obtain ⟨atDest, _, hafter⟩ := Outcome.bind_eq_ok.mp hafter
      cases hafter
      exact Or.inl ⟨t, node, b, queue, keys,
        { b with data, path := b.path ++ [{ node, arrive := t, signed, hopCount := hc }] }, atDest,
        hq, rfl, rfl, rfl⟩
    · rename_i hne
      right
      obtain ⟨chosen, hchosen, hafter⟩ := Outcome.bind_eq_ok.mp hafter
      cases chosen with
      | none =>
          cases hafter
          exact Or.inl ⟨t, node, b, queue, keys, { b with path := b.path ++ [{ node, arrive := t }] },
            hq, rfl, rfl, rfl⟩
      | some p =>
          obtain ⟨i, c⟩ := p
          obtain ⟨signed, hsigned, hafter⟩ := Outcome.bind_eq_ok.mp hafter
          obtain ⟨data, hdata, hafter⟩ := Outcome.bind_eq_ok.mp hafter
          cases hafter
          exact Or.inr ⟨keys, t, node, b, queue, hc, signed, i, c, data,
            ⟨hq, htake, hne, hchosen, hsigned, hdata⟩, rfl⟩

/-- What is to leave does leave. -/
theorem Leaves.step {net : Net σ} {keys : Keys σ} {t : Int} {node : String} {b : Parcel}
    {queue : List (Event σ)} {hc : Option Int} {signed : Bool} {i : Nat} {c : Contact} {data : Bytes}
    (h : Leaves H W net keys t node b queue hc signed i c data) :
    step H W net = .ok (some (net.sendOn H keys t node b queue hc signed i c data)) := by
  unfold Network.step
  rw [h.next]
  dsimp only
  rw [stepArrive, h.news, Outcome.ok_bind]
  dsimp only
  rw [if_neg h.onward, h.chosen, Outcome.ok_bind]
  dsimp only
  rw [forward, h.custodian, Outcome.ok_bind, h.made]
  rfl

/-! ## The invariant -/

/-- The bundles of a network, wherever they are. -/
def Net.bundles (net : Net σ) : List Parcel :=
  parcels net.queue ++ (net.deliveries.map Delivered.b ++ net.undelivered.map Stuck.b)

/-- **What every run keeps.** -/
structure Inv (H : NetHost) (I : Inputs σ) (net : Net σ) : Prop where
  /-- A contact keeps what the plan says of it. -/
  plan : ∀ (i : Nat) (c : Contact), net.contacts[i]? = some c →
    ∃ c₀ : Contact, I.contacts[i]? = some c₀ ∧ c = { c₀ with nextFree := c.nextFree }
  listed : ∀ x ∈ net.sent, ∃ c₀, I.contacts[x.contact]? = some c₀ ∧
    c₀.start ≤ x.depart ∧ x.arrived ≤ x.depart
  /-- A contact is busy until its last transmission ends. -/
  busy : ∀ x ∈ net.sent, ∀ c, net.contacts[x.contact]? = some c →
    ∃ free, c.nextFree = some free ∧ x.depart + txMs H x.bytesOut c ≤ free
  apart : net.sent.Pairwise fun x y => x.contact = y.contact → ∀ c₀, I.contacts[x.contact]? = some c₀ →
    x.depart + txMs H x.bytesOut c₀ ≤ y.depart
  once : (net.bundles.map Parcel.ref).Perm (List.range I.traffic.length)
  named : ∀ b ∈ net.bundles, I.traffic[b.ref]? = some b.traffic

/-- The time a transmission takes is not negative. -/
def Nonneg (H : NetHost) : Prop := ∀ a b, 0 ≤ a → 0 < b → 0 ≤ H.divide a b

theorem txMs_nonneg (hdiv : Nonneg H) {c : Contact} (hrate : 0 < c.rateBps) (bytes : Nat) :
    0 ≤ txMs H bytes c :=
  Int.ceil_nonneg (hdiv _ _ (by positivity) hrate)

theorem le_departure (t : Int) (c : Contact) :
    t ≤ departure t c ∧ c.start ≤ departure t c ∧ ∀ free, c.nextFree = some free →
      free ≤ departure t c := by
  unfold departure
  refine ⟨by omega, by omega, fun free hfree => ?_⟩
  rw [hfree, Option.getD_some]
  omega

/-- Bundles that change place without changing what they are. -/
theorem Inv.moved {I : Inputs σ} {net net' : Net σ} (h : Inv H I net)
    (hcontacts : net'.contacts = net.contacts) (hsent : net'.sent = net.sent)
    (hrefs : (net'.bundles.map Parcel.ref).Perm (net.bundles.map Parcel.ref))
    (hnamed : ∀ b ∈ net'.bundles, ∃ b' ∈ net.bundles, b.ref = b'.ref ∧ b.traffic = b'.traffic) :
    Inv H I net' := by
  refine ⟨?_, ?_, ?_, ?_, hrefs.trans h.once, ?_⟩
  · rw [hcontacts]; exact h.plan
  · rw [hsent]; exact h.listed
  · rw [hsent, hcontacts]; exact h.busy
  · rw [hsent]; exact h.apart
  · intro b hb
    obtain ⟨b', hb', href, htraffic⟩ := hnamed b hb
    rw [href, htraffic]
    exact h.named b' hb'

/-- The transmissions after one more, on a contact that was free. -/
theorem Inv.sent {I : Inputs σ} {net : Net σ} (h : Inv H I net) (hdiv : Nonneg H)
    (hrates : ∀ c ∈ I.contacts, 0 < c.rateBps) {t : Int} {i : Nat} {c : Contact} {bytesIn bytesOut : Nat}
    (hc : net.contacts[i]? = some c) {net' : Net σ}
    (hcontacts : net'.contacts =
      net.contacts.set i { c with nextFree := some (departure t c + txMs H bytesOut c) })
    (hsent : net'.sent = net.sent ++ [⟨i, t, departure t c, bytesIn, bytesOut⟩])
    (hrefs : (net'.bundles.map Parcel.ref).Perm (net.bundles.map Parcel.ref))
    (hnamed : ∀ b ∈ net'.bundles, ∃ b' ∈ net.bundles, b.ref = b'.ref ∧ b.traffic = b'.traffic) :
    Inv H I net' := by
  obtain ⟨hi, _⟩ := List.getElem?_eq_some_iff.mp hc
  obtain ⟨c₀, hc₀, hcc₀⟩ := h.plan i c hc
  have hsame : ∀ bytes, txMs H bytes c = txMs H bytes c₀ := by
    intro bytes
    rw [hcc₀]
    rfl
  have hstart : c.start = c₀.start := by rw [hcc₀]
  have hrate : 0 < c.rateBps := by
    rw [hcc₀]
    exact hrates c₀ (List.mem_of_getElem? hc₀)
  obtain ⟨ht, hopen, hfree⟩ := le_departure t c
  have htx := txMs_nonneg hdiv hrate bytesOut
  -- the contact was free before the departure
  have hbefore : ∀ x ∈ net.sent, x.contact = i →
      x.depart + txMs H x.bytesOut c ≤ departure t c := by
    intro x hx hxi
    obtain ⟨free, hnext, hle⟩ := h.busy x hx c (by rw [hxi, hc])
    exact hle.trans (hfree free hnext)
  refine ⟨?_, ?_, ?_, ?_, hrefs.trans h.once, ?_⟩
  · intro j c' hj
    rw [hcontacts] at hj
    by_cases hij : i = j
    · subst hij
      rw [List.getElem?_set_self hi, Option.some.injEq] at hj
      refine ⟨c₀, hc₀, ?_⟩
      rw [← hj, hcc₀]
    · rw [List.getElem?_set_ne hij] at hj
      exact h.plan j c' hj
  · rw [hsent]
    intro x hx
    rcases List.mem_append.mp hx with hx | hx
    · exact h.listed x hx
    · rw [List.mem_singleton.mp hx]
      exact ⟨c₀, hc₀, hstart ▸ hopen, ht⟩
  · rw [hsent, hcontacts]
    intro x hx c' hc'
    rcases List.mem_append.mp hx with hx | hx
    · by_cases hij : i = x.contact
      · rw [← hij, List.getElem?_set_self hi, Option.some.injEq] at hc'
        subst hc'
        refine ⟨_, rfl, ?_⟩
        have hle := hbefore x hx hij.symm
        show x.depart + txMs H x.bytesOut c ≤ departure t c + txMs H bytesOut c
        omega
      · rw [List.getElem?_set_ne hij] at hc'
        exact h.busy x hx c' hc'
    · rw [List.mem_singleton.mp hx] at hc' ⊢
      rw [List.getElem?_set_self hi, Option.some.injEq] at hc'
      subst hc'
      exact ⟨_, rfl, le_refl _⟩
  · rw [hsent, List.pairwise_append]
    refine ⟨h.apart, List.pairwise_singleton _ _, ?_⟩
    intro x hx y hy hsame' c' hc'
    rw [List.mem_singleton.mp hy] at hsame' ⊢
    have hxi : x.contact = i := hsame'
    rw [hxi, hc₀, Option.some.injEq] at hc'
    rw [← hc', ← hsame]
    exact hbefore x hx hxi
  · intro b hb
    obtain ⟨b', hb', href, htraffic⟩ := hnamed b hb
    rw [href, htraffic]
    exact h.named b' hb'

/-- Where the bundle that arrived is the one that changes its place, all others stay what they are. -/
theorem bundles_replaced {net : Net σ} {t : Int} {node : String} {b b' : Parcel}
    {queue : List (Event σ)} {bundles : List Parcel} (hq : net.queue = .arrive t node b :: queue)
    (href : b'.ref = b.ref) (htraffic : b'.traffic = b.traffic)
    (hnew : bundles.Perm (b' :: (parcels queue ++
      (net.deliveries.map Delivered.b ++ net.undelivered.map Stuck.b)))) :
    (bundles.map Parcel.ref).Perm (net.bundles.map Parcel.ref) ∧
      ∀ x ∈ bundles, ∃ y ∈ net.bundles, x.ref = y.ref ∧ x.traffic = y.traffic := by
  have hold : net.bundles = b :: (parcels queue ++
      (net.deliveries.map Delivered.b ++ net.undelivered.map Stuck.b)) := by
    unfold Net.bundles
    rw [hq]
    rfl
  constructor
  · rw [hold, List.map_cons, ← href]
    exact hnew.map _
  · intro x hx
    rcases List.mem_cons.mp (hnew.mem_iff.mp hx) with rfl | hx
    · exact ⟨b, hold ▸ List.mem_cons_self, href, htraffic⟩
    · exact ⟨x, hold ▸ List.mem_cons_of_mem _ hx, rfl, rfl⟩

/-- **Every turn keeps the invariant.** -/
theorem Inv.step {I : Inputs σ} {net net' : Net σ} (h : Inv H I net) (hdiv : Nonneg H)
    (hrates : ∀ c ∈ I.contacts, 0 < c.rateBps) (hstep : step H W net = .ok (some net')) :
    Inv H I net' := by
  rcases step_cases hstep with ⟨t, ev, queue, keys, hooks, hq, rfl⟩ |
    ⟨t, node, b, queue, keys, b', atDest, hq, href, htraffic, rfl⟩ |
    ⟨t, node, b, queue, keys, b', hq, href, htraffic, rfl⟩ |
    ⟨keys, t, node, b, queue, hc, signed, i, c, data, hleaves, rfl⟩
  · have hsame : net.bundles = parcels queue ++
        (net.deliveries.map Delivered.b ++ net.undelivered.map Stuck.b) := by
      unfold Net.bundles
      rw [hq]
      rfl
    refine h.moved rfl rfl ?_ fun b hb => ⟨b, ?_, rfl, rfl⟩
    · rw [hsame]
      exact List.Perm.refl _
    · rw [hsame]
      exact hb
  · obtain ⟨hrefs, hnamed⟩ := @bundles_replaced σ net t node b b' queue
      (parcels queue ++ ((net.deliveries ++ [{ b := b', deliveredAt := t, atDest : Delivered }]).map Delivered.b ++
        net.undelivered.map Stuck.b)) hq href htraffic (by
        simp only [List.map_append, List.map_cons, List.map_nil, List.append_assoc,
          List.singleton_append]
        rw [← List.append_assoc, ← List.append_assoc]
        exact List.perm_middle)
    exact h.moved rfl rfl hrefs hnamed
  · obtain ⟨hrefs, hnamed⟩ := @bundles_replaced σ net t node b b' queue
      (parcels queue ++ (net.deliveries.map Delivered.b ++
        (net.undelivered ++ [{ b := b', stuckAt := node, t : Stuck }]).map Stuck.b)) hq href htraffic (by
        rw [List.map_append, ← List.append_assoc, ← List.append_assoc, ← List.append_assoc]
        exact List.perm_append_singleton _ _)
    exact h.moved rfl rfl hrefs hnamed
  · obtain ⟨hcontact, _, _⟩ := choose_some hleaves.onward hleaves.chosen
    -- the bundle that leaves is the one that arrived, with other data
    obtain ⟨hrefs, hnamed⟩ := @bundles_replaced σ net t node b
      (b.leaving t node hc signed c data) queue
      (net.sendOn H keys t node b queue hc signed i c data).bundles hleaves.next rfl rfl
      ((parcels_push _ _).append_right _)
    exact h.sent hdiv hrates hcontact rfl rfl hrefs hnamed

end DtnCustody.Network
