/-
# DtnCustody.Voyager.Outages — which outages of a link are on record.

A gap record is made for the window that a bundle went out in, with the bundles that were ready before it
opened. So no record lists a bundle wrongly (`gap_delays`). But a bundle that fits into none of the windows
before waits through more than one outage, and only the last of them is recorded: every outage is on
record when each bundle goes out no later than in the first window that opens after it is ready, and,
where ids are distinct, only then (`outages_recorded_iff`).
-/
import DtnCustody.Voyager.Timeline

namespace DtnCustody.Voyager

open Base Js

/-! ## Outages -/

/-- Windows in order with time between them. -/
structure Apart (ws : List Window) : Prop where
  opens : ∀ w ∈ ws, w.1 ≤ w.2
  between : ws.Pairwise fun v w => v.2 < w.1

/-- The interval without a window before window `j`. -/
structure Outage (ws : List Window) (j : Nat) (downAt : Option ℚ) (upAt : ℚ) : Prop where
  upAt : ∃ w : Window, ws[j]? = some w ∧ upAt = w.1
  downAt : downAt = if 0 < j then (ws[j - 1]?).map Prod.snd else none

/-- The outage before window `j` delays a transmission: the bundle was ready before the window opened, and
sent only then. -/
def Delays (ws : List Window) (j : Nat) {n : Nat} (x : Sent n) : Prop :=
  ∃ w : Window, ws[j]? = some w ∧ x.readyNow < w.1 ∧ w.1 ≤ x.leg.txStart

/-- **Every outage is on record** with the bundles it delayed, and with no others. -/
structure OutagesRecorded (i : Input) (run : Run i.items.length) : Prop where
  complete : ∀ p ∈ i.links.zip run.links, ∀ ws, p.1.windows = some ws → ∀ x ∈ p.2.sent, ∀ j,
    Delays ws j x → ∃ g ∈ run.gaps, g.link = p.1.id ∧ Outage ws j g.downAt g.upAt ∧
      x.bundleId i.items ∈ g.bundlesDelayed
  sound : ∀ g ∈ run.gaps, ∀ id ∈ g.bundlesDelayed, ∃ p ∈ i.links.zip run.links, ∃ ws,
    p.1.windows = some ws ∧ g.link = p.1.id ∧ ∃ j, Outage ws j g.downAt g.upAt ∧
      ∃ x ∈ p.2.sent, x.bundleId i.items = id ∧ Delays ws j x

/-- Before a transmission: into every window that opens after the bundle is ready, or into an earlier one,
the bundle fits. -/
def FitsNext (link : Link) (items : List Item) (x : Sent items.length) : Prop :=
  ∀ ws, link.windows = some ws → ∀ (j : Nat) (w : Window), ws[j]? = some w → x.readyNow < w.1 →
    ∃ (k : Nat) (v : Window), k ≤ j ∧ ws[k]? = some v ∧
      max (startFrom x.readyNow x.free) v.1 + x.txMs link items ≤ v.2

theorem Apart.lt {ws : List Window} (h : Apart ws) {j k : Nat} {v w : Window} (hv : ws[j]? = some v)
    (hw : ws[k]? = some w) (hjk : j < k) : v.2 < w.1 := by
  obtain ⟨hj, rfl⟩ := List.getElem?_eq_some_iff.mp hv
  obtain ⟨hk, rfl⟩ := List.getElem?_eq_some_iff.mp hw
  exact List.pairwise_iff_getElem.mp h.between j k hj hk hjk

theorem Apart.open_of_getElem? {ws : List Window} (h : Apart ws) {j : Nat} {w : Window}
    (hw : ws[j]? = some w) : w.1 ≤ w.2 := h.opens w (List.mem_of_getElem? hw)

/-- A time lies in no two windows. -/
theorem Apart.index_eq {ws : List Window} (h : Apart ws) {j k : Nat} {v w : Window}
    (hv : ws[j]? = some v) (hw : ws[k]? = some w) {t : ℚ} (hvt : v.1 ≤ t ∧ t ≤ v.2)
    (hwt : w.1 ≤ t ∧ t ≤ w.2) : j = k := by
  rcases lt_trichotomy j k with hlt | heq | hlt
  · have hgap := h.lt hv hw hlt
    linarith [hvt.2, hwt.1]
  · exact heq
  · have hgap := h.lt hw hv hlt
    linarith [hwt.2, hvt.1]

/-- The first window that a transmission fits in. -/
theorem nextStart_first {ws : List Window} {t txMs start : ℚ}
    (h : nextStart (some ws) t txMs = some start) :
    ∃ (k : Nat) (v : Window), ws[k]? = some v ∧ start = max t v.1 ∧ start + txMs ≤ v.2 ∧
      ∀ (k' : Nat) (v' : Window), ws[k']? = some v' → max t v'.1 + txMs ≤ v'.2 → k ≤ k' := by
  obtain ⟨l, v, r, rfl, hv, hnone⟩ := List.findSome?_eq_some_iff.mp h
  split at hv
  · next hfits =>
    cases hv
    refine ⟨l.length, v, by simp, rfl, hfits, fun k' v' hv' hfits' => ?_⟩
    by_contra hlt
    rw [List.getElem?_append_left (by omega)] at hv'
    have hskipped := hnone v' (List.mem_of_getElem? hv')
    rw [if_pos hfits'] at hskipped
    cases hskipped
  · cases hv

/-- The window that a bundle was held for is the one it went out in. -/
theorem heldFor_ok {ws : List Window} {readyNow start : ℚ} {k : Option Nat}
    (h : heldFor (some ws) readyNow start = .ok k) (hlt : readyNow < start) :
    ∃ (j : Nat) (v : Window), ws[j]? = some v ∧ v.1 ≤ start ∧ start < v.2 ∧
      k = if readyNow < v.1 then some j else none := by
  unfold heldFor at h
  dsimp only at h
  rw [if_pos hlt] at h
  cases hfind : ws.zipIdx.find? fun p => p.1.1 ≤ start ∧ start < p.1.2 with
  | none =>
      rw [hfind] at h
      cases h
  | some p =>
      obtain ⟨v, j⟩ := p
      rw [hfind] at h
      cases h
      have hin := List.find?_some hfind
      rw [decide_eq_true_iff] at hin
      exact ⟨j, v, List.mk_mem_zipIdx_iff_getElem?.mp (List.mem_of_find?_eq_some hfind), hin.1, hin.2, rfl⟩

/-- A bundle that is held was ready before its window opened. -/
theorem heldFor_some {windows : Option (List Window)} {readyNow start : ℚ} {j : Nat}
    (h : heldFor windows readyNow start = .ok (some j)) : ∃ (ws : List Window) (v : Window), windows = some ws ∧
      ws[j]? = some v ∧ readyNow < v.1 ∧ v.1 ≤ start ∧ start < v.2 := by
  cases windows with
  | none => cases h
  | some ws =>
      by_cases hlt : readyNow < start
      · obtain ⟨k, v, hv, hopen, hclose, hk⟩ := heldFor_ok h hlt
        split at hk
        · next hbefore =>
          cases hk
          exact ⟨ws, v, rfl, hv, hbefore, hopen, hclose⟩
        · cases hk
      · unfold heldFor at h
        dsimp only at h
        rw [if_neg hlt] at h
        cases h

/-! ## The gaps of a link -/

variable {draws : Nat → ℚ} {link : Link} {items : List Item} {ready : Fin items.length → ℚ}

theorem outage_gapOf {ws : List Window} {j : Nat} {v : Window} (hv : ws[j]? = some v)
    (ids : List JsString) : Outage ws j (gapOf link ws j ids).downAt (gapOf link ws j ids).upAt := by
  have hj := (List.getElem?_eq_some_iff.mp hv).1
  refine ⟨⟨v, hv, ?_⟩, ?_⟩
  · show (ws.getD j (0, 0)).1 = v.1
    rw [List.getD_eq_getElem?_getD, hv, Option.getD_some]
  · show (if 0 < j then some (ws.getD (j - 1) (0, 0)).2 else none) = _
    split
    · rw [List.getD_eq_getElem?_getD, List.getElem?_eq_getElem (by omega), Option.getD_some,
        Option.map_some]
    · rfl

/-- **What the gaps of a link say**: of each the window, and bundles sent in it that were ready before. -/
theorem gap_held {drawn : Nat} {r : LinkRun items.length}
    (h : runLink draws link items ready drawn = .ok r) {g : Gap} (hg : g ∈ r.gaps) :
    ∃ j ids, g = gapOf link (link.windows.getD []) j ids ∧ g.bundlesDelayed ≠ [] ∧
      ∀ id ∈ g.bundlesDelayed, ∃ x ∈ r.sent,
        heldFor link.windows x.readyNow x.leg.txStart = .ok (some j) ∧ x.bundleId items = id := by
  obtain ⟨st, hsound, hsent, -, hgaps, -⟩ := runLink_sound h
  rw [hgaps] at hg
  obtain ⟨⟨j, ids⟩, hmem, rfl⟩ := List.mem_map.mp hg
  have hget : st.delayedBy.get? j = some ids := JsMap.mem_entries_iff.mp hmem
  refine ⟨j, ids, rfl, ?_, fun id hid => ?_⟩
  · obtain ⟨id, hid⟩ := List.exists_mem_of_ne_nil _ (hsound.listed j ids hget)
    exact List.ne_nil_of_mem (Batch.mem_sortIds.mpr hid)
  rw [hsent]
  exact (hsound.delayed j id).mp ⟨ids, hget, Batch.mem_sortIds.mp hid⟩

/-- The window that a bundle was held for has a gap with the bundle. -/
theorem exists_gap {drawn : Nat} {r : LinkRun items.length}
    (h : runLink draws link items ready drawn = .ok r) {x : Sent items.length} (hx : x ∈ r.sent) {j : Nat}
    (hheld : heldFor link.windows x.readyNow x.leg.txStart = .ok (some j)) :
    ∃ ids, gapOf link (link.windows.getD []) j ids ∈ r.gaps ∧
      x.bundleId items ∈ (gapOf link (link.windows.getD []) j ids).bundlesDelayed := by
  obtain ⟨st, hsound, hsent, -, hgaps, -⟩ := runLink_sound h
  rw [hsent] at hx
  obtain ⟨ids, hids, hmem⟩ := (hsound.delayed j (x.bundleId items)).mpr ⟨x, hx, hheld, rfl⟩
  refine ⟨ids, ?_, Batch.mem_sortIds.mpr hmem⟩
  rw [hgaps]
  exact List.mem_map.mpr ⟨(j, ids), JsMap.mem_entries_iff.mpr hids, rfl⟩

/-- **A bundle that fits next is held for the one outage that delays it.** -/
theorem held_of_delays {x : Sent items.length} (hmade : x.Made link items ready) {ws : List Window}
    (hws : link.windows = some ws) (hapart : Apart ws) (hfits : FitsNext link items x) {j : Nat}
    (hdelays : Delays ws j x) : heldFor link.windows x.readyNow x.leg.txStart = .ok (some j) := by
  obtain ⟨w, hw, hbefore, hafter⟩ := hdelays
  have hstart := hmade.start
  rw [hws] at hstart
  obtain ⟨k, v, hv, -, hend, hfirst⟩ := nextStart_first hstart
  obtain ⟨k', v', hle, hv', hfits'⟩ := hfits ws hws j w hw hbefore
  have hkj : k ≤ j := (hfirst k' v' hv' hfits').trans hle
  have htx := txMsOf_nonneg (items.get x.item).bytes link.bps_pos
  have hstop : x.leg.txStart ≤ v.2 := by
    have hend' : x.leg.txStart + txMsOf (items.get x.item).bytes link.bps ≤ v.2 := hend
    linarith
  -- It goes out no earlier than window `j` opens, and so in no window before.
  have heq : k = j := by
    by_contra hne
    have hgap := hapart.lt hv hw (by omega)
    linarith
  subst heq
  rw [hv] at hw
  cases hw
  obtain ⟨held, hheld⟩ := hmade.held
  rw [hws] at hheld ⊢
  obtain ⟨j', w', hw', hopen, hclose, hk⟩ := heldFor_ok hheld (hbefore.trans_le hafter)
  have hsame := hapart.index_eq hv hw' ⟨hafter, hstop⟩ ⟨hopen, hclose.le⟩
  subst hsame
  rw [hv] at hw'
  cases hw'
  rw [if_pos hbefore] at hk
  rw [hheld, hk]

/-- **A bundle that does not fit next** is delayed by an outage that ended before its window opened. -/
theorem delays_of_not_fits {x : Sent items.length} (hmade : x.Made link items ready) {ws : List Window}
    (hws : link.windows = some ws) (hapart : Apart ws) {j : Nat} {w : Window} (hw : ws[j]? = some w)
    (hbefore : x.readyNow < w.1) (hnone : ∀ (k : Nat) (v : Window), k ≤ j → ws[k]? = some v →
      ¬ max (startFrom x.readyNow x.free) v.1 + x.txMs link items ≤ v.2) :
    Delays ws j x ∧ w.2 < x.leg.txStart := by
  have hstart := hmade.start
  rw [hws] at hstart
  obtain ⟨k, v, hv, heq, hend, -⟩ := nextStart_first hstart
  have hlater : j < k := by
    by_contra hle
    refine hnone k v (by omega) hv ?_
    rw [← heq]
    exact hend
  have hgap := hapart.lt hw hv hlater
  have hopen := hapart.open_of_getElem? hw
  have hle : v.1 ≤ x.leg.txStart := by
    rw [heq]
    exact le_max_right _ _
  exact ⟨⟨w, hw, hbefore, by linarith⟩, by linarith⟩

/-- **A bundle sent twice over a link** is ready for the second time after it landed the first. -/
theorem ready_after_first {drawn : Nat} {r : LinkRun items.length}
    (h : runLink draws link items ready drawn = .ok r) {x y : Sent items.length} (hx : x ∈ r.sent)
    (hy : y ∈ r.sent) (hitem : x.item = y.item) (hlt : y.leg.txStart < x.leg.txStart) :
    y.leg.txStart ≤ x.readyNow := by
  obtain ⟨st, -, -, -, -, hanswers⟩ := runLink_sound h
  have hmade : ∀ z ∈ r.sent, z.Made link items ready := fun z hz => runLink_made h hz
  -- What goes out in a later round was ready when all rounds before had landed.
  have hlater : ∀ a ∈ r.sent, ∀ b ∈ r.sent, a.round < b.round → a.leg.txStart ≤ b.readyNow := by
    intro a ha b hb hround
    obtain ⟨k, hk, hsame, -, hready⟩ := hanswers.later b hb (by omega)
    have hnacked := hanswers.nacked k hk
    have hlanded := hnacked.landed a ha (by omega)
    obtain ⟨rv, -, hsent, -, harrive⟩ := hnacked.sent
    have htx := txMsOf_nonneg (nackBytes k.bundleIds.length) rv.bps_pos
    have howlt := rv.owlt_nonneg
    have hstart := (hmade a ha).start_le_end.trans (hmade a ha).end_le_arrive
    linarith
  rcases lt_trichotomy x.round y.round with hround | hround | hround
  · have hle := (hlater x hx y hy hround).trans (hmade y hy).readyNow_le
    exact absurd hlt (not_lt.mpr hle)
  · obtain rfl := hanswers.once (List.nodup_finRange _) x hx y hy hround hitem
    exact absurd hlt (lt_irrefl _)
  · exact hlater y hy x hx hround

/-! ## The gaps of a run -/

/-- Each link of a run was run. -/
theorem runLinks_runs {links : List Link} : ∀ {ready : Fin items.length → ℚ} {drawn : Nat}
    {rs : List (LinkRun items.length)}, runLinks draws items links ready drawn = .ok rs →
      List.Forall₂ (fun link r => ∃ ready drawn, runLink draws link items ready drawn = .ok r) links rs := by
  induction links with
  | nil =>
      intro ready drawn rs h
      cases h
      exact .nil
  | cons link rest ih =>
      intro ready drawn rs h
      unfold runLinks at h
      obtain ⟨r, hr, h⟩ := Outcome.bind_eq_ok.mp h
      obtain ⟨more, hmore, h⟩ := Outcome.bind_eq_ok.mp h
      cases h
      exact .cons ⟨ready, drawn, hr⟩ (ih hmore)

variable {H : Host} {i : Input} {run : Run i.items.length}

theorem runPath_runs (h : runPath draws H i = .ok run) :
    List.Forall₂ (fun link r => ∃ ready drawn, runLink draws link i.items ready drawn = .ok r) i.links
      run.links := by
  unfold runPath at h
  obtain ⟨runs, hruns, h⟩ := Outcome.bind_eq_ok.mp h
  obtain ⟨custody, -, h⟩ := Outcome.bind_eq_ok.mp h
  obtain ⟨arrivals, -, h⟩ := Outcome.bind_eq_ok.mp h
  cases h
  exact runLinks_runs hruns

/-- A gap of a run is a gap of one of its links. -/
theorem mem_gaps (h : runPath draws H i = .ok run) {g : Gap} (hg : g ∈ run.gaps) :
    ∃ p ∈ i.links.zip run.links, g ∈ p.2.gaps := by
  obtain ⟨r, hr, hg⟩ := List.mem_flatMap.mp hg
  obtain ⟨k, hk, rfl⟩ := List.mem_iff_getElem.mp hr
  have hlen := (runPath_runs h).length_eq
  refine ⟨(i.links[k], run.links[k]), ?_, hg⟩
  rw [← List.getElem_zip (h := by rw [List.length_zip]; omega)]
  exact List.getElem_mem _

/-- No record lists a bundle that its interval did not delay. -/
theorem gap_delays (h : runPath draws H i = .ok run) {g : Gap} (hg : g ∈ run.gaps) {id : JsString}
    (hid : id ∈ g.bundlesDelayed) : ∃ p ∈ i.links.zip run.links, ∃ ws, p.1.windows = some ws ∧
      g.link = p.1.id ∧ ∃ j, Outage ws j g.downAt g.upAt ∧
        ∃ x ∈ p.2.sent, x.bundleId i.items = id ∧ Delays ws j x ∧
          ∃ v : Window, ws[j]? = some v ∧ x.leg.txStart < v.2 := by
  obtain ⟨p, hp, hg⟩ := mem_gaps h hg
  obtain ⟨ready, drawn, hr⟩ := List.forall₂_zip (runPath_runs h) hp
  obtain ⟨j, ids, rfl, -, hlisted⟩ := gap_held hr hg
  obtain ⟨x, hx, hheld, hxid⟩ := hlisted id hid
  obtain ⟨ws, v, hws, hv, hbefore, hopen, hclose⟩ := heldFor_some hheld
  refine ⟨p, hp, ws, hws, rfl, j, ?_, x, hx, hxid, ⟨v, hv, hbefore, hopen⟩, v, hv, hclose⟩
  rw [hws]
  exact outage_gapOf hv ids

/-- With distinct ids, two links of one id are one. -/
theorem link_eq {rs : List (LinkRun i.items.length)} (hdistinct : (i.links.map Link.id).Nodup)
    (hlen : i.links.length = rs.length) {p q : Link × LinkRun i.items.length}
    (hp : p ∈ i.links.zip rs) (hq : q ∈ i.links.zip rs) (hid : p.1.id = q.1.id) : p = q := by
  have hzip : ((i.links.zip rs).map fun p => p.1.id).Nodup := by
    rw [← List.map_fst_zip (by omega : i.links.length ≤ rs.length), List.map_map] at hdistinct
    exact hdistinct
  exact List.inj_on_of_nodup_map hzip hp hq hid

theorem item_eq (hdistinct : (i.items.map fun it => it.bundle.bundleId).Nodup)
    {x y : Sent i.items.length} (h : x.bundleId i.items = y.bundleId i.items) : x.item = y.item := by
  have hinj := List.nodup_iff_injective_get.mp hdistinct
  have hlen : ∀ k : Fin i.items.length, k.1 < (i.items.map fun it => it.bundle.bundleId).length :=
    fun k => by rw [List.length_map]; exact k.2
  have heq := @hinj ⟨x.item, hlen _⟩ ⟨y.item, hlen _⟩ (by simpa [Sent.bundleId] using h)
  exact Fin.ext (Fin.mk.inj heq)

/-- **A bundle that fits next** is on record with every outage that delayed it. -/
theorem listed_of_delays (h : runPath draws H i = .ok run)
    {p : Link × LinkRun i.items.length} (hp : p ∈ i.links.zip run.links) {ws : List Window}
    (hws : p.1.windows = some ws) (hapart : Apart ws) {x : Sent i.items.length} (hx : x ∈ p.2.sent)
    (hfits : FitsNext p.1 i.items x) {j : Nat} (hdelays : Delays ws j x) :
    ∃ g ∈ run.gaps, g.link = p.1.id ∧ Outage ws j g.downAt g.upAt ∧
      x.bundleId i.items ∈ g.bundlesDelayed := by
  obtain ⟨ready, drawn, hr⟩ := List.forall₂_zip (runPath_runs h) hp
  obtain ⟨w, hw, -⟩ := id hdelays
  obtain ⟨ids, hgap, hlisted⟩ :=
    exists_gap hr hx (held_of_delays (runLink_made hr hx) hws hapart hfits hdelays)
  refine ⟨_, List.mem_flatMap.mpr ⟨p.2, (List.of_mem_zip hp).2, hgap⟩, rfl, ?_, hlisted⟩
  rw [hws]
  exact outage_gapOf hw ids

/-- **A bundle that does not fit next** is missing from the record of the outage before the first window
that opens: the record would be of a transmission of it in that window, and it goes out later. -/
theorem fits_of_recorded (h : runPath draws H i = .ok run)
    (hitems : (i.items.map fun it => it.bundle.bundleId).Nodup) (hlinks : (i.links.map Link.id).Nodup)
    (hrecorded : OutagesRecorded i run) {p : Link × LinkRun i.items.length}
    (hp : p ∈ i.links.zip run.links) {ws : List Window} (hws : p.1.windows = some ws)
    (hapart : Apart ws) {x : Sent i.items.length} (hx : x ∈ p.2.sent) {j : Nat} {w : Window}
    (hw : ws[j]? = some w) (hbefore : x.readyNow < w.1) :
    ∃ (k : Nat) (v : Window), k ≤ j ∧ ws[k]? = some v ∧
      max (startFrom x.readyNow x.free) v.1 + x.txMs p.1 i.items ≤ v.2 := by
  by_contra hnone
  push Not at hnone
  obtain ⟨ready, drawn, hr⟩ := List.forall₂_zip (runPath_runs h) hp
  obtain ⟨hdelays, hlate⟩ := delays_of_not_fits (runLink_made hr hx) hws hapart hw hbefore
    fun k v hk hv => not_le.mpr (hnone k v hk hv)
  obtain ⟨g, hg, hlink, hout, hlisted⟩ := hrecorded.complete p hp ws hws x hx j hdelays
  obtain ⟨q, hq, ws', hws', hlink', j', hout', y, hy, hid, ⟨v', hv', hbefore', hopen'⟩, v, hv, hclose⟩ :=
    gap_delays h hg hlisted
  -- The record is of this link and of this window.
  obtain rfl := link_eq hlinks (runPath_runs h).length_eq hp hq (hlink.symm.trans hlink')
  obtain rfl : ws = ws' := Option.some.inj (hws.symm.trans hws')
  rw [hv'] at hv
  cases hv
  obtain ⟨u, hu, hupAt⟩ := hout.upAt
  rw [hw] at hu
  cases hu
  obtain ⟨u', hu', hupAt'⟩ := hout'.upAt
  rw [hv'] at hu'
  cases hu'
  have hsame : w.1 = v'.1 := hupAt.symm.trans hupAt'
  obtain rfl := hapart.index_eq hw hv' ⟨le_rfl, hapart.open_of_getElem? hw⟩
    ⟨hsame.ge, hsame.le.trans (hapart.open_of_getElem? hv')⟩
  rw [hw] at hv'
  cases hv'
  -- The transmission on record was over before this one was ready.
  have hready := ready_after_first hr hx hy (item_eq hitems hid.symm) (hclose.trans hlate)
  linarith

/-- **Every outage is on record when each bundle fits next**, and with distinct ids only then. -/
theorem outages_recorded_iff (H : Host) (draws : Nat → ℚ) (i : Input) (run : Run i.items.length)
    (hrun : runPath draws H i = .ok run)
    (hapart : ∀ link ∈ i.links, ∀ ws, link.windows = some ws → Apart ws) :
    ((∀ p ∈ i.links.zip run.links, ∀ x ∈ p.2.sent, FitsNext p.1 i.items x) → OutagesRecorded i run) ∧
      ((i.items.map fun it => it.bundle.bundleId).Nodup → (i.links.map Link.id).Nodup →
        OutagesRecorded i run →
          ∀ p ∈ i.links.zip run.links, ∀ x ∈ p.2.sent, FitsNext p.1 i.items x) := by
  refine ⟨fun hfits => ⟨?_, ?_⟩, fun hitems hlinks hrecorded p hp x hx ws hws j w hw hbefore => ?_⟩
  · intro p hp ws hws x hx j hdelays
    exact listed_of_delays hrun hp hws (hapart p.1 (List.of_mem_zip hp).1 ws hws) hx (hfits p hp x hx)
      hdelays
  · intro g hg id hid
    obtain ⟨p, hp, ws, hws, hlink, j, hout, x, hx, hxid, hdelays, -⟩ := gap_delays hrun hg hid
    exact ⟨p, hp, ws, hws, hlink, j, hout, x, hx, hxid, hdelays⟩
  · exact fits_of_recorded hrun hitems hlinks hrecorded hp hws
      (hapart p.1 (List.of_mem_zip hp).1 ws hws) hx hw hbefore

/-- One bundle waits for the second window, and is sent again in the third: both outages are on record. -/
theorem outages_recorded_sample : ∃ run, runPath lostFirst Path.sampleHost sampleInput = .ok run ∧
    ((∀ p ∈ sampleInput.links.zip run.links, ∀ x ∈ p.2.sent, FitsNext p.1 sampleInput.items x) →
      OutagesRecorded sampleInput run) ∧
    ((sampleInput.items.map fun it => it.bundle.bundleId).Nodup →
      (sampleInput.links.map Link.id).Nodup → OutagesRecorded sampleInput run →
        ∀ p ∈ sampleInput.links.zip run.links, ∀ x ∈ p.2.sent, FitsNext p.1 sampleInput.items x) := by
  obtain ⟨run, hrun⟩ := Outcome.exists_ok (x := runPath lostFirst Path.sampleHost sampleInput)
    (by decide +kernel)
  refine ⟨run, hrun, outages_recorded_iff Path.sampleHost lostFirst sampleInput run hrun ?_⟩
  intro link hlink ws hws
  rcases List.mem_cons.mp hlink with rfl | hlink
  · cases hws
    exact ⟨by decide +kernel, by decide +kernel⟩
  · rcases List.mem_pair.mp hlink with rfl | rfl <;> cases hws

/-! ## A window that is too short -/

/-- Windows of three milliseconds, of one and of twenty. -/
def shortWindows : Link := { spaceLink with windows := some [(0, 3), (10, 11), (20, 40)], ber := 0 }

/-- A bundle of five milliseconds. -/
def longBundle : Input where
  hops := [js "dtn://vgr1/", js "dtn://dsn/"]
  links := [shortWindows]
  items := [{ sampleItem "b0" 0 with bytes := 5 }]
  relays := sampleRelays

/-- The bundle is ready from the start and waits through two outages; the second is on record alone. -/
theorem first_outage_missing : ∃ run, runPath lostFirst Path.sampleHost longBundle = .ok run ∧
    (∀ link ∈ longBundle.links, ∀ ws, link.windows = some ws → Apart ws) ∧
      ¬ OutagesRecorded longBundle run := by
  obtain ⟨run, hrun⟩ := Outcome.exists_ok (x := runPath lostFirst Path.sampleHost longBundle)
    (by decide +kernel)
  have hseen : (runPath lostFirst Path.sampleHost longBundle).toOption.map (fun run =>
      (run.gaps.map Gap.upAt, run.links.map fun r => r.sent.map fun x => (x.readyNow, x.leg.txStart))) =
        some ([20], [[(0, 20)]]) := by decide +kernel
  rw [hrun] at hseen
  have hgaps : run.gaps.map Gap.upAt = [20] := congrArg Prod.fst (Option.some.inj hseen)
  have hsents : run.links.map (fun r => r.sent.map fun x => (x.readyNow, x.leg.txStart)) = [[(0, 20)]] :=
    congrArg Prod.snd (Option.some.inj hseen)
  refine ⟨run, hrun, fun link hlink ws hws => ?_, fun hrecorded => ?_⟩
  · cases List.mem_singleton.mp hlink
    cases hws
    exact ⟨by decide +kernel, by decide +kernel⟩
  obtain ⟨r, hlinks, hsent⟩ := List.map_eq_singleton_iff.mp hsents
  obtain ⟨x, hx, htimes⟩ := List.map_eq_singleton_iff.mp hsent
  obtain ⟨hready, hstart⟩ := Prod.mk.inj htimes
  have hdelays : Delays [(0, 3), (10, 11), (20, 40)] 1 x :=
    ⟨(10, 11), rfl, by rw [hready]; norm_num, by rw [hstart]; norm_num⟩
  have hp : (shortWindows, r) ∈ longBundle.links.zip run.links := by
    rw [hlinks]
    exact List.mem_singleton_self _
  obtain ⟨g, hg, -, hout, -⟩ := hrecorded.complete _ hp _ rfl x (by rw [hx]; exact List.mem_singleton_self _)
    1 hdelays
  obtain ⟨w, hw, hup⟩ := hout.upAt
  cases hw
  have hupAt : g.upAt ∈ run.gaps.map Gap.upAt := List.mem_map_of_mem hg
  rw [hgaps, hup] at hupAt
  exact absurd hupAt (by decide)

end DtnCustody.Voyager
