/-
# DtnCustody.Voyager.Timeline — the timeline of a run over links.

What one transmission does is said once (`send_sends`), and from it what a round and what all rounds of a
link do (`sendAll_round`, `rounds_sound`). So every link is on time (`OnTime`): no transmission starts
before its bundle is ready or outside a window, none overlaps another, and every resend comes after the
NACK that asks for it, which comes after the last landing of its round. The links make one chain of legs
for each bundle, and the receipts of the relays follow it: they are accepted with no skew
(`path_on_time`).
-/
import DtnCustody.Agent.Acceptance
import DtnCustody.Voyager.Link
import Mathlib.Tactic.Linarith
import Mathlib.Tactic.Positivity

namespace DtnCustody.Voyager

open Base Js

/-! ## Starting in a window -/

/-- A transmission lies in one of the windows. -/
def Within (windows : Option (List Window)) (start stop : ℚ) : Prop :=
  ∀ ws, windows = some ws → ∃ w ∈ ws, w.1 ≤ start ∧ stop ≤ w.2

/-- What is found starts no earlier than asked, and fits. -/
theorem nextStart_some {windows : Option (List Window)} {t txMs start : ℚ}
    (h : nextStart windows t txMs = some start) : t ≤ start ∧ Within windows start (start + txMs) := by
  cases windows with
  | none =>
      cases h
      exact ⟨le_rfl, fun ws hws => by cases hws⟩
  | some ws =>
      obtain ⟨w, hw, hfits⟩ := List.exists_of_findSome?_eq_some h
      split at hfits
      · next hend =>
        cases hfits
        refine ⟨le_max_left _ _, fun ws' hws => ?_⟩
        cases hws
        exact ⟨w, hw, le_max_right _ _, hend⟩
      · cases hfits

theorem txMsOf_nonneg (bytes : Nat) {bps : ℚ} (hbps : 0 < bps) : 0 ≤ txMsOf bytes bps := by
  have hceil : (0 : ℤ) ≤ ⌈(bytes * 8 * 1000 : ℚ) / bps⌉ := Int.ceil_nonneg (by positivity)
  rw [txMsOf]
  exact Int.cast_nonneg hceil

theorem le_startFrom (readyNow : ℚ) (free : Option ℚ) : readyNow ≤ startFrom readyNow free := by
  cases free with
  | none => exact le_rfl
  | some f => exact le_max_left _ _

theorem free_le_startFrom (readyNow f : ℚ) : f ≤ startFrom readyNow (some f) := le_max_right _ _

/-! ## One transmission -/

variable {draws : Nat → ℚ} {link : Link} {items : List Item}
  {ready readyNow : Fin items.length → ℚ}

/-- How long a bundle takes. -/
def Sent.txMs (link : Link) (items : List Item) (x : Sent items.length) : ℚ :=
  txMsOf (items.get x.item).bytes link.bps

/-- The id of the bundle. -/
def Sent.bundleId (items : List Item) (x : Sent items.length) : JsString :=
  (items.get x.item).bundle.bundleId

/-- A transmission as the link makes them. -/
structure Sent.Made (link : Link) (items : List Item) (ready : Fin items.length → ℚ)
    (x : Sent items.length) : Prop where
  start : nextStart link.windows (startFrom x.readyNow x.free) (x.txMs link items) = some x.leg.txStart
  txEnd : x.leg.txEnd = x.leg.txStart + x.txMs link items
  arriveAt : x.leg.arriveAt = x.leg.txEnd + link.owltMs
  readyAt : x.leg.readyAt = ready x.item
  ready : ready x.item ≤ x.readyNow
  held : ∃ k, heldFor link.windows x.readyNow x.leg.txStart = .ok k

namespace Sent.Made

variable {x : Sent items.length} (h : x.Made link items ready)

include h

theorem startFrom_le : startFrom x.readyNow x.free ≤ x.leg.txStart := (nextStart_some h.start).1

theorem readyNow_le : x.readyNow ≤ x.leg.txStart := (le_startFrom _ _).trans h.startFrom_le

theorem start_le_end : x.leg.txStart ≤ x.leg.txEnd := by
  rw [h.txEnd]
  exact le_add_of_nonneg_right (txMsOf_nonneg _ link.bps_pos)

theorem end_le_arrive : x.leg.txEnd ≤ x.leg.arriveAt := by
  rw [h.arriveAt]
  exact le_add_of_nonneg_right link.owlt_nonneg

theorem within : Within link.windows x.leg.txStart x.leg.txEnd := by
  rw [h.txEnd]
  exact (nextStart_some h.start).2

end Sent.Made

/-- What a turn of the inner loop does with the variables. -/
structure Sends (link : Link) (items : List Item) (st st' : Turn items.length) (x : Sent items.length)
    (held : Option Nat) : Prop where
  before : x.free = st.free
  outage : heldFor link.windows x.readyNow x.leg.txStart = .ok held
  free : st'.free = some x.leg.txEnd
  delayedBy : st'.delayedBy = addDelayed st.delayedBy (x.bundleId items) held
  legs : st'.legs = if x.lost then st.legs else Function.update st.legs x.item (some x.leg)
  roundEnd : st'.roundEnd = some (startFrom x.leg.arriveAt st.roundEnd)
  sent : st'.sent = st.sent ++ [x]

/-- **One turn sends one bundle.** -/
theorem send_sends (hready : ∀ i, ready i ≤ readyNow i) {round : Nat} {st st' : Turn items.length}
    {i : Fin items.length} {lost : Bool}
    (h : send draws link items ready readyNow round st i = .ok (st', lost)) :
    ∃ x held, x.Made link items ready ∧ Sends link items st st' x held ∧ x.item = i ∧
      x.round = round ∧ x.readyNow = readyNow i ∧ x.lost = lost := by
  unfold send at h
  dsimp only at h
  cases hstart : nextStart link.windows (startFrom (readyNow i) st.free)
      (txMsOf (items.get i).bytes link.bps) with
  | none =>
      rw [hstart] at h
      cases h
  | some start =>
      rw [hstart] at h
      obtain ⟨held, hheld, h⟩ := Outcome.bind_eq_ok.mp h
      cases h
      let stop := start + txMsOf (items.get i).bytes link.bps
      let leg : Leg :=
        { link := link.id, readyAt := ready i, txStart := start, txEnd := stop
          arriveAt := stop + link.owltMs
          attempts := Function.update st.attempts i (st.attempts i + 1) i }
      refine ⟨{ item := i, round, readyNow := readyNow i, free := st.free, leg, lost := _ }, held,
        ⟨hstart, rfl, rfl, rfl, hready i, held, hheld⟩, ?_, rfl, rfl, rfl, rfl⟩
      exact ⟨rfl, hheld, rfl, rfl, rfl, rfl, rfl⟩

/-! ## What holds of a link at any time -/

/-- The id is in the set kept for the window. -/
def DelayedBy (delayedBy : JsMap Nat (List JsString)) (w : Nat) (id : JsString) : Prop :=
  ∃ ids, delayedBy.get? w = some ids ∧ id ∈ ids

theorem delayedBy_addDelayed {delayedBy : JsMap Nat (List JsString)} {id : JsString} {held : Option Nat}
    {w : Nat} {id' : JsString} : DelayedBy (addDelayed delayedBy id held) w id' ↔
      DelayedBy delayedBy w id' ∨ held = some w ∧ id = id' := by
  cases held with
  | none => simp [addDelayed]
  | some v =>
      have hids : ∀ ids : List JsString, id' ∈ (if id ∈ ids then ids else ids ++ [id]) ↔
          id' ∈ ids ∨ id = id' := by
        intro ids
        split
        · next hmem => exact ⟨.inl, fun h => h.elim (fun h => h) fun h => h ▸ hmem⟩
        · simp [eq_comm]
      unfold DelayedBy addDelayed
      dsimp only
      by_cases hw : w = v
      · subst hw
        rw [JsMap.get?_set_self]
        cases delayedBy.get? w with
        | none => simp [eq_comm]
        | some ids => simp [hids]
      · rw [JsMap.get?_set_ne _ hw]
        simp [Ne.symm hw]

/-- No set is kept for a window without a bundle in it. -/
theorem addDelayed_ne_nil {delayedBy : JsMap Nat (List JsString)}
    (h : ∀ w ids, delayedBy.get? w = some ids → ids ≠ []) (id : JsString) (held : Option Nat) :
    ∀ w ids, (addDelayed delayedBy id held).get? w = some ids → ids ≠ [] := by
  intro w ids hget
  cases held with
  | none => exact h w ids hget
  | some v =>
      by_cases hw : w = v
      · rw [hw, addDelayed, JsMap.get?_set_self] at hget
        cases hget
        split
        · next hmem => exact List.ne_nil_of_mem hmem
        · simp
      · rw [addDelayed, JsMap.get?_set_ne _ hw] at hget
        exact h w ids hget

/-- **What holds of the variables of a link** after any transmission. -/
structure Turn.Sound (link : Link) (items : List Item) (ready : Fin items.length → ℚ)
    (st : Turn items.length) : Prop where
  made : ∀ x ∈ st.sent, x.Made link items ready
  apart : st.sent.Pairwise fun x y => x.leg.txEnd ≤ y.leg.txStart
  free : ∀ x ∈ st.sent, ∃ f, st.free = some f ∧ x.leg.txEnd ≤ f
  legs : ∀ i leg, st.legs i = some leg → ∃ x ∈ st.sent, x.item = i ∧ x.leg = leg ∧ x.lost = false
  delayed : ∀ w id, DelayedBy st.delayedBy w id ↔ ∃ x ∈ st.sent,
    heldFor link.windows x.readyNow x.leg.txStart = .ok (some w) ∧ x.bundleId items = id
  listed : ∀ w ids, st.delayedBy.get? w = some ids → ids ≠ []

theorem sound_start (drawn : Nat) : (Turn.start drawn).Sound link items ready where
  made := fun x hx => (List.not_mem_nil hx).elim
  apart := List.Pairwise.nil
  free := fun x hx => (List.not_mem_nil hx).elim
  legs := fun i leg hleg => by cases hleg
  delayed := by
    intro w id
    refine iff_of_false ?_ ?_
    · rintro ⟨ids, hids, -⟩
      cases hids
    · rintro ⟨x, hx, -⟩
      exact List.not_mem_nil hx
  listed := fun w ids h => by cases h

theorem Turn.Sound.sends {st st' : Turn items.length} (h : st.Sound link items ready)
    {x : Sent items.length} (hx : x.Made link items ready) {held : Option Nat}
    (hsends : Sends link items st st' x held) : st'.Sound link items ready := by
  have hmem : ∀ {y}, y ∈ st'.sent ↔ y ∈ st.sent ∨ y = x := by
    intro y
    rw [hsends.sent, List.mem_append, List.mem_singleton]
  have hfree : ∀ y ∈ st.sent, y.leg.txEnd ≤ x.leg.txStart := by
    intro y hy
    obtain ⟨f, hf, hle⟩ := h.free y hy
    have hstart := hx.startFrom_le
    rw [hsends.before, hf] at hstart
    exact (hle.trans (free_le_startFrom _ _)).trans hstart
  refine ⟨?_, ?_, ?_, ?_, ?_, hsends.delayedBy ▸ addDelayed_ne_nil h.listed _ _⟩
  · intro y hy
    rcases hmem.mp hy with hy | rfl
    · exact h.made y hy
    · exact hx
  · rw [hsends.sent, List.pairwise_append]
    refine ⟨h.apart, List.pairwise_singleton _ _, fun y hy z hz => ?_⟩
    rw [List.mem_singleton.mp hz]
    exact hfree y hy
  · intro y hy
    refine ⟨x.leg.txEnd, hsends.free, ?_⟩
    rcases hmem.mp hy with hy | rfl
    · exact (hfree y hy).trans hx.start_le_end
    · exact le_rfl
  · intro i leg hleg
    have hold : st.legs i = some leg → ∃ y ∈ st'.sent, y.item = i ∧ y.leg = leg ∧ y.lost = false := by
      intro hleg
      obtain ⟨y, hy, hrest⟩ := h.legs i leg hleg
      exact ⟨y, hmem.mpr (.inl hy), hrest⟩
    rw [hsends.legs] at hleg
    split at hleg
    · exact hold hleg
    · next hkept =>
      by_cases hi : i = x.item
      · rw [hi, Function.update_self] at hleg
        cases hleg
        exact ⟨x, hmem.mpr (.inr rfl), hi.symm, rfl, Bool.eq_false_iff.mpr hkept⟩
      · rw [Function.update_of_ne hi] at hleg
        exact hold hleg
  · intro w id
    rw [hsends.delayedBy, delayedBy_addDelayed, h.delayed w id]
    constructor
    · rintro (⟨y, hy, hrest⟩ | ⟨rfl, hid⟩)
      · exact ⟨y, hmem.mpr (.inl hy), hrest⟩
      · exact ⟨x, hmem.mpr (.inr rfl), hsends.outage, hid⟩
    · rintro ⟨y, hy, hheld, hid⟩
      rcases hmem.mp hy with hy | rfl
      · exact .inl ⟨y, hy, hheld, hid⟩
      · rw [hsends.outage] at hheld
        exact .inr ⟨Except.ok.inj hheld, hid⟩

/-! ## One round -/

/-- What the inner loop does with a list of bundles. -/
structure Makes (round : Nat) (readyNow : Fin items.length → ℚ) (order : List (Fin items.length))
    (st st' : Turn items.length) (lost : List (Fin items.length)) (new : List (Sent items.length)) :
    Prop where
  sent : st'.sent = st.sent ++ new
  order : new.map Sent.item = order
  inRound : ∀ x ∈ new, x.round = round ∧ x.readyNow = readyNow x.item
  lost : lost = (new.filter Sent.lost).map Sent.item
  grows : ∀ e, st.roundEnd = some e → ∃ e', st'.roundEnd = some e' ∧ e ≤ e'
  landed : ∀ x ∈ new, ∃ e, st'.roundEnd = some e ∧ x.leg.arriveAt ≤ e
  last : ∀ e, st'.roundEnd = some e → st.roundEnd = some e ∨ ∃ x ∈ new, x.leg.arriveAt = e

theorem startFrom_eq (readyNow : ℚ) (free : Option ℚ) :
    startFrom readyNow free = readyNow ∨ free = some (startFrom readyNow free) := by
  cases free with
  | none => exact .inl rfl
  | some f =>
      rcases max_choice readyNow f with h | h
      · exact .inl h
      · exact .inr (congrArg some h.symm)

/-- **One round** sends the bundles one by one. -/
theorem sendAll_makes (hready : ∀ i, ready i ≤ readyNow i) {round : Nat}
    {order : List (Fin items.length)} : ∀ {st st' : Turn items.length} {lost : List (Fin items.length)},
      sendAll draws link items ready readyNow round st order = .ok (st', lost) →
        st.Sound link items ready →
          st'.Sound link items ready ∧ ∃ new, Makes round readyNow order st st' lost new := by
  induction order with
  | nil =>
      intro st st' lost h hsound
      cases h
      refine ⟨hsound, [], (List.append_nil _).symm, rfl, fun x hx => (List.not_mem_nil hx).elim, rfl,
        fun e he => ⟨e, he, le_rfl⟩, fun x hx => (List.not_mem_nil hx).elim, fun e he => .inl he⟩
  | cons i order ih =>
      intro st st' lost h hsound
      rw [sendAll] at h
      obtain ⟨⟨st₁, lostOne⟩, hsend, h⟩ := Outcome.bind_eq_ok.mp h
      obtain ⟨⟨st₂, more⟩, hmore, h⟩ := Outcome.bind_eq_ok.mp h
      cases h
      obtain ⟨x, held, hmade, hsends, hitem, hround, hreadyNow, hlost⟩ := send_sends hready hsend
      obtain ⟨hsound', new, hnew⟩ := ih hmore (hsound.sends hmade hsends)
      refine ⟨hsound', x :: new, ?_, ?_, ?_, ?_, ?_, ?_, ?_⟩
      · rw [hnew.sent, hsends.sent, List.append_assoc, List.singleton_append]
      · rw [List.map_cons, hnew.order, hitem]
      · exact List.forall_mem_cons.mpr ⟨⟨hround, hitem ▸ hreadyNow⟩, hnew.inRound⟩
      · rw [List.filter_cons, hlost, hnew.lost]
        cases lostOne with
        | false => rfl
        | true => simp [hitem]
      · intro e he
        obtain ⟨e', he', hle⟩ := hnew.grows _ hsends.roundEnd
        rw [he] at hle
        exact ⟨e', he', (free_le_startFrom _ _).trans hle⟩
      · refine List.forall_mem_cons.mpr ⟨?_, hnew.landed⟩
        obtain ⟨e', he', hle⟩ := hnew.grows _ hsends.roundEnd
        exact ⟨e', he', (le_startFrom _ _).trans hle⟩
      · intro e he
        rcases hnew.last e he with hlast | ⟨y, hy, hye⟩
        · rw [hsends.roundEnd] at hlast
          cases hlast
          rcases startFrom_eq x.leg.arriveAt st.roundEnd with heq | heq
          · exact .inr ⟨x, List.mem_cons_self, heq.symm⟩
          · exact .inl heq
        · exact .inr ⟨y, List.mem_cons_of_mem _ hy, hye⟩

/-! ## The rounds of a link -/

/-- A NACK, and the landings and resends around it. -/
structure Nacked (link : Link) (items : List Item) (new : List (Sent items.length)) (k : Resend) : Prop where
  /-- The NACK goes out after the last landing of the round, in a reverse window. -/
  sent : ∃ rv, link.reverse = some rv ∧ k.lastLandedAt ≤ k.nackSentAt ∧
    Within rv.windows k.nackSentAt (k.nackSentAt + txMsOf (nackBytes k.bundleIds.length) rv.bps) ∧
      k.nackArriveAt = k.nackSentAt + txMsOf (nackBytes k.bundleIds.length) rv.bps + rv.owltMs
  landed : ∀ x ∈ new, x.round < k.round → x.leg.arriveAt ≤ k.lastLandedAt
  last : ∃ x ∈ new, x.round + 1 = k.round ∧ x.leg.arriveAt = k.lastLandedAt
  follows : ∀ x ∈ new, k.round ≤ x.round → k.nackArriveAt ≤ x.readyNow

theorem nack_ok {round : Nat} {lost : List (Fin items.length)} {roundEnd : ℚ} {k : Resend}
    (h : nack link items round lost roundEnd = .ok k) :
    k.round = round + 1 ∧ k.bundleIds = lost.map (fun i => (items.get i).bundle.bundleId) ∧
      k.lastLandedAt = roundEnd ∧ roundEnd ≤ k.nackArriveAt ∧ ∃ rv, link.reverse = some rv ∧
        k.lastLandedAt ≤ k.nackSentAt ∧
          Within rv.windows k.nackSentAt
            (k.nackSentAt + txMsOf (nackBytes k.bundleIds.length) rv.bps) ∧
          k.nackArriveAt = k.nackSentAt + txMsOf (nackBytes k.bundleIds.length) rv.bps + rv.owltMs := by
  unfold nack at h
  cases hrv : link.reverse with
  | none =>
      rw [hrv] at h
      cases h
  | some rv =>
      rw [hrv] at h
      dsimp only at h
      cases hstart : nextStart rv.windows roundEnd (txMsOf (nackBytes lost.length) rv.bps) with
      | none =>
          rw [hstart] at h
          cases h
      | some start =>
          rw [hstart] at h
          cases h
          obtain ⟨hle, hwithin⟩ := nextStart_some hstart
          have htx := txMsOf_nonneg (nackBytes lost.length) rv.bps_pos
          have howlt := rv.owlt_nonneg
          refine ⟨rfl, rfl, rfl, ?_, rv, rfl, hle, ?_, ?_⟩
          · show roundEnd ≤ start + txMsOf (nackBytes lost.length) rv.bps + rv.owltMs
            linarith
          · rw [List.length_map]
            exact hwithin
          · rw [List.length_map]

/-- What the rounds from one on send, and the NACKs between them. -/
structure Answers (link : Link) (items : List Item) (round : Nat) (readyNow : Fin items.length → ℚ)
    (pending : List (Fin items.length)) (new : List (Sent items.length)) (resends : List Resend) :
    Prop where
  rounds : ∀ x ∈ new, round ≤ x.round
  first : ∀ x ∈ new, x.round = round → x.item ∈ pending ∧ x.readyNow = readyNow x.item
  later : ∀ x ∈ new, x.round ≠ round → ∃ k ∈ resends, k.round = x.round ∧
    x.bundleId items ∈ k.bundleIds ∧ x.readyNow = k.nackArriveAt
  behind : ∀ k ∈ resends, round < k.round
  nacked : ∀ k ∈ resends, Nacked link items new k
  once : pending.Nodup → ∀ x ∈ new, ∀ y ∈ new, x.round = y.round → x.item = y.item → x = y

theorem Makes.mem_pending {round : Nat} {pending : List (Fin items.length)} {st st' : Turn items.length}
    {lost : List (Fin items.length)} {new : List (Sent items.length)}
    (h : Makes round readyNow (inReadyOrder readyNow pending) st st' lost new) {x : Sent items.length}
    (hx : x ∈ new) : x.item ∈ pending := by
  have hmem := List.mem_map_of_mem (f := Sent.item) hx
  rw [h.order, inReadyOrder, List.mem_insertionSort] at hmem
  exact hmem

theorem Makes.nodup {round : Nat} {pending : List (Fin items.length)} {st st' : Turn items.length}
    {lost : List (Fin items.length)} {new : List (Sent items.length)}
    (h : Makes round readyNow (inReadyOrder readyNow pending) st st' lost new)
    (hpending : pending.Nodup) : (new.map Sent.item).Nodup := by
  rw [h.order, inReadyOrder, (List.perm_insertionSort _ pending).nodup_iff]
  exact hpending

/-- A link of which nothing was lost in the last round. -/
theorem Makes.answers {round : Nat} {pending : List (Fin items.length)} {st st' : Turn items.length}
    {lost : List (Fin items.length)} {new : List (Sent items.length)}
    (h : Makes round readyNow (inReadyOrder readyNow pending) st st' lost new) :
    Answers link items round readyNow pending new [] where
  rounds := fun x hx => (h.inRound x hx).1.ge
  first := fun x hx _ => ⟨h.mem_pending hx, (h.inRound x hx).2⟩
  later := fun x hx hne => absurd (h.inRound x hx).1 hne
  behind := fun _ hk => (List.not_mem_nil hk).elim
  nacked := fun _ hk => (List.not_mem_nil hk).elim
  once := fun hpending _ hx _ hy _ => List.inj_on_of_nodup_map (h.nodup hpending) hx hy

/-- A round with losses, and all the rounds behind its NACK. -/
theorem Makes.then {round : Nat} {pending : List (Fin items.length)} {st st' : Turn items.length}
    {lost : List (Fin items.length)} {new : List (Sent items.length)}
    (h : Makes round readyNow (inReadyOrder readyNow pending) st st' lost new)
    (hnone : st.roundEnd = none) {roundEnd : ℚ} (hend : st'.roundEnd = some roundEnd) {k : Resend}
    (hk : nack link items round lost roundEnd = .ok k) {new' : List (Sent items.length)}
    {resends : List Resend}
    (hlater : Answers link items (round + 1) (fun i => if i ∈ lost then k.nackArriveAt else readyNow i)
      lost new' resends)
    (hbound : ∀ x ∈ new', k.nackArriveAt ≤ x.leg.arriveAt ∧ k.nackArriveAt ≤ x.readyNow) :
    Answers link items round readyNow pending (new ++ new') (k :: resends) := by
  obtain ⟨hround, hids, hlanded, hend', hnack⟩ := nack_ok hk
  have hbefore : ∀ x ∈ new, x.leg.arriveAt ≤ roundEnd := by
    intro x hx
    obtain ⟨e, he, hle⟩ := h.landed x hx
    rw [hend] at he
    cases he
    exact hle
  refine ⟨?_, ?_, ?_, ?_, ?_, ?_⟩
  · intro x hx
    rcases List.mem_append.mp hx with hx | hx
    · exact (h.inRound x hx).1.ge
    · exact Nat.le_of_succ_le (hlater.rounds x hx)
  · intro x hx hfirst
    rcases List.mem_append.mp hx with hx | hx
    · exact ⟨h.mem_pending hx, (h.inRound x hx).2⟩
    · have hle := hlater.rounds x hx
      omega
  · intro x hx hne
    rcases List.mem_append.mp hx with hx | hx
    · exact absurd (h.inRound x hx).1 hne
    · by_cases hnext : x.round = round + 1
      · obtain ⟨hmem, hreadyNow⟩ := hlater.first x hx hnext
        rw [if_pos hmem] at hreadyNow
        refine ⟨k, List.mem_cons_self, hround.trans hnext.symm, ?_, hreadyNow⟩
        rw [hids]
        exact List.mem_map.mpr ⟨x.item, hmem, rfl⟩
      · obtain ⟨k', hk', hrest⟩ := hlater.later x hx hnext
        exact ⟨k', List.mem_cons_of_mem _ hk', hrest⟩
  · intro k' hk'
    rcases List.mem_cons.mp hk' with rfl | hk'
    · omega
    · exact Nat.lt_of_succ_lt (hlater.behind k' hk')
  · intro k' hk'
    rcases List.mem_cons.mp hk' with rfl | hk'
    · refine ⟨hnack, ?_, ?_, ?_⟩
      · intro x hx hlt
        rcases List.mem_append.mp hx with hx | hx
        · exact (hbefore x hx).trans_eq hlanded.symm
        · have hle := hlater.rounds x hx
          omega
      · rcases h.last roundEnd hend with hlast | ⟨x, hx, hlast⟩
        · rw [hnone] at hlast
          cases hlast
        · refine ⟨x, List.mem_append_left _ hx, ?_, hlast.trans hlanded.symm⟩
          rw [(h.inRound x hx).1, hround]
      · intro x hx hle
        rcases List.mem_append.mp hx with hx | hx
        · have hx := (h.inRound x hx).1
          omega
        · exact (hbound x hx).2
    · have hnacked := hlater.nacked k' hk'
      have hbehind := hlater.behind k' hk'
      refine ⟨hnacked.sent, ?_, ?_, ?_⟩
      · intro x hx hlt
        rcases List.mem_append.mp hx with hx | hx
        · -- What landed before this NACK landed before all that was sent after it.
          obtain ⟨y, hy, -, hlast⟩ := hnacked.last
          calc x.leg.arriveAt ≤ roundEnd := hbefore x hx
            _ ≤ k.nackArriveAt := hend'
            _ ≤ y.leg.arriveAt := (hbound y hy).1
            _ = k'.lastLandedAt := hlast
        · exact hnacked.landed x hx hlt
      · obtain ⟨x, hx, hrest⟩ := hnacked.last
        exact ⟨x, List.mem_append_right _ hx, hrest⟩
      · intro x hx hle
        rcases List.mem_append.mp hx with hx | hx
        · have hx := (h.inRound x hx).1
          omega
        · exact hnacked.follows x hx hle
  · intro hpending x hx y hy hsame hitem
    have hnodup := h.nodup hpending
    have hlost : lost.Nodup := by
      rw [h.lost]
      exact hnodup.sublist (List.filter_sublist.map _)
    rcases List.mem_append.mp hx with hx | hx <;> rcases List.mem_append.mp hy with hy | hy
    · exact List.inj_on_of_nodup_map hnodup hx hy hitem
    · have hx := (h.inRound x hx).1
      have hle := hlater.rounds y hy
      omega
    · have hy := (h.inRound y hy).1
      have hle := hlater.rounds x hx
      omega
    · exact hlater.once hlost x hx y hy hsame hitem

/-- **All rounds of a link.** Nothing starts before all that is pending is ready. -/
theorem rounds_sound {left : Nat} : ∀ {round : Nat} {readyNow : Fin items.length → ℚ}
    {st st' : Turn items.length} {pending : List (Fin items.length)} {resends : List Resend},
      (∀ i, ready i ≤ readyNow i) →
        rounds draws link items ready left round readyNow st pending = .ok (st', resends) →
          st.Sound link items ready → st'.Sound link items ready ∧
            ∃ new, st'.sent = st.sent ++ new ∧
              Answers link items round readyNow pending new resends ∧
                ∀ b, (∀ i ∈ pending, b ≤ readyNow i) → ∀ x ∈ new, b ≤ x.readyNow := by
  induction left with
  | zero =>
      intro round readyNow st st' pending resends _ h hsound
      cases pending with
      | nil =>
          rw [rounds] at h
          cases h
          refine ⟨hsound, [], (List.append_nil _).symm, ⟨?_, ?_, ?_, ?_, ?_, ?_⟩, ?_⟩ <;> simp
      | cons i pending =>
          rw [rounds] at h
          cases h
  | succ left ih =>
      intro round readyNow st st' pending resends hready h hsound
      cases pending with
      | nil =>
          rw [rounds] at h
          cases h
          refine ⟨hsound, [], (List.append_nil _).symm, ⟨?_, ?_, ?_, ?_, ?_, ?_⟩, ?_⟩ <;> simp
      | cons i pending =>
          rw [rounds] at h
          obtain ⟨⟨st₁, lost⟩, hround, h⟩ := Outcome.bind_eq_ok.mp h
          have hopen : Turn.Sound link items ready { st with roundEnd := none } :=
            ⟨hsound.made, hsound.apart, hsound.free, hsound.legs, hsound.delayed, hsound.listed⟩
          obtain ⟨hsound₁, new, hnew⟩ := sendAll_makes hready hround hopen
          have hpending : ∀ b, (∀ j ∈ i :: pending, b ≤ readyNow j) → ∀ x ∈ new, b ≤ x.readyNow := by
            intro b hb x hx
            rw [(hnew.inRound x hx).2]
            exact hb _ (hnew.mem_pending hx)
          have hmade : ∀ x ∈ new, x.Made link items ready := fun x hx =>
            hsound₁.made x (hnew.sent ▸ List.mem_append_right _ hx)
          dsimp only at h
          split at h
          · next j more roundEnd hend =>
            obtain ⟨k, hk, h⟩ := Outcome.bind_eq_ok.mp h
            obtain ⟨⟨st₂, resends'⟩, hrest, h⟩ := Outcome.bind_eq_ok.mp h
            cases h
            obtain ⟨-, -, -, hle, -⟩ := nack_ok hk
            -- What is lost was ready before it landed, and so before the NACK arrives.
            have hlost : ∀ i' ∈ j :: more, i' ∈ i :: pending ∧ readyNow i' ≤ k.nackArriveAt := by
              intro i' hi'
              rw [hnew.lost] at hi'
              obtain ⟨x, hx, rfl⟩ := List.mem_map.mp hi'
              have hx := (List.mem_filter.mp hx).1
              obtain ⟨e, he, hlanded⟩ := hnew.landed x hx
              rw [hend] at he
              cases he
              have hx' := hmade x hx
              have hreadyNow := hx'.readyNow_le
              have hstart := hx'.start_le_end
              have harrive := hx'.end_le_arrive
              rw [(hnew.inRound x hx).2] at hreadyNow
              exact ⟨hnew.mem_pending hx, by linarith⟩
            have hready' : ∀ i', ready i' ≤ if i' ∈ j :: more then k.nackArriveAt else readyNow i' := by
              intro i'
              split
              · next hmem => exact (hready i').trans (hlost i' hmem).2
              · exact hready i'
            obtain ⟨hsound₂, new', hsent, hanswers, hbound⟩ := ih hready' hrest hsound₁
            have hnack : ∀ x ∈ new', k.nackArriveAt ≤ x.leg.arriveAt ∧ k.nackArriveAt ≤ x.readyNow := by
              intro x hx
              have hx' := hsound₂.made x (hsent ▸ List.mem_append_right _ hx)
              have hle := hbound k.nackArriveAt (fun i' hi' => by rw [if_pos hi']) x hx
              have hstart := hx'.readyNow_le.trans (hx'.start_le_end.trans hx'.end_le_arrive)
              exact ⟨hle.trans hstart, hle⟩
            refine ⟨hsound₂, new ++ new', ?_, hnew.then rfl hend hk hanswers hnack, ?_⟩
            · rw [hsent, hnew.sent, List.append_assoc]
            · intro b hb x hx
              rcases List.mem_append.mp hx with hx | hx
              · exact hpending b hb x hx
              · refine hbound b (fun i' hi' => ?_) x hx
                obtain ⟨hmem, hle⟩ := hlost i' hi'
                rw [if_pos hi']
                exact (hb i' hmem).trans hle
          · cases h
            exact ⟨hsound₁, new, hnew.sent, hnew.answers, hpending⟩

/-! ## A link on time -/

/-- **The schedule of a link is valid.** -/
structure OnTime (link : Link) (items : List Item) (ready : Fin items.length → ℚ)
    (r : LinkRun items.length) : Prop where
  ready : ∀ x ∈ r.sent, ready x.item ≤ x.readyNow ∧ x.readyNow ≤ x.leg.txStart
  lasts : ∀ x ∈ r.sent, x.leg.txEnd = x.leg.txStart + x.txMs link items ∧ x.leg.txStart ≤ x.leg.txEnd
  window : ∀ x ∈ r.sent, Within link.windows x.leg.txStart x.leg.txEnd
  apart : r.sent.Pairwise fun x y => x.leg.txEnd ≤ y.leg.txStart
  arrives : ∀ x ∈ r.sent, x.leg.arriveAt = x.leg.txEnd + link.owltMs
  through : ∀ i, ∃ x ∈ r.sent, x.item = i ∧ x.leg = r.legs i ∧ x.lost = false
  nacked : ∀ k ∈ r.resends, Nacked link items r.sent k
  resent : ∀ x ∈ r.sent, x.round ≠ 0 → ∃ k ∈ r.resends, k.round = x.round ∧
    x.bundleId items ∈ k.bundleIds ∧ k.nackArriveAt ≤ x.leg.txStart

/-- What a link does, from what holds of its variables. -/
theorem runLink_sound {drawn : Nat} {r : LinkRun items.length}
    (h : runLink draws link items ready drawn = .ok r) :
    ∃ st : Turn items.length, st.Sound link items ready ∧ r.sent = st.sent ∧
      (∀ i, st.legs i = some (r.legs i)) ∧
      r.gaps = st.delayedBy.entries.map (fun e => gapOf link (link.windows.getD []) e.1 e.2) ∧
      Answers link items 0 ready (List.finRange items.length) r.sent r.resends := by
  unfold runLink at h
  obtain ⟨⟨st, resends⟩, hrounds, h⟩ := Outcome.bind_eq_ok.mp h
  obtain ⟨hsound, new, hsent, hanswers, -⟩ := rounds_sound (fun i => le_rfl) hrounds (sound_start drawn)
  dsimp only at h
  split at h
  · cases h
    refine ⟨st, hsound, rfl, fun i => ?_, rfl, ?_⟩
    · exact (Option.some_get _).symm
    · obtain rfl : st.sent = new := hsent
      exact hanswers
  · cases h

theorem runLink_made {drawn : Nat} {r : LinkRun items.length}
    (h : runLink draws link items ready drawn = .ok r) {x : Sent items.length} (hx : x ∈ r.sent) :
    x.Made link items ready := by
  obtain ⟨st, hsound, hsent, -⟩ := runLink_sound h
  exact hsound.made x (hsent ▸ hx)

/-- **Every link is on time.** -/
theorem runLink_onTime {drawn : Nat} {r : LinkRun items.length}
    (h : runLink draws link items ready drawn = .ok r) : OnTime link items ready r := by
  obtain ⟨st, hsound, hsent, hlegs, -, hanswers⟩ := runLink_sound h
  have hmade : ∀ x ∈ r.sent, x.Made link items ready := fun x hx => runLink_made h hx
  refine ⟨?_, ?_, ?_, hsent ▸ hsound.apart, ?_, ?_, hanswers.nacked, ?_⟩
  · exact fun x hx => ⟨(hmade x hx).ready, (hmade x hx).readyNow_le⟩
  · exact fun x hx => ⟨(hmade x hx).txEnd, (hmade x hx).start_le_end⟩
  · exact fun x hx => (hmade x hx).within
  · exact fun x hx => (hmade x hx).arriveAt
  · intro i
    rw [hsent]
    exact hsound.legs i _ (hlegs i)
  · intro x hx hround
    obtain ⟨k, hk, hsame, hid, hready⟩ := hanswers.later x hx hround
    exact ⟨k, hk, hsame, hid, hready ▸ (hmade x hx).readyNow_le⟩

/-- Every link of a path is on time: what came over one is ready for the next. -/
def AllOnTime (items : List Item) : List Link → (Fin items.length → ℚ) → List (LinkRun items.length) →
    Prop
  | [], _, rs => rs = []
  | link :: links, ready, rs => ∃ r rest, rs = r :: rest ∧ OnTime link items ready r ∧
      AllOnTime items links (fun i => (r.legs i).arriveAt) rest

theorem runLinks_onTime {links : List Link} : ∀ {ready : Fin items.length → ℚ} {drawn : Nat}
    {rs : List (LinkRun items.length)}, runLinks draws items links ready drawn = .ok rs →
      AllOnTime items links ready rs := by
  induction links with
  | nil =>
      intro ready drawn rs h
      cases h
      rfl
  | cons link links ih =>
      intro ready drawn rs h
      rw [runLinks] at h
      obtain ⟨r, hr, h⟩ := Outcome.bind_eq_ok.mp h
      obtain ⟨rest, hrest, h⟩ := Outcome.bind_eq_ok.mp h
      cases h
      exact ⟨r, rest, rfl, runLink_onTime hr, ih hrest⟩

/-! ## The legs of one bundle -/

/-- Legs one after the other, from a time on. -/
def InOrder (ready : ℚ) : List Leg → Prop
  | [] => True
  | leg :: legs => ready ≤ leg.txStart ∧ leg.txStart ≤ leg.arriveAt ∧ InOrder leg.arriveAt legs

theorem OnTime.leg {r : LinkRun items.length} (h : OnTime link items ready r) (i : Fin items.length) :
    ready i ≤ (r.legs i).txStart ∧ (r.legs i).txStart ≤ (r.legs i).arriveAt := by
  obtain ⟨x, hx, rfl, hleg, -⟩ := h.through i
  rw [← hleg, h.arrives x hx]
  have hready := h.ready x hx
  have hlasts := (h.lasts x hx).2
  have howlt := link.owlt_nonneg
  exact ⟨hready.1.trans hready.2, by linarith⟩

theorem AllOnTime.legs {links : List Link} (i : Fin items.length) : ∀ {ready : Fin items.length → ℚ}
    {rs : List (LinkRun items.length)}, AllOnTime items links ready rs →
      InOrder (ready i) (rs.map fun r => r.legs i) := by
  induction links with
  | nil =>
      rintro ready rs rfl
      trivial
  | cons link links ih =>
      rintro ready _ ⟨r, rest, rfl, hr, hrest⟩
      exact ⟨(hr.leg i).1, (hr.leg i).2, ih hrest⟩

/-! ## The receipts of one bundle -/

/-- The receipts as a verifier is given them. -/
def entries (recs : List Json) : List Path.Entry := recs.map fun r => ⟨r, .null, 0⟩

/-- A receipt for the bundle with these two times, by a key that signs. -/
structure Timed (H : Host) (id : JsString) (r : Json) (t : ℚ × ℚ) : Prop where
  signed : ∃ signer, Receipt.verifyRecord H (some r) = .ok (.ok signer)
  kind : r.get "kind" = some (.text "custody/1")
  bundleId : r.get "bundleId" = some (.str id)
  receivedAt : r.get "receivedAt" = some (.num (.fin t.1))
  forwardedAt : r.get "forwardedAt" = some (.num (.fin t.2))

/-- Times of hops: none is left before it is reached, and none reached before the one ahead is left. -/
def Rising (ready : ℚ) (times : List (ℚ × ℚ)) : Prop :=
  (∀ t ∈ times, ready ≤ t.1 ∧ t.1 ≤ t.2) ∧ times.Pairwise fun s t => s.2 ≤ t.1

variable {H : Host} {i : Input} {bundle : Bundle}

/-- The relays go by the names they are kept under, and their signatures verify. -/
def Signing (H : Host) (relays : JsString → Option Relay) : Prop :=
  ∀ eid relay, relays eid = some relay → relay.eid = eid ∧ Receipt.Signs H relay.kp

/-- **The receipts follow the legs.** -/
theorem stamps_follow (hrelays : Signing H i.relays) {hops : List JsString} :
    ∀ {prevHop : JsString} {legs : List Leg} {ready : ℚ} {recs : List Json},
      stamps H i bundle prevHop hops legs = .ok recs → InOrder ready legs →
        (∃ times, List.Forall₂ (Timed H bundle.bundleId) recs times ∧ Rising ready times) ∧
          Path.Linked (some (.str prevHop)) (entries recs) ∧
            Path.endOf (some (.str prevHop)) (entries recs) =
              (prevHop :: hops.dropLast).getLast?.map Json.str ∧
              recs.length = hops.length - 1 := by
  induction hops with
  | nil =>
      intro prevHop legs ready recs h _
      cases h
      exact ⟨⟨[], .nil, fun t ht => (List.not_mem_nil ht).elim, List.Pairwise.nil⟩, trivial, rfl, rfl⟩
  | cons thisHop hops ih =>
      intro prevHop legs ready recs h hlegs
      match hops, legs with
      | [], legs =>
          cases h
          refine ⟨⟨[], .nil, ?_, List.Pairwise.nil⟩, trivial, rfl, rfl⟩
          exact fun t ht => (List.not_mem_nil ht).elim
      | _ :: _, [] => cases h
      | _ :: _, [_] => cases h
      | next :: hops, came :: went :: legs =>
          rw [stamps] at h
          obtain ⟨r, hr, h⟩ := Outcome.bind_eq_ok.mp h
          obtain ⟨more, hmore, h⟩ := Outcome.bind_eq_ok.mp h
          cases h
          obtain ⟨hready, hcame, hwent, hlegs⟩ := hlegs
          obtain ⟨⟨times, htimes, hbounds, hrising⟩, hlinked, hends, hlen⟩ :=
            ih hmore (show InOrder went.txStart (went :: legs) from ⟨le_rfl, hlegs⟩)
          unfold stampAt at hr
          cases hrelay : i.relays thisHop with
          | none =>
              rw [hrelay] at hr
              cases hr
          | some relay =>
              rw [hrelay] at hr
              obtain ⟨rfl, hsigns⟩ := hrelays thisHop relay hrelay
              have hshows := Receipt.shows_custodyReceipt hr
              refine ⟨⟨(came.arriveAt, went.txStart) :: times, ?_, ?_, ?_⟩, ⟨?_, ?_⟩, ?_, ?_⟩
              · exact .cons ⟨⟨_, Receipt.verifyRecord_custodyReceipt hsigns hr⟩, hshows.kind,
                  hshows.bundleId, hshows.receivedAt, hshows.forwardedAt⟩ htimes
              · refine List.forall_mem_cons.mpr ⟨⟨hready.trans hcame, hwent⟩, fun t ht => ?_⟩
                exact ⟨(hready.trans (hcame.trans hwent)).trans (hbounds t ht).1, (hbounds t ht).2⟩
              · exact List.pairwise_cons.mpr ⟨fun t ht => (hbounds t ht).1, hrising⟩
              · show JsonVal.strictEq (r.get "prevHop") _ = true
                rw [hshows.prevHop]
                simp [JsonVal.strictEq]
              · show Path.Linked (r.get "thisHop") (entries more)
                rw [hshows.thisHop]
                exact hlinked
              · show Path.endOf (r.get "thisHop") (entries more) = _
                rw [hshows.thisHop, hends, List.dropLast_cons_cons, List.getLast?_cons_cons]
              · rw [List.length_cons, hlen, List.length_cons, List.length_cons]
                rfl

/-! ## Acceptance -/

open Path in
/-- The window of a receipt in time. -/
theorem Timed.window {id : JsString} {r : Json} {t : ℚ × ℚ} (h : Timed H id r t) :
    windowOf (Entry.link ⟨r, .null, 0⟩) = some (((t.1 : WithTop ℚ) : Time), ((t.2 : WithTop ℚ) : Time)) := by
  have hclaimed : claimedTimes r (some .null) = (r.get "receivedAt", r.get "forwardedAt") := by
    unfold claimedTimes
    rw [h.kind, if_neg (by decide)]
  unfold windowOf
  rw [Entry.readLink_link]
  dsimp only
  rw [hclaimed, h.receivedAt, h.forwardedAt]
  rfl

open Path in
theorem Timed.covers {id : JsString} {r : Json} {t : ℚ × ℚ} (h : Timed H id r t) :
    Covers H (some (.str id)) r (some .null) := by
  refine ⟨(r.get "receivedAt", r.get "forwardedAt"), ?_⟩
  unfold linkTimes
  rw [h.kind, if_neg (by decide), if_pos (by decide), h.bundleId, if_neg (by simp [JsonVal.strictEq])]
  rfl

open Path in
/-- Receipts whose times rise make a route that could have happened. -/
theorem couldHappen_entries {id : JsString} {recs : List Json} {times : List (ℚ × ℚ)} {ready : ℚ}
    (htimes : List.Forall₂ (Timed H id) recs times) (hrising : Rising ready times) :
    CouldHappen ((entries recs).map Entry.link) := by
  refine ⟨times.map fun t => ((t.1 : WithTop ℚ) : Time), ?_, ?_⟩
  · have hinside := hrising.1
    clear hrising
    induction htimes with
    | nil => exact .nil
    | cons h _ ih =>
        rw [List.forall_mem_cons] at hinside
        refine .cons ⟨_, h.window, le_rfl, ?_⟩ (ih hinside.2)
        exact WithBot.coe_le_coe.mpr (WithTop.coe_le_coe.mpr hinside.1.2)
  · rw [List.pairwise_map]
    refine hrising.2.imp_of_mem fun {s t} hs _ hst => ?_
    exact WithBot.coe_le_coe.mpr (WithTop.coe_le_coe.mpr ((hrising.1 s hs).2.trans hst))

/-- A verifier that asks for the bundle and for the ends of its path, and allows no skew. -/
structure Asks (H : Host) (o : Path.Options) (i : Input) (id : JsString) (recs : List Json) : Prop where
  bundleId : o.bundleId = some (.str id)
  source : o.source = i.hops.head?.map Json.str
  destination : o.destination = i.hops.dropLast.getLast?.map Json.str
  maxHops : recs.length ≤ o.maxHops
  skew : o.skewMs = 0
  keys : ∃ authorize, o.authorize = some authorize ∧
    ∀ e ∈ entries recs, Path.Authorized H authorize (entries recs) e

/-- **Receipts in order**: their times rise, and a path with relays is accepted. -/
structure Carried (H : Host) (i : Input) (id : JsString) (recs : List Json) : Prop where
  rising : ∃ times, List.Forall₂ (Timed H id) recs times ∧ (∀ t ∈ times, t.1 ≤ t.2) ∧
    times.Pairwise fun s t => s.2 ≤ t.1
  accepted : 2 < i.hops.length → ∀ o, Asks H o i id recs → ∃ n k,
    (Path.verifyPath H JsMap.empty (some (.arr ((entries recs).map Path.Entry.link))) o).1 =
      .ok (.ok n k)

open Path in
theorem carried_of_stamps (hrelays : Signing H i.relays) {first : JsString} {hops : List JsString}
    (hhops : i.hops = first :: hops) {legs : List Leg} {ready : ℚ} {recs : List Json}
    (h : stamps H i bundle first hops legs = .ok recs) (hlegs : InOrder ready legs) :
    Carried H i bundle.bundleId recs := by
  obtain ⟨⟨times, htimes, hrising⟩, hlinked, hends, hlen⟩ := stamps_follow hrelays h hlegs
  refine ⟨⟨times, htimes, fun t ht => (hrising.1 t ht).2, hrising.2⟩, fun hlong o hasks => ?_⟩
  rw [hhops, List.length_cons] at hlong
  have hsource : o.source = some (.str first) := by
    rw [hasks.source, hhops]
    rfl
  have htimed : ∀ r ∈ recs, ∃ t, Timed H bundle.bundleId r t := by
    clear h hlinked hends hlen hasks hrising
    induction htimes with
    | nil => exact fun r hr => (List.not_mem_nil hr).elim
    | cons h _ ih => exact List.forall_mem_cons.mpr ⟨⟨_, h⟩, ih⟩
  have hentry : ∀ e ∈ entries recs, ∃ r ∈ recs, e = ⟨r, .null, 0⟩ := by
    intro e he
    obtain ⟨r, hr, rfl⟩ := List.mem_map.mp he
    exact ⟨r, hr, rfl⟩
  refine @verifyPath_accepts H o (some (.str first)) _ ⟨?_, hlinked, ?_⟩
    ⟨hsource, ?_, ?_, ?_, ?_, ?_, hasks.keys⟩
  · intro hnil
    have hzero : recs.length = 0 := by
      rw [← List.length_map (f := fun r => (⟨r, .null, 0⟩ : Entry))]
      exact List.length_eq_zero_iff.mpr hnil
    omega
  · exact couldHappen_entries htimes hrising
  · have hdest : o.destination = (first :: hops.dropLast).getLast?.map Json.str := by
      rw [hasks.destination, hhops]
      cases hops with
      | nil => simp at hlong
      | cons next hops => rw [List.dropLast_cons_cons]
    rw [hends, hdest, List.getLast?_eq_getLast_of_ne_nil (List.cons_ne_nil _ _)]
    simp [JsonVal.strictEq]
  · rw [entries, List.length_map]
    exact hasks.maxHops
  · exact hasks.skew.ge
  · intro e he
    obtain ⟨r, hr, rfl⟩ := hentry e he
    obtain ⟨t, ht⟩ := htimed r hr
    rw [hasks.bundleId]
    exact ht.covers
  · intro e he
    obtain ⟨r, hr, rfl⟩ := hentry e he
    obtain ⟨t, ht⟩ := htimed r hr
    exact ht.signed

theorem carried_of_custodyOf (hrelays : Signing H i.relays) {legs : List Leg} {ready : ℚ}
    {recs : List Json} (h : custodyOf H i bundle legs = .ok recs) (hlegs : InOrder ready legs) :
    Carried H i bundle.bundleId recs := by
  unfold custodyOf at h
  split at h
  · next hhops =>
    cases h
    refine ⟨⟨[], .nil, fun t ht => (List.not_mem_nil ht).elim, List.Pairwise.nil⟩, fun hlong => ?_⟩
    rw [hhops] at hlong
    cases hlong
  · next first hops hhops => exact carried_of_stamps hrelays hhops h hlegs

/-- The receipts of each bundle, one after the other. -/
theorem custody_carried {n : Nat} {ks : List (Fin n)} {f : Fin n → JsString}
    {g : Fin n → Outcome (List Json)} (hg : ∀ k recs, g k = .ok recs → Carried H i (f k) recs) :
    ∀ {custody custody' : JsMap JsString (List Json)},
      (∀ id recs, custody.get? id = some recs → Carried H i id recs) →
        ks.foldlM (fun custody k => do return JsMap.set custody (f k) (← g k)) custody = .ok custody' →
          (∀ id recs, custody'.get? id = some recs → Carried H i id recs) ∧
            (∀ id, (custody.get? id).isSome = true → (custody'.get? id).isSome = true) ∧
              ∀ k ∈ ks, (custody'.get? (f k)).isSome = true := by
  induction ks with
  | nil =>
      intro custody custody' hall h
      cases h
      exact ⟨hall, fun id h => h, fun k hk => (List.not_mem_nil hk).elim⟩
  | cons k ks ih =>
      intro custody custody' hall h
      rw [List.foldlM_cons] at h
      obtain ⟨custody₁, hk, h⟩ := Outcome.bind_eq_ok.mp h
      obtain ⟨recs, hrecs, hk⟩ := Outcome.bind_eq_ok.mp hk
      cases hk
      have hall' : ∀ id recs', (custody.set (f k) recs).get? id = some recs' → Carried H i id recs' := by
        intro id recs' hget
        by_cases hid : id = f k
        · rw [hid, JsMap.get?_set_self] at hget
          cases hget
          exact hid ▸ hg k recs hrecs
        · rw [JsMap.get?_set_ne _ hid] at hget
          exact hall id recs' hget
      obtain ⟨hcarried, hkept, hks⟩ := ih hall' h
      have hself : (custody'.get? (f k)).isSome = true := hkept _ (by rw [JsMap.get?_set_self]; rfl)
      refine ⟨hcarried, fun id hid => ?_, List.forall_mem_cons.mpr ⟨hself, hks⟩⟩
      by_cases hsame : id = f k
      · rw [hsame]
        exact hself
      · exact hkept id (by rwa [JsMap.get?_set_ne _ hsame])

/-- **A run over links keeps to its windows and its times**, whatever is lost, and the receipts of its
relays are accepted. -/
theorem path_on_time (H : Host) (draws : Nat → ℚ) (i : Input) (hrelays : Signing H i.relays)
    (run : Run i.items.length) (hrun : runPath draws H i = .ok run) :
    AllOnTime i.items i.links (fun k => (i.items.get k).readyAt) run.links ∧
      (∀ a ∈ run.arrivals, ∃ k leg, (run.legs k).getLast? = some leg ∧ a.at_ = leg.arriveAt ∧
        a.bundle = (i.items.get k).bundle) ∧
      ∀ k : Fin i.items.length, ∃ recs,
        run.custodyByBundle.get? (i.items.get k).bundle.bundleId = some recs ∧
          Carried H i (i.items.get k).bundle.bundleId recs := by
  unfold runPath at hrun
  obtain ⟨runs, hruns, hrun⟩ := Outcome.bind_eq_ok.mp hrun
  obtain ⟨custody, hcustody, hrun⟩ := Outcome.bind_eq_ok.mp hrun
  obtain ⟨arrivals, harrivals, hrun⟩ := Outcome.bind_eq_ok.mp hrun
  cases hrun
  have honTime := runLinks_onTime hruns
  refine ⟨honTime, fun a ha => ?_, fun k => ?_⟩
  · rw [List.mem_insertionSort] at ha
    obtain ⟨k, -, hk⟩ := Outcome.mem_of_mapM harrivals ha
    split at hk
    · cases hk
    · next leg hleg =>
      cases hk
      exact ⟨k, leg, hleg, rfl, rfl⟩
  · have hgood : ∀ (k : Fin i.items.length) recs, custodyOf H i (i.items.get k).bundle
        (runs.map fun (l : LinkRun i.items.length) => l.legs k) = .ok recs →
          Carried H i (i.items.get k).bundle.bundleId recs := fun k recs hrecs =>
      carried_of_custodyOf hrelays hrecs (honTime.legs k)
    obtain ⟨hcarried, -, hall⟩ := custody_carried hgood
      (fun id recs hget => by rw [JsMap.get?_empty] at hget; cases hget) hcustody
    obtain ⟨recs, hrecs⟩ := Option.isSome_iff_exists.mp (hall k (List.mem_finRange k))
    exact ⟨recs, hrecs, hcarried _ _ hrecs⟩

/-! ## A path with a loss and an outage -/

def sampleRelays (eid : JsString) : Option Relay :=
  if eid = js "dtn://dsn/" ∨ eid = js "dtn://jpl/" then some ⟨Path.sampleKey, eid⟩ else none

theorem sampleRelays_signing : Signing Path.sampleHost sampleRelays := by
  intro eid relay h
  unfold sampleRelays at h
  split at h
  · cases h
    exact ⟨rfl, Path.sampleKey_signs rfl rfl⟩
  · cases h

/-- A link of one byte a millisecond in three windows. -/
def spaceLink : Link where
  id := "VGR1-DSN"
  owltMs := 5
  bps := 8000
  windows := some [(0, 3), (90, 120), (300, 400)]
  ber := 1 / 2
  reverse := some
    { owltMs := 5, bps := 8000, windows := some [(10, 200)], owlt_nonneg := by decide, bps_pos := by decide }
  owlt_nonneg := by decide
  bps_pos := by decide

def groundLink (id : String) : Link where
  id := id
  owltMs := 1
  bps := 8000
  windows := none
  owlt_nonneg := by decide
  bps_pos := by decide

def sampleItem (id : String) (index : Nat) : Item where
  bundle := { payloadId := js "p", bundleId := js id, index }
  bytes := 2
  readyAt := 0

def sampleInput : Input where
  hops := [js "dtn://vgr1/", js "dtn://dsn/", js "dtn://jpl/", js "dtn://science/"]
  links := [spaceLink, groundLink "DSN-JPL", groundLink "JPL-SCI"]
  items := [sampleItem "b0" 0, sampleItem "b1" 1]
  relays := sampleRelays

/-- The first transmission is lost, and no other. -/
def lostFirst (n : Nat) : ℚ := if n = 0 then 0 else 1

/-- The first bundle is lost and sent again in the third window, and the second waits for the second. -/
theorem path_on_time_sample : ∃ run, runPath lostFirst Path.sampleHost sampleInput = .ok run ∧
    AllOnTime sampleInput.items sampleInput.links (fun k => (sampleInput.items.get k).readyAt) run.links ∧
      (∀ a ∈ run.arrivals, ∃ k leg, (run.legs k).getLast? = some leg ∧ a.at_ = leg.arriveAt ∧
        a.bundle = (sampleInput.items.get k).bundle) ∧
      ∀ k : Fin sampleInput.items.length, ∃ recs,
        run.custodyByBundle.get? (sampleInput.items.get k).bundle.bundleId = some recs ∧
          Carried Path.sampleHost sampleInput (sampleInput.items.get k).bundle.bundleId recs := by
  obtain ⟨run, hrun⟩ := Outcome.exists_ok (x := runPath lostFirst Path.sampleHost sampleInput)
    (by decide +kernel)
  exact ⟨run, hrun, path_on_time Path.sampleHost lostFirst sampleInput sampleRelays_signing run hrun⟩

end DtnCustody.Voyager
