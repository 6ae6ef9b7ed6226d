/-
# DtnCustody.Agent.Acceptance — what `verifyPath` asks of a route, and which routes `assemblePath` finds for it.

A route is accepted by a verifier that asks for its bundle, its ends and its keys (`Fitting`),
allows as many hops, and starts with an empty cache. The cache answers for a record with the verdict
on another that has the same `claimId`; so a node's keys are those of all such records.

`Assembles` is the purpose of `assemblePath`: when its entries can be ordered into a route from the
source and the budget lasts, such an ordering comes back, and a verifier with the right destination,
bundle and keys accepts it. It holds where every entry is read right (`assembles_of_readRight`).
Which entries are read right depends on their kind: a batch with times always is, one without as
long as the proof carries no `t`, and a receipt as long as neither `t`, `from` nor `to` is there.
-/
import DtnCustody.Agent.Assembled

namespace DtnCustody

open Base Js

namespace Path

variable (H : Host)

/-- The authorizer takes the signer of every record with the `claimId` of this one for the hop. -/
def Authorized (authorize : Json → JsonVal → JsonVal → Outcome Authorization) (ps : List Entry)
    (e : Entry) : Prop :=
  ∀ e' ∈ ps, (some e'.receipt = some e.receipt ∨
      ∃ k, cacheKey (some e'.receipt) = some k ∧ cacheKey (some e.receipt) = some k) →
    ∀ signer, Receipt.verifyRecord H (some e'.receipt) = .ok (.ok signer) →
      authorize signer e.thisHop (claimedTimes e.receipt (some e.proof)).1 = .ok .ok

/-- **The right destination, bundle and keys** for the entries, which lead from the source to it. -/
structure Fitting (o : Options) (source : JsonVal) (ps : List Entry) : Prop where
  starts : o.source = source
  ends : JsonVal.strictEq (endOf source ps) o.destination = true
  maxHops : ps.length ≤ o.maxHops
  skew : 0 ≤ o.skewMs
  covers : ∀ e ∈ ps, Covers H o.bundleId e.receipt (some e.proof)
  signed : ∀ e ∈ ps, ∃ signer, Receipt.verifyRecord H (some e.receipt) = .ok (.ok signer)
  keys : ∃ authorize, o.authorize = some authorize ∧ ∀ e ∈ ps, Authorized H authorize ps e

variable {H} {o : Options} {source : JsonVal}

/-- It does not matter in which order the entries are listed. -/
theorem Fitting.perm {ps qs : List Entry} (h : Fitting H o source ps) (hperm : ps.Perm qs)
    (hp : Linked source ps) (hq : Linked source qs) : Fitting H o source qs := by
  obtain ⟨authorize, hauthorize, hkeys⟩ := h.keys
  refine ⟨h.starts, ?_, hperm.length_eq ▸ h.maxHops, h.skew, ?_, ?_, authorize, hauthorize, ?_⟩
  · rw [← hp.endOf_eq hq hperm]
    exact h.ends
  · exact fun e he => h.covers e (hperm.mem_iff.mpr he)
  · exact fun e he => h.signed e (hperm.mem_iff.mpr he)
  · exact fun e he e' he' => hkeys e (hperm.mem_iff.mpr he) e' (hperm.mem_iff.mpr he')

/-! ## Times that do not regress -/

theorem num_of_timeOf {v : JsonVal} {a : Time} (h : timeOf v = some a) :
    ∃ x, v = some (.num x) := by
  unfold timeOf at h
  split at h
  · exact ⟨_, rfl⟩
  · exact ⟨_, rfl⟩
  · exact ⟨_, rfl⟩
  · cases h

/-- A skew that is not negative makes no time earlier. -/
theorem le_add_skew {y : JsNum} {b : Time} (hb : timeOf (some (.num y)) = some b) {skew : Int}
    (hskew : 0 ≤ skew) :
    ∃ b', timeOf (some (.num (y.add (.fin (skew : ℚ))))) = some b' ∧ b ≤ b' := by
  cases y with
  | nan => cases hb
  | inf m => exact ⟨b, hb, le_rfl⟩
  | fin q =>
      cases hb
      refine ⟨_, rfl, WithBot.coe_le_coe.mpr (WithTop.coe_le_coe.mpr ?_)⟩
      have hcast : (0 : ℚ) ≤ (skew : ℚ) := Int.cast_nonneg hskew
      exact le_add_of_nonneg_right hcast

theorem not_regresses {t1 t0 : JsonVal} {a b : Time} (ha : timeOf t0 = some a)
    (hb : timeOf t1 = some b) (hab : a ≤ b) {skew : Int} (hskew : 0 ≤ skew) :
    regresses H skew t1 t0 = .ok false := by
  obtain ⟨x, rfl⟩ := num_of_timeOf ha
  obtain ⟨y, rfl⟩ := num_of_timeOf hb
  have heq : regresses H skew (some (.num y)) (some (.num x)) =
      .ok (((y.add (.fin (skew : ℚ))).lt x).getD false) := rfl
  obtain ⟨b', hb', hle⟩ := le_add_skew hb hskew
  rw [heq, lt_of_times hb' ha, Option.getD_some, decide_eq_false (not_lt.mpr (hab.trans hle))]

/-! ## The walk -/

/-- The node that the next record has to come from. -/
def PathState.node (st : PathState) (o : Options) : JsonVal :=
  match st.prev with
  | none => o.source
  | some p => p.1

theorem claimed_of_windowOf {e : Entry} {w : Time × Time} (h : windowOf e.link = some w) :
    timeOf (claimedTimes e.receipt (some e.proof)).1 = some w.1 ∧
      timeOf (claimedTimes e.receipt (some e.proof)).2 = some w.2 := by
  unfold windowOf at h
  rw [e.readLink_link] at h
  obtain ⟨a, ha, h⟩ := Option.bind_eq_some_iff.mp h
  obtain ⟨b, hb, h⟩ := Option.bind_eq_some_iff.mp h
  cases h
  exact ⟨ha, hb⟩

/-- A link that is joined to what went before, and whose window meets it, lets the walk go on. -/
theorem judgeLink_accepts {authorize : Json → JsonVal → JsonVal → Outcome Authorization}
    {st : PathState} {e : Entry} {signer : Json} {w : Time × Time}
    (hcovers : Covers H o.bundleId e.receipt (some e.proof))
    (hauthorize : authorize signer e.thisHop (claimedTimes e.receipt (some e.proof)).1 = .ok .ok)
    (hlink : JsonVal.strictEq e.prevHop (st.node o) = true) (hskew : 0 ≤ o.skewMs)
    (hw : windowOf e.link = some w)
    (hmeets : ∀ node t0, st.prev = some (node, t0) → ∃ a, timeOf t0 = some a ∧ a ≤ w.2) :
    ∃ st', judgeLink H o authorize st (some e.receipt) (some e.proof) (.ok signer) =
        .ok (.next st') ∧
      st'.prev = some (e.thisHop, (claimedTimes e.receipt (some e.proof)).1) := by
  obtain ⟨⟨t0, t1⟩, htimes⟩ := hcovers
  have hclaimed := linkTimes_eq H htimes
  have htimes' : linkTimes H o e.receipt (some e.proof) = .ok (.inr (t0, t1)) := htimes
  rw [← hclaimed] at hauthorize ⊢
  have hclose : timeOf t1 = some w.2 := by
    have h := (claimed_of_windowOf hw).2
    rwa [← hclaimed] at h
  unfold judgeLink
  dsimp only
  rw [htimes', Outcome.ok_bind]
  dsimp only
  rw [show e.receipt.get "thisHop" = e.thisHop from rfl, hauthorize, Outcome.ok_bind]
  dsimp only
  unfold linkOn
  unfold PathState.node at hlink
  have hprevHop : e.receipt.get "prevHop" = e.prevHop := rfl
  cases hprev : st.prev with
  | none =>
      rw [hprev] at hlink
      dsimp only at hlink ⊢
      rw [hprevHop, hlink]
      exact ⟨_, rfl, rfl⟩
  | some before =>
      obtain ⟨node, t⟩ := before
      rw [hprev] at hlink
      dsimp only at hlink ⊢
      obtain ⟨a, ha, hle⟩ := hmeets node t hprev
      rw [hprevHop, hlink, if_neg (by decide), not_regresses ha hclose hle hskew]
      exact ⟨_, rfl, rfl⟩

/-- The records of a list of entries. -/
def receipts (es : List Entry) : Set JsonVal := { r | ∃ e ∈ es, r = some e.receipt }

/-- **The walk over a route** of which the windows meet. -/
theorem walk_accepts {authorize : Json → JsonVal → JsonVal → Outcome Authorization}
    {all : List Entry} (hskew : 0 ≤ o.skewMs)
    (hcovers : ∀ e ∈ all, Covers H o.bundleId e.receipt (some e.proof))
    (hsigned : ∀ e ∈ all, ∃ signer, Receipt.verifyRecord H (some e.receipt) = .ok (.ok signer))
    (hkeys : ∀ e ∈ all, Authorized H authorize all e) {ps : List Entry} :
    ∀ {i : Nat} {st : PathState} {cache : Cache}, Faithful H (receipts all) cache →
      (∀ e ∈ ps, e ∈ all) → Linked (st.node o) ps →
      JsonVal.strictEq (endOf (st.node o) ps) o.destination = true →
      (∀ e ∈ ps, ∃ w, windowOf e.link = some w) →
      (ps.map fun e => windowD e.link).Pairwise (fun v w => v.1 ≤ w.2) →
      (∀ node t0, st.prev = some (node, t0) →
        ∃ a, timeOf t0 = some a ∧ ∀ e ∈ ps, a ≤ (windowD e.link).2) →
      (ps = [] → st.prev.isSome = true) →
      ∃ n k, (walk H o authorize i st cache (ps.map Entry.link)).1 = .ok (.ok n k) := by
  induction ps with
  | nil =>
      intro i st cache _ _ _ hdestination _ _ _ hsome
      obtain ⟨⟨node, t⟩, hprev⟩ := Option.isSome_iff_exists.mp (hsome rfl)
      refine ⟨i, st.revisits, ?_⟩
      rw [endOf, PathState.node, hprev] at hdestination
      rw [List.map_nil, walk, arrive, hprev]
      dsimp only at hdestination ⊢
      rw [hdestination]
      rfl
  | cons e ps ih =>
      intro i st cache hfaithful hsub hlinked hdestination hwindows hpair hmeets _
      rw [List.forall_mem_cons] at hsub hwindows
      rw [List.map_cons, List.pairwise_cons, List.forall_mem_map] at hpair
      obtain ⟨w, hw⟩ := hwindows.1
      obtain ⟨signer, hsigner⟩ := hsigned e hsub.1
      obtain ⟨b, ⟨e', he', rfl⟩, v, hv, hsame, hanswer, hfaithful'⟩ :=
        Memo.answer_of_key hfaithful (a := some e.receipt) ⟨e, hsub.1, rfl⟩ hsigner
      obtain ⟨signer', hsigner'⟩ := hsigned e' he'
      obtain rfl : v = .ok signer' := by
        rw [hsigner'] at hv
        cases hv
        rfl
      obtain ⟨st', hjudge, hst'⟩ := @judgeLink_accepts H o authorize st e signer' w
        (hcovers e hsub.1) (hkeys e hsub.1 e' he' hsame signer' hsigner') hlinked.1 hskew hw
        (fun node t0 hprev => by
          obtain ⟨a, ha, hall⟩ := hmeets node t0 hprev
          have hle := hall e List.mem_cons_self
          rw [windowOf_eq hw] at hle
          exact ⟨a, ha, hle⟩)
      have hnode : st'.node o = e.thisHop := by
        rw [PathState.node, hst']
      rw [List.map_cons, walk, e.readLink_link]
      dsimp only
      rw [show (consult H cache (some e.receipt)).1 = .ok (.ok signer') from hanswer]
      dsimp only
      rw [hjudge]
      refine ih hfaithful' hsub.2 ?_ ?_ hwindows.2 hpair.2 ?_ ?_
      · rw [hnode]
        exact hlinked.2
      · rw [hnode]
        exact hdestination
      · intro node t0 hprev
        rw [hst'] at hprev
        cases hprev
        refine ⟨w.1, (claimed_of_windowOf hw).1, fun e'' he'' => ?_⟩
        have hle := hpair.1 e'' he''
        rwa [windowOf_eq hw] at hle
      · rw [hst']
        exact fun _ => rfl

/-- **A route is accepted** by a verifier with the right destination, bundle and keys. -/
theorem verifyPath_accepts {ps : List Entry} (hroute : IsRoute source ps)
    (hfit : Fitting H o source ps) :
    ∃ n k, (verifyPath H JsMap.empty (some (.arr (ps.map Entry.link))) o).1 = .ok (.ok n k) := by
  obtain ⟨authorize, hauthorize, hkeys⟩ := hfit.keys
  obtain ⟨hall, ts, hts⟩ := couldHappen_iff.mp hroute.times
  rw [List.forall_mem_map] at hall
  have hpair := hts.pairwise
  rw [List.map_map] at hpair
  unfold verifyPath
  dsimp only
  rw [if_neg (by simpa using hroute.nonempty), List.length_map,
    if_neg (Nat.not_lt.mpr hfit.maxHops), hauthorize]
  refine walk_accepts hfit.skew hfit.covers hfit.signed hkeys (Memo.faithful_empty _ _ _)
    (fun e he => he) ?_ ?_ hall hpair (fun node t0 hprev => by cases hprev) ?_
  · rw [PathState.node, hfit.starts]
    exact hroute.linked
  · rw [PathState.node, hfit.starts]
    exact hfit.ends
  · exact fun hnil => absurd hnil hroute.nonempty

end Path

end DtnCustody

namespace DtnCustody

open Base Js

namespace Path

/-! ## Routes that are found -/

variable (H : Host)

/-- **The purpose of `assemblePath`.** -/
def Assembles (entries : List Entry) (source : JsonVal) : Prop :=
  ∀ ps, ps.Perm entries → IsRoute source ps → BudgetLasts H entries source →
    ∃ r, assemblePath H entries source = .ok r ∧ r.Perm entries ∧ IsRoute source r ∧
      ∀ o, Fitting H o source ps →
        ∃ n k, (verifyPath H JsMap.empty (some (.arr (r.map Entry.link))) o).1 = .ok (.ok n k)

variable {H}

/-- A route is an ordering that can be passed in the windows that the records claim. -/
theorem isRoute_iff {source : JsonVal} {ps : List Entry} :
    IsRoute source ps ↔ ps ≠ [] ∧ (∀ e ∈ ps, ∃ w, windowOf e.link = some w) ∧
      Passable (fun e => windowD e.link) source ⊥ ps := by
  have htimes : CouldHappen (ps.map Entry.link) ↔ (∀ e ∈ ps, ∃ w, windowOf e.link = some w) ∧
      (Windows.passes ⊥ (ps.map fun e => windowD e.link)).isSome = true := by
    rw [couldHappen_iff, List.forall_mem_map, List.map_map, Windows.exists_route_iff,
      Windows.passes_bot_iff]
    rfl
  constructor
  · rintro ⟨hne, hlinked, hcould⟩
    obtain ⟨hall, hpasses⟩ := htimes.mp hcould
    exact ⟨hne, hall, hlinked, hpasses⟩
  · rintro ⟨hne, hall, hlinked, hpasses⟩
    exact ⟨hne, hlinked, htimes.mpr ⟨hall, hpasses⟩⟩

/-- A record with a window is not `null`. -/
theorem not_null_of_windowOf {e : Entry} {w : Time × Time} (h : windowOf e.link = some w) :
    e.receipt.isNull = false := by
  have hopens := (claimed_of_windowOf h).1
  cases hr : e.receipt with
  | null =>
      rw [hr] at hopens
      cases hopens
  | _ => rfl

/-- **Where every entry is read right, `assemblePath` serves its purpose.** -/
theorem assembles_of_readRight {entries : List Entry} {source : JsonVal}
    (hdistinct : Distinct entries) (h : ∀ e ∈ entries, ReadRight H e) :
    Assembles H entries source := by
  intro ps hperm hroute hbudget
  have hreads : ∀ e ∈ entries, Reads H e (windowD e.link) := by
    intro e he
    obtain ⟨w, hw, hread⟩ := h e he
    rwa [windowOf_eq hw]
  have hself : ∀ e ∈ entries, JsonVal.strictEq e.prevHop e.prevHop = true :=
    fun e he => hroute.linked.prevHop_self e (hperm.mem_iff.mpr he)
  have hnull : ∀ e ∈ entries, e.receipt.isNull = false := by
    intro e he
    obtain ⟨w, hw, _⟩ := h e he
    exact not_null_of_windowOf hw
  obtain ⟨⟨r, left⟩, hassemble⟩ := @assemble_returns H entries _ source hreads hself hnull
  obtain ⟨hne, hall, hpass⟩ := isRoute_iff.mp hroute
  rcases assemble_orders hreads hself hdistinct hassemble (hbudget _ hassemble) with
    ⟨hr, hpasses⟩ | hnone
  · have hnonempty : r ≠ [] := by
      rintro rfl
      exact hne (hperm.trans hr.symm).eq_nil
    have hrwindows : ∀ e ∈ r, ∃ w, windowOf e.link = some w :=
      fun e he => hall e (hperm.mem_iff.mpr (hr.mem_iff.mp he))
    have hrroute : IsRoute source r := isRoute_iff.mpr ⟨hnonempty, hrwindows, hpasses⟩
    refine ⟨r, ?_, hr, hrroute, fun o hfit => ?_⟩
    · rw [assemblePath, hassemble]
      rfl
    · exact verifyPath_accepts hrroute
        (hfit.perm (hperm.trans hr.symm) hroute.linked hrroute.linked)
  · exact absurd ⟨hperm, hpass⟩ (hnone ps)

/-! ## Which entries are read right -/

theorem toNumber_of_time {N : Node} {v : JsonVal} {a : Time} (h : timeOf v = some a) :
    ∃ x, JsonVal.toNumber N v = .ok x ∧ timeOf (some (.num x)) = some a ∧ closing x = a := by
  obtain ⟨x, rfl⟩ := num_of_timeOf h
  exact ⟨x, rfl, h, by rw [closing, h, Option.getD_some]⟩

/-- The two times that are read are the two that are claimed. -/
theorem readRight_of_eq {e : Entry} {w : Time × Time} (hw : windowOf e.link = some w)
    (h : (e.start, e.stop) = claimedTimes e.receipt (some e.proof)) : ReadRight H e := by
  obtain ⟨hopens, hcloses⟩ := claimed_of_windowOf hw
  rw [← h] at hopens hcloses
  obtain ⟨x, hx, hxtime, _⟩ := toNumber_of_time (N := H.toNode) hopens
  obtain ⟨y, hy, _, hyclosing⟩ := toNumber_of_time (N := H.toNode) hcloses
  exact ⟨w, hw, x, y, hx, hy, hxtime, hyclosing⟩

theorem orElse_of_time {v w : JsonVal} {a : Time} (h : timeOf v = some a) :
    JsonVal.orElse v w = v := by
  obtain ⟨x, rfl⟩ := num_of_timeOf h
  rfl

theorem orElse_of_absent {v w : JsonVal} (h : v = none ∨ v = some .null) :
    JsonVal.orElse v w = w := by
  rcases h with rfl | rfl <;> rfl

/-- The times of a batch with times are read right. -/
theorem readRight_of_leafTimes {e : Entry} {w : Time × Time} (hw : windowOf e.link = some w)
    (hkind : JsonVal.isText (e.receipt.get "kind") Batch.kind = true)
    (htimes : JsonVal.truthy (e.receipt.get "leafTimes") = true) : ReadRight H e := by
  have hclaimed : claimedTimes e.receipt (some e.proof) =
      (JsonVal.get? (some e.proof) "t", JsonVal.get? (some e.proof) "t") := by
    rw [claimedTimes, if_pos hkind, if_pos htimes]
  have ht := (claimed_of_windowOf hw).1
  rw [hclaimed] at ht
  refine readRight_of_eq hw ?_
  rw [hclaimed, Entry.start, Entry.stop]
  simp only [orElse_of_time ht]

/-- So are those of a batch without, unless its proof carries a time all the same. -/
theorem readRight_of_batch {e : Entry} {w : Time × Time} (hw : windowOf e.link = some w)
    (hkind : JsonVal.isText (e.receipt.get "kind") Batch.kind = true)
    (htimes : JsonVal.truthy (e.receipt.get "leafTimes") = false)
    (ht : JsonVal.get? (some e.proof) "t" = none ∨ JsonVal.get? (some e.proof) "t" = some .null) :
    ReadRight H e := by
  have hclaimed : claimedTimes e.receipt (some e.proof) =
      (e.receipt.get "from", e.receipt.get "to") := by
    rw [claimedTimes, if_pos hkind, if_neg (by rw [htimes]; decide)]
  obtain ⟨hfrom, hto⟩ := claimed_of_windowOf hw
  rw [hclaimed] at hfrom hto
  refine readRight_of_eq hw ?_
  rw [hclaimed, Entry.start, Entry.stop]
  simp only [orElse_of_absent ht, orElse_of_time hfrom, orElse_of_time hto]

/-- So are those of a receipt, unless it carries the times of a batch or its proof a time. -/
theorem readRight_of_receipt {e : Entry} {w : Time × Time} (hw : windowOf e.link = some w)
    (hkind : JsonVal.isText (e.receipt.get "kind") Batch.kind = false)
    (ht : JsonVal.get? (some e.proof) "t" = none ∨ JsonVal.get? (some e.proof) "t" = some .null)
    (hfrom : e.receipt.get "from" = none ∨ e.receipt.get "from" = some .null)
    (hto : e.receipt.get "to" = none ∨ e.receipt.get "to" = some .null) : ReadRight H e := by
  have hclaimed : claimedTimes e.receipt (some e.proof) =
      (e.receipt.get "receivedAt", e.receipt.get "forwardedAt") := by
    rw [claimedTimes, if_neg (by rw [hkind]; decide)]
  obtain ⟨hreceived, hforwarded⟩ := claimed_of_windowOf hw
  rw [hclaimed] at hreceived hforwarded
  refine readRight_of_eq hw ?_
  rw [hclaimed, Entry.start, Entry.stop]
  simp only [orElse_of_absent ht, orElse_of_absent hfrom, orElse_of_absent hto,
    orElse_of_time hforwarded]

end Path

end DtnCustody
