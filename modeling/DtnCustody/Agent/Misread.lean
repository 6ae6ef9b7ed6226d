/-
# DtnCustody.Agent.Misread — the entries with which `assemblePath` serves its purpose.

`assemblePath` takes `proof.t`, `from` and `to` wherever it finds them, and `verifyPath` takes them
only for the kind of record that commits to them. An entry that is read as closing early or opening
late, or that cannot be read, is refused where it fits, and no ordering is found at all
(`spoils_stuck`). So the entries that spoil no set are those that are read right (`assembles_iff`).
-/
import DtnCustody.Agent.Batch
import DtnCustody.Agent.Detours

namespace DtnCustody

open Base Js

namespace Path

variable {H : Host} {e : Entry}

/-! ## Closing early, opening late, or no window at all -/

/-- The way to the entry from a node of its own, open at one time. -/
abbrev gate (e : Entry) (x : JsNum) : Entry := hop (elsewhere e 0) e.prevHop x x (e.ref + 1)

/-- A loop at that node, which the walk has to go round first. -/
abbrev wait (e : Entry) (x : JsNum) : Entry :=
  hop (elsewhere e 0) (elsewhere e 0) x x (e.ref + 2)

/-- The way on from the entry. -/
abbrev onward (e : Entry) (x : JsNum) : Entry := hop e.thisHop (elsewhere e 1) x x (e.ref + 3)

def stuckSet (e : Entry) (x : JsNum) : List Entry := [gate e x, wait e x, e, onward e x]

theorem mem_stuckSet {x : JsNum} {y : Entry} (h : y ∈ stuckSet e x) :
    y = gate e x ∨ y = wait e x ∨ y = e ∨ y = onward e x := by
  simpa [stuckSet] using h

theorem stuckSet_self (he : Linkable e) {x : JsNum} :
    ∀ y ∈ stuckSet e x, JsonVal.strictEq y.prevHop y.prevHop = true := by
  intro y hy
  rcases mem_stuckSet hy with rfl | rfl | rfl | rfl
  · rw [hop_prevHop]
    exact elsewhere_self e 0
  · rw [hop_prevHop]
    exact elsewhere_self e 0
  · exact he.1
  · rw [hop_prevHop]
    exact he.2

/-- The first walk leaves the loop out, and nothing leads back to it. -/
theorem firstWalk_stuckSet (he : Linkable e) {x : JsNum} {byStart : ByPrev}
    (h : ByStart H (stuckSet e x) byStart) :
    wait e x ∉ firstWalk byStart (stuckSet e x) (elsewhere e 0) := by
  have hP := elsewhere_ne_prevHop e 0
  have hQ := elsewhere_ne_thisHop e 0
  have hsource : leaving byStart (elsewhere e 0) = [gate e x, wait e x] := by
    refine h.leaving_eq ?_ (@sortByStart_of_pairwise H (fun _ => x) _ ?_ ?_)
    · simp [stuckSet, comesFrom_of_eq (elsewhere_self e 0), comesFrom_of_ne, Ne.symm hP, Ne.symm hQ]
    · simp
      rfl
    · simp [inOrder_self]
  have hfirst : [gate e x, wait e x].find? (fun y => !y.isIn []) = some (gate e x) := by
    simp [Entry.isIn]
  have hgate : Distinct ([] ++ [gate e x]) := List.nodup_singleton _
  obtain ⟨ps, heq, hdistinct, hsub, hlinked⟩ := @greedy_walk (stuckSet e x) byStart h.1
    (stuckSet_self he) 4 _ (gate e x).thisHop hgate
  have hlength : (stuckSet e x).length + 1 = 4 + 1 := rfl
  unfold firstWalk
  rw [hlength, greedy_next hsource hfirst, heq, List.nil_append, List.singleton_append,
    List.mem_cons, not_or]
  have hnodup : ps.Nodup := (List.Nodup.of_map _ hdistinct).of_append_right
  have href : wait e x ≠ gate e x := by
    intro hsame
    have := congrArg Entry.ref hsame
    simp at this
  refine ⟨href, fun hmem => ?_⟩
  rw [hop_thisHop] at hlinked
  rcases hlinked.arrives hnodup _ hmem with hnode | ⟨v, hv, hne, hnode⟩
  · rw [hop_prevHop] at hnode
    exact hP hnode
  · rw [hop_prevHop] at hnode
    rcases mem_stuckSet (hsub v hv) with rfl | rfl | rfl | rfl
    · rw [hop_thisHop] at hnode
      exact hP hnode.symm
    · exact hne rfl
    · exact hQ hnode.symm
    · rw [hop_thisHop] at hnode
      exact elsewhere_ne e hnode.symm

/-- The entry at which a walk over the set begins opens at the time, and the one behind which
nothing is left closes at it. -/
theorem passable_stuckSet {x : JsNum} {b : Time} (hx : timeOf (some (.num x)) = some b)
    {w' : Time × Time} {ps : List Entry} (hperm : ps.Perm (stuckSet e x))
    (hdistinct : Distinct ps) (hpass : Passable (readingOf e w') (elsewhere e 0) ⊥ ps) :
    b ≤ w'.2 ∧ w'.1 ≤ b := by
  have hP := elsewhere_ne_prevHop e 0
  have hQ := elsewhere_ne_thisHop e 0
  obtain ⟨hlinked, hpasses⟩ := hpass
  obtain ⟨_, hpair⟩ := passes_iff_meet.mp hpasses
  have hmem : ∀ y, y ∈ ps ↔ y ∈ stuckSet e x := fun y => hperm.mem_iff
  have hone : e.ref + 1 ≠ e.ref := by omega
  have htwo : e.ref + 2 ≠ e.ref := by omega
  have hthree : e.ref + 3 ≠ e.ref := by omega
  constructor
  · cases ps with
    | nil => exact absurd hperm.length_eq (Nat.zero_ne_add_one 3)
    | cons first rest =>
        have hfirst : first.prevHop = elsewhere e 0 := JsonVal.eq_of_strictEq hlinked.1
        have he : e ∈ rest := by
          rcases List.mem_cons.mp ((hmem e).mpr (by simp [stuckSet])) with rfl | he
          · exact absurd hfirst.symm hP
          · exact he
        have hle := (List.pairwise_cons.mp hpair).1 e he
        rw [readingOf_self] at hle
        rcases mem_stuckSet ((hmem first).mp List.mem_cons_self) with rfl | rfl | rfl | rfl
        · rwa [readingOf_hop hone hx hx] at hle
        · rwa [readingOf_hop htwo hx hx] at hle
        · exact absurd hfirst.symm hP
        · rw [hop_prevHop] at hfirst
          exact absurd hfirst.symm hQ
  · obtain ⟨l, r, rfl⟩ := List.append_of_mem ((hmem (onward e x)).mpr (by simp [stuckSet]))
    have hr : r = [] := by
      cases r with
      | nil => rfl
      | cons next r =>
          -- nothing comes from where the last way leads
          have hnext := JsonVal.eq_of_strictEq hlinked.append_right.2.1
          rw [hop_thisHop] at hnext
          rcases mem_stuckSet ((hmem next).mp (by simp)) with rfl | rfl | rfl | rfl
          · rw [hop_prevHop] at hnext
            exact absurd hnext (elsewhere_ne e)
          · rw [hop_prevHop] at hnext
            exact absurd hnext (elsewhere_ne e)
          · exact absurd hnext.symm (elsewhere_ne_prevHop _ 1)
          · rw [hop_prevHop] at hnext
            exact absurd hnext.symm (elsewhere_ne_thisHop e 1)
    subst hr
    have he : e ∈ l := by
      rcases List.mem_append.mp ((hmem e).mpr (by simp [stuckSet])) with he | he
      · exact he
      · have href := congrArg Entry.ref (List.mem_singleton.mp he)
        rw [hop_ref] at href
        omega
    have hle := (List.pairwise_append.mp hpair).2.2 e he (onward e x) List.mem_cons_self
    rwa [readingOf_self, readingOf_hop hthree hx hx] at hle

/-- **An entry that no time fits, or not one that its record allows.** -/
theorem spoils_stuck (he : Linkable e) {w : Time × Time} (hw : windowOf e.link = some w) {b : Time}
    (hopens : w.1 ≤ b) (hcloses : b ≤ w.2)
    (hstuck : (∀ cur t, fits H cur e ≠ .ok (some t)) ∨
      ∃ w', Reads H e w' ∧ ¬ (b ≤ w'.2 ∧ w'.1 ≤ b)) : Spoils H e := by
  obtain ⟨x, hx⟩ := exists_num b
  have hdistinct : Distinct (stuckSet e x) := by simp [Distinct, stuckSet]
  have hwindow : windowD e.link = w := windowOf_eq hw
  refine ⟨stuckSet e x, elsewhere e 0, hdistinct, fun y hy => ?_, fun h => ?_⟩
  · rcases mem_stuckSet hy with rfl | rfl | rfl | rfl
    · exact Or.inr (hop_readRight hx hx)
    · exact Or.inr (hop_readRight hx hx)
    · exact Or.inl rfl
    · exact Or.inr (hop_readRight hx hx)
  · have hroute : IsRoute (elsewhere e 0) [wait e x, gate e x, e, onward e x] := by
      refine isRoute_iff.mpr ⟨List.cons_ne_nil _ _, ?_, ?_, passes_iff_meet.mpr ?_⟩
      · simp only [List.mem_cons, List.not_mem_nil, or_false]
        rintro y (rfl | rfl | rfl | rfl)
        · exact ⟨_, hop_window hx hx⟩
        · exact ⟨_, hop_window hx hx⟩
        · exact ⟨w, hw⟩
        · exact ⟨_, hop_window hx hx⟩
      · simp [Linked, elsewhere_self, he.1, he.2]
      · simp [Meet, hwindow, hop_windowD hx hx, hopens, hcloses, hopens.trans hcloses]
    have hbudget : BudgetLasts H (stuckSet e x) (elsewhere e 0) := by
      refine budgetLasts_of_length ?_
      show ((Backtrack.cost 4 4 : Nat) : Int) ≤ searchBudget
      decide
    obtain ⟨r, hr, hrperm, _, _⟩ := h _ (List.Perm.swap _ _ _) hroute hbudget
    obtain ⟨left, hassemble⟩ := assemble_of_assemblePath hr
    have hwait : wait e x ∈ r := hrperm.mem_iff.mpr (by simp [stuckSet])
    obtain ⟨byStart, hbyStart, ⟨_, rfl, _⟩ | ⟨_, byStop, found, hholds, hdfs, rfl⟩⟩ :=
      assemble_cases hassemble
    · exact firstWalk_stuckSet he hbyStart hwait
    · cases found with
      | none => exact firstWalk_stuckSet he hbyStart hwait
      | some s =>
          have hrun := Backtrack.search_sound hdfs
          rcases hstuck with hnever | ⟨w', hreads, hbad⟩
          · have hmem : e ∈ s.walk := hrperm.mem_iff.mpr (by simp [stuckSet])
            rcases fits_of_run hrun e hmem with hnil | ⟨cur, t, hfits⟩
            · cases hnil
            · exact hnever cur t hfits
          · have hall : ∀ y ∈ stuckSet e x, Reads H y (readingOf e w' y) := by
              intro y hy
              rcases mem_stuckSet hy with rfl | rfl | rfl | rfl
              · exact reads_hop (by omega) hx hx w'
              · exact reads_hop (by omega) hx hx w'
              · rwa [readingOf_self]
              · exact reads_hop (by omega) hx hx w'
            obtain ⟨ps, hwalk, _, hps, _, hpass⟩ :=
              passable_of_run hall hholds (stuckSet_self he) hrun (c := ⊥) rfl distinct_nil
            rw [List.nil_append] at hwalk hps
            have hperm : ps.Perm (stuckSet e x) := by
              rw [← hwalk]
              exact hrperm
            exact hbad (passable_stuckSet hx hperm hps hpass)

/-! ## Which entries are safe -/

/-- A time that cannot be turned into a number cannot be compared either. -/
theorem lt_error {N : Node} {v : JsonVal} {err : Err} (h : JsonVal.toNumber N v = .error err)
    (t : JsNum) : JsonVal.lt N v (some (.num t)) = .error err := by
  have hprim : JsonVal.toPrim N v = .error err := by
    cases hp : JsonVal.toPrim N v with
    | error err' =>
        rw [JsonVal.toNumber, hp] at h
        cases h
        rfl
    | ok p =>
        rw [JsonVal.toNumber, hp] at h
        cases p with
        | big z =>
            -- no value of a record is a BigInt
            cases v with
            | none => cases hp
            | some v =>
                cases v with
                | arr xs =>
                    obtain ⟨_, _, hstr⟩ := Outcome.bind_eq_ok.mp hp
                    cases hstr
                | obj fields =>
                    obtain ⟨_, _, hstr⟩ := Outcome.bind_eq_ok.mp hp
                    cases hstr
                | _ => cases hp
        | _ => cases h
  rw [JsonVal.lt, hprim]
  rfl

theorem fits_of_start_error {err : Err} (h : JsonVal.toNumber H.toNode e.start = .error err)
    (cur : JsNum) : fits H cur e = .error err := by
  rw [fits, h]
  rfl

theorem fits_of_stop_error {s : JsNum} {err : Err}
    (hs : JsonVal.toNumber H.toNode e.start = .ok s)
    (h : JsonVal.toNumber H.toNode e.stop = .error err) (cur : JsNum) :
    fits H cur e = .error err := by
  rw [fits, hs, Outcome.ok_bind]
  dsimp only
  rw [lt_error h]
  rfl

/-- **An entry that is read wrong spoils some set.** -/
theorem spoils_of_not_readRight (he : Linkable e) {w : Time × Time} (hw : windowOf e.link = some w)
    (hopen : w.1 ≤ w.2) (h : ¬ ReadRight H e) : Spoils H e := by
  cases hs : JsonVal.toNumber H.toNode e.start with
  | error err =>
      refine spoils_stuck he hw le_rfl hopen (Or.inl fun cur t hfits => ?_)
      rw [fits_of_start_error hs] at hfits
      cases hfits
  | ok s =>
      cases ht : JsonVal.toNumber H.toNode e.stop with
      | error err =>
          refine spoils_stuck he hw le_rfl hopen (Or.inl fun cur t hfits => ?_)
          rw [fits_of_stop_error hs ht] at hfits
          cases hfits
      | ok t =>
          cases hopens : timeOf (some (.num s)) with
          | none =>
              obtain rfl : s = .nan := by
                cases s with
                | nan => rfl
                | inf m => cases m <;> cases hopens
                | fin q => cases hopens
              exact spoils_nan he hw hopen hs ht
          | some a =>
              have hreads : Reads H e (a, closing t) := ⟨s, t, hs, ht, hopens, rfl⟩
              rcases lt_or_ge (closing t) w.2 with hearly | hcloses
              · exact spoils_stuck he hw hopen le_rfl
                  (Or.inr ⟨_, hreads, fun hfit => absurd hfit.1 (not_le.mpr hearly)⟩)
              · rcases lt_or_ge w.1 a with hlate | hstart
                · exact spoils_stuck he hw le_rfl hopen
                    (Or.inr ⟨_, hreads, fun hfit => absurd hfit.2 (not_le.mpr hlate)⟩)
                · have hwide : a ≤ closing t := hstart.trans (hopen.trans hcloses)
                  rcases hcloses.eq_or_lt with hsame | hlate
                  · rcases hstart.eq_or_lt with hsame' | hearly
                    · refine absurd ⟨w, hw, ?_⟩ h
                      rw [← Prod.mk.eta (p := w), hsame, ← hsame']
                      exact hreads
                    · exact spoils_early he hw hopen hreads hwide hearly
                  · exact spoils_late he hw hopen hreads hwide hlate

/-- The entry of the sample bundle for a batch without times, over one contact. -/
def contact (prevHop thisHop : String) (fromTime toTime : Int) (ref : Nat) : Entry :=
  let request : Batch.Request :=
    { prevHop := some (.text prevHop), thisHop := some (.text thisHop),
      contactId := some (.text (prevHop ++ "-" ++ thisHop)), fromTime := some (.int fromTime),
      toTime := some (.int toTime), bundleIds := [js "b1"], fits := by decide }
  match Batch.batchReceipt sampleHost sampleKey request with
  | .ok batch => ⟨batch.receipt, Batch.batchProof batch (js "b1"), ref⟩
  | .error _ => ⟨.null, .null, ref⟩

/-- The same entry with a `t` in its proof. -/
def Entry.withTime (e : Entry) (t : Int) : Entry :=
  match e.proof with
  | .obj fields => { e with proof := .obj (fields ++ [(js "t", .int t)]) }
  | _ => e

/-- **Exactly which kinds of entries are safe**: those that are read right as far as they have an
open window. Every set of such entries, among others that are read right, is put in route order. -/
theorem assembles_iff {K : Set Entry} (hK : ∀ e ∈ K, Linkable e) :
    (∀ entries source, Distinct entries → (∀ e ∈ entries, e ∈ K ∨ ReadRight H e) →
        Assembles H entries source) ↔
      ∀ e ∈ K, ∀ w, windowOf e.link = some w → w.1 ≤ w.2 → ReadRight H e := by
  constructor
  · intro h e he w hw hopen
    by_contra hnot
    obtain ⟨entries, source, hdistinct, hothers, hspoiled⟩ :=
      spoils_of_not_readRight (hK e he) hw hopen hnot
    refine hspoiled (h entries source hdistinct fun y hy => ?_)
    rcases hothers y hy with rfl | hright
    · exact Or.inl he
    · exact Or.inr hright
  · intro h entries source hdistinct hentries ps hperm hroute
    obtain ⟨_, hall, _, hpasses⟩ := isRoute_iff.mp hroute
    have hopen := (passes_iff_meet.mp hpasses).1
    refine assembles_of_readRight hdistinct (fun e he => ?_) ps hperm hroute
    rcases hentries e he with hmem | hright
    · obtain ⟨w, hw⟩ := hall e (hperm.mem_iff.mpr he)
      have hle := hopen e (hperm.mem_iff.mpr he)
      dsimp only at hle
      rw [windowOf_eq hw] at hle
      exact h e hmem w hw hle
    · exact hright

/-- The kind of the one entry whose proof names a time beside its batch. -/
theorem strayTime_unsafe :
    (∀ entries source, Distinct entries →
        (∀ e ∈ entries, e ∈ ({(contact "x" "y" 0 10 1).withTime 8} : Set Entry) ∨
          ReadRight sampleHost e) → Assembles sampleHost entries source) ↔
      ∀ e ∈ ({(contact "x" "y" 0 10 1).withTime 8} : Set Entry), ∀ w, windowOf e.link = some w →
        w.1 ≤ w.2 → ReadRight sampleHost e := by
  refine assembles_iff ?_
  rintro e rfl
  exact ⟨by decide +kernel, by decide +kernel⟩

/-! ## A proof with a time that its batch does not commit to -/

/-- Out and back again before the last hop; the proof of the way out names a time that is too late
to come back in. -/
def strayEntries : List Entry :=
  [contact "s" "x" 0 0 0, (contact "x" "y" 0 10 1).withTime 8, contact "y" "x" 1 3 2,
    contact "x" "d" 5 10 3]

/-- **A time that `verifyPath` does not look at hides the route**: the entries stand in an order that
`verifyPath` accepts, and `assemblePath` returns two of the four. -/
theorem strayTime_hides :
    (verifyPath sampleHost JsMap.empty (some (.arr (strayEntries.map Entry.link)))
        timedOptions).1 = .ok (.ok 4 1) ∧
      ((assemblePath sampleHost strayEntries (some (.text "s"))).map fun r => r.map Entry.ref) =
        .ok [0, 3] ∧
      ¬ Assembles sampleHost strayEntries (some (.text "s")) := by
  have hassembled : ((assemblePath sampleHost strayEntries (some (.text "s"))).map
      fun r => r.map Entry.ref) = .ok [0, 3] := by
    decide +kernel
  refine ⟨by decide +kernel, hassembled, fun h => ?_⟩
  have hroute : IsRoute (some (.text "s")) strayEntries := by
    have hwindows : ∀ e ∈ strayEntries, (windowOf e.link).isSome = true := by decide +kernel
    have hfirst : JsonVal.strictEq (contact "s" "x" 0 0 0).prevHop (some (.text "s")) = true := by
      decide +kernel
    have hsecond : JsonVal.strictEq ((contact "x" "y" 0 10 1).withTime 8).prevHop
        (contact "s" "x" 0 0 0).thisHop = true := by
      decide +kernel
    have hthird : JsonVal.strictEq (contact "y" "x" 1 3 2).prevHop
        ((contact "x" "y" 0 10 1).withTime 8).thisHop = true := by
      decide +kernel
    have hfourth : JsonVal.strictEq (contact "x" "d" 5 10 3).prevHop
        (contact "y" "x" 1 3 2).thisHop = true := by
      decide +kernel
    exact isRoute_iff.mpr ⟨List.cons_ne_nil _ _,
      fun e he => Option.isSome_iff_exists.mp (hwindows e he),
      ⟨hfirst, hsecond, hthird, hfourth, trivial⟩, by decide +kernel⟩
  obtain ⟨r, hr, hperm, _⟩ := h strayEntries (List.Perm.refl _) hroute
    (budgetLasts_of_length (by decide +kernel))
  rw [hr] at hassembled
  have hrefs : r.map Entry.ref = [0, 3] := Except.ok.inj hassembled
  have hlength := congrArg List.length hrefs
  rw [List.length_map, hperm.length_eq] at hlength
  exact absurd hlength (by decide)

end Path

end DtnCustody
