/-
# DtnCustody.Agent.PathTimes — which accepted paths could have happened.

A path could have happened when there is a time in each record's window, none before the one ahead
of it. `verifyPath` compares a window with the one before only. `verifyPath_couldHappen` says what
is left to ask of an accepted path: that each window has numbers for ends and does not close before
it opens, nor before one further back opens.
-/
import DtnCustody.Agent.Path
import DtnCustody.Base.Windows
import Mathlib.Order.WithBot

namespace DtnCustody

open Base Js

namespace Path

/-! ## Windows -/

/-- A point in time: a number, `NaN` apart. -/
abbrev Time := WithBot (WithTop ℚ)

def timeOf (v : JsonVal) : Option Time :=
  match v with
  | some (.num (.fin q)) => some (((q : WithTop ℚ)) : Time)
  | some (.num (.inf false)) => some ((⊤ : WithTop ℚ) : Time)
  | some (.num (.inf true)) => some ⊥
  | _ => none

/-- The times a record gives for the bundle: `receivedAt` and `forwardedAt`, or `from` and `to`, or
twice the time that the proof shows to be committed. -/
def claimedTimes (r : Json) (proof : JsonVal) : JsonVal × JsonVal :=
  if JsonVal.isText (r.get "kind") Batch.kind then
    if JsonVal.truthy (r.get "leafTimes") then (proof.get? "t", proof.get? "t")
    else (r.get "from", r.get "to")
  else (r.get "receivedAt", r.get "forwardedAt")

/-- The window of a link, if both its ends are times. -/
def windowOf (link : Json) : Option (Time × Time) :=
  match readLink link with
  | .ok (some r, proof) => do
      let opens ← timeOf (claimedTimes r proof).1
      let closes ← timeOf (claimedTimes r proof).2
      return (opens, closes)
  | _ => none

/-- **A route that could have happened**: a time inside the window of each link, in order. -/
def CouldHappen (links : List Json) : Prop :=
  ∃ ts : List Time, List.Forall₂ (fun link t => ∃ w, windowOf link = some w ∧ Windows.Inside w t)
    links ts ∧ ts.Pairwise (· ≤ ·)

/-- `v` opens no later than `w` closes, as far as both have windows. -/
def OpensBefore (v w : Json) : Prop :=
  ∀ a b, windowOf v = some a → windowOf w = some b → a.1 ≤ b.2

/-- **What `verifyPath` leaves to be asked**: every window has ends and is open at some time, and
none closes before one further back than its neighbour opens. -/
structure WindowsMeet (links : List Json) : Prop where
  isOpen : ∀ link ∈ links, ∃ w, windowOf link = some w ∧ w.1 ≤ w.2
  apart : ∀ i j v w, i + 1 < j → links[i]? = some v → links[j]? = some w → OpensBefore v w

/-! ## What the walk compares -/

variable (H : Host)

theorem linkTimes_eq {o : Options} {r : Json} {proof t0 t1 : JsonVal}
    (h : linkTimes H o r proof = .ok (.inr (t0, t1))) : (t0, t1) = claimedTimes r proof := by
  unfold linkTimes at h
  unfold claimedTimes
  split at h
  · rename_i hbatch
    rw [if_pos hbatch]
    obtain ⟨covered, _, h⟩ := Outcome.bind_eq_ok.mp h
    split at h
    · cases h
    · split at h
      · rename_i htimes
        rw [if_pos htimes]
        cases h
        rfl
      · rename_i htimes
        rw [if_neg htimes]
        cases h
        rfl
  · rename_i hbatch
    rw [if_neg hbatch]
    split at h
    · split at h
      · cases h
      · cases h
        rfl
    · cases h

/-- With no skew allowed, an end that does not regress is no earlier. -/
theorem le_of_not_regresses {t1 t0 : JsonVal} {a b : Time} (ha : timeOf t0 = some a)
    (hb : timeOf t1 = some b) (h : regresses H 0 t1 t0 = .ok false) : a ≤ b := by
  have number : ∀ {t : JsonVal} {c : Time}, timeOf t = some c →
      ∃ x : JsNum, t = some (.num x) ∧ x ≠ .nan := by
    intro t c ht
    unfold timeOf at ht
    split at ht
    · exact ⟨_, rfl, by simp⟩
    · exact ⟨_, rfl, by simp⟩
    · exact ⟨_, rfl, by simp⟩
    · cases ht
  obtain ⟨x, rfl, hx⟩ := number ha
  obtain ⟨y, rfl, hy⟩ := number hb
  have hadd : y.add (.fin ((0 : Int) : ℚ)) = y := by
    cases y with
    | nan => exact absurd rfl hy
    | inf _ => rfl
    | fin q => simp [JsNum.add]
  have hlt : (y.lt x).getD false = false := by
    have heq : regresses H 0 (some (.num y)) (some (.num x)) =
        .ok ((y.add (.fin ((0 : Int) : ℚ))).lt x |>.getD false) := rfl
    rw [heq, hadd, Except.ok.injEq] at h
    exact h
  cases x with
  | nan => exact absurd rfl hx
  | inf m =>
      cases m with
      | true => cases ha; exact bot_le
      | false =>
          cases y with
          | nan => exact absurd rfl hy
          | inf n =>
              cases n with
              | true => simp [JsNum.lt] at hlt
              | false => cases ha; cases hb; exact le_rfl
          | fin q => simp [JsNum.lt] at hlt
  | fin p =>
      cases y with
      | nan => exact absurd rfl hy
      | inf n =>
          cases n with
          | true => simp [JsNum.lt] at hlt
          | false =>
              cases ha
              cases hb
              exact WithBot.coe_le_coe.mpr le_top
      | fin q =>
          cases ha
          cases hb
          refine WithBot.coe_le_coe.mpr (WithTop.coe_le_coe.mpr ?_)
          simpa using hlt

/-- A record whose link is followed is joined to what went before, and in order. -/
theorem linkOn_next {o : Options} {st st' : PathState} {receipt : Json} {t0 t1 : JsonVal}
    (h : linkOn H o st receipt t0 t1 = .ok (.next st')) :
    st'.prev = some (receipt.get "thisHop", t0) ∧
      JsonVal.strictEq (receipt.get "prevHop")
        (match st.prev with | none => o.source | some p => p.1) = true ∧
      ∀ node before, st.prev = some (node, before) → regresses H o.skewMs t1 before = .ok false := by
  unfold linkOn at h
  cases hprev : st.prev with
  | none =>
      rw [hprev] at h
      dsimp only at h
      split at h
      · cases h
      · rename_i hsource
        cases h
        exact ⟨rfl, by simpa using hsource, fun node before hnone => by cases hnone⟩
  | some last =>
      rw [hprev] at h
      dsimp only at h
      split at h
      · cases h
      · rename_i hlink
        obtain ⟨late, hlate, h⟩ := Outcome.bind_eq_ok.mp h
        cases late with
        | true => cases h
        | false =>
            cases h
            refine ⟨rfl, by simpa using hlink, fun node before hsome => ?_⟩
            cases hsome
            exact hlate

/-- What was checked of a link that lets the walk go on. -/
structure GoesOn (o : Options) (authorize : Json → JsonVal → JsonVal → Outcome Authorization)
    (st st' : PathState) (receipt signer : Json) (proof t0 t1 : JsonVal) : Prop where
  times : linkTimes H o receipt proof = .ok (.inr (t0, t1))
  authorized : authorize signer (receipt.get "thisHop") t0 = .ok .ok
  prev : st'.prev = some (receipt.get "thisHop", t0)
  joined : JsonVal.strictEq (receipt.get "prevHop")
    (match st.prev with | none => o.source | some p => p.1) = true
  inOrder : ∀ node before, st.prev = some (node, before) → regresses H o.skewMs t1 before = .ok false

theorem judgeLink_goesOn {o : Options} {authorize : Json → JsonVal → JsonVal → Outcome Authorization}
    {st st' : PathState} {r proof : JsonVal} {v : RecordVerdict}
    (h : judgeLink H o authorize st r proof v = .ok (.next st')) :
    ∃ receipt signer t0 t1, r = some receipt ∧ v = .ok signer ∧
      GoesOn H o authorize st st' receipt signer proof t0 t1 := by
  cases v with
  | fail reason => cases h
  | ok signer =>
      cases r with
      | none => cases h
      | some receipt =>
          obtain ⟨times, htimes, h⟩ := Outcome.bind_eq_ok.mp h
          cases times with
          | inl reason => cases h
          | inr times =>
              obtain ⟨t0, t1⟩ := times
              obtain ⟨a, ha, h⟩ := Outcome.bind_eq_ok.mp h
              cases a with
              | refused reason => cases h
              | ok =>
                  obtain ⟨hprev, hjoined, horder⟩ := linkOn_next H h
                  exact ⟨receipt, signer, t0, t1, rfl, rfl, htimes, ha, hprev, hjoined, horder⟩

/-- A link that lets the walk go on was read, opens at the time the walk remembers, and does not
close before the time it remembered. -/
theorem judgeLink_next {o : Options}
    {authorize : Json → JsonVal → JsonVal → Outcome Authorization} {st st' : PathState}
    {r proof : JsonVal} {v : RecordVerdict}
    (h : judgeLink H o authorize st r proof v = .ok (.next st')) :
    ∃ rec, r = some rec ∧ (∃ node, st'.prev = some (node, (claimedTimes rec proof).1)) ∧
      ∀ node t0, st.prev = some (node, t0) →
        regresses H o.skewMs (claimedTimes rec proof).2 t0 = .ok false := by
  obtain ⟨receipt, signer, t0, t1, hr, _, hon⟩ := judgeLink_goesOn H h
  refine ⟨receipt, hr, ?_⟩
  rw [← linkTimes_eq H hon.times]
  exact ⟨⟨_, hon.prev⟩, hon.inOrder⟩

/-- What the walk remembers against the first link to come. -/
def Meets (st : PathState) (link : Json) : Prop :=
  ∀ node t0, st.prev = some (node, t0) → ∀ a w, timeOf t0 = some a → windowOf link = some w → a ≤ w.2

/-- **An accepted walk has compared every link with the one before.** -/
theorem walk_chain {o : Options} {authorize : Json → JsonVal → JsonVal → Outcome Authorization}
    (hskew : o.skewMs = 0) {links : List Json} :
    ∀ {i : Nat} {st : PathState} {cache : Cache} {n k : Nat},
      (walk H o authorize i st cache links).1 = .ok (.ok n k) →
        (∀ link ∈ links.head?, Meets st link) ∧ links.IsChain OpensBefore := by
  induction links with
  | nil =>
      intro i st cache n k _
      refine ⟨?_, List.IsChain.nil⟩
      intro link hlink
      cases hlink
  | cons link rest ih =>
      intro i st cache n k h
      rw [walk] at h
      split at h
      · cases h
      · rename_i r proof hread
        dsimp only at h
        split at h
        · cases h
        · split at h
          · cases h
          · cases h
          · rename_i st' hjudge
            obtain ⟨rec, rfl, ⟨node, hprev⟩, hbefore⟩ := judgeLink_next H hjudge
            obtain ⟨hhead, hchain⟩ := ih h
            have hwin : ∀ w, windowOf link = some w →
                timeOf (claimedTimes rec proof).1 = some w.1 ∧
                  timeOf (claimedTimes rec proof).2 = some w.2 := by
              intro w hw
              unfold windowOf at hw
              rw [hread] at hw
              obtain ⟨a, ha, hw⟩ := Option.bind_eq_some_iff.mp hw
              obtain ⟨b, hb, hw⟩ := Option.bind_eq_some_iff.mp hw
              cases hw
              exact ⟨ha, hb⟩
            refine ⟨?_, ?_⟩
            · intro link' hlink'
              cases hlink'
              intro node' t0 hst a w ha hw
              have hreg := hbefore node' t0 hst
              rw [hskew] at hreg
              exact le_of_not_regresses H ha (hwin w hw).2 hreg
            · cases rest with
              | nil => exact List.IsChain.singleton _
              | cons next rest =>
                  refine List.isChain_cons_cons.mpr ⟨?_, hchain⟩
                  intro a b ha hb
                  exact hhead next rfl node _ hprev a.1 b (hwin a ha).1 hb

theorem verifyPath_chain {o : Options} (hskew : o.skewMs = 0) {cache : Cache} {links : List Json}
    {n k : Nat} (h : (verifyPath H cache (some (.arr links)) o).1 = .ok (.ok n k)) :
    links.IsChain OpensBefore := by
  unfold verifyPath at h
  dsimp only at h
  split at h
  · cases h
  · split at h
    · cases h
    · split at h
      · cases h
      · exact (walk_chain H hskew h).2

/-! ## Routes -/

/-- The window of a link that has one. -/
def windowD (link : Json) : Time × Time := (windowOf link).getD (⊥, ⊥)

theorem windowOf_eq {link : Json} {w : Time × Time} (h : windowOf link = some w) :
    windowD link = w := by
  rw [windowD, h]
  rfl

theorem couldHappen_iff {links : List Json} :
    CouldHappen links ↔ (∀ link ∈ links, ∃ w, windowOf link = some w) ∧
      ∃ ts, Windows.Route (links.map windowD) ts := by
  constructor
  · rintro ⟨ts, hinside, hsorted⟩
    refine ⟨?_, ts, ?_, hsorted⟩
    · intro link hlink
      clear hsorted
      induction hinside with
      | nil => cases hlink
      | cons hw _ ih =>
          rcases List.mem_cons.mp hlink with rfl | hlink
          · obtain ⟨w, hw, _⟩ := hw
            exact ⟨w, hw⟩
          · exact ih hlink
    · rw [List.forall₂_map_left_iff]
      refine hinside.imp ?_
      rintro link t ⟨w, hw, ht⟩
      rwa [windowOf_eq hw]
  · rintro ⟨hall, ts, hinside, hsorted⟩
    refine ⟨ts, ?_, hsorted⟩
    rw [List.forall₂_map_left_iff] at hinside
    clear hsorted
    induction hinside with
    | nil => exact .nil
    | cons ht _ ih =>
        rw [List.forall_mem_cons] at hall
        obtain ⟨w, hw⟩ := hall.1
        refine .cons ⟨w, hw, ?_⟩ (ih hall.2)
        rwa [windowOf_eq hw] at ht

/-- **When an accepted path could have happened**: exactly when its windows have ends, are open, and
meet those further back than their neighbours. -/
theorem verifyPath_couldHappen {H : Host} {cache : Cache} {links : List Json} {o : Options}
    {n k : Nat} (hskew : o.skewMs = 0)
    (h : (verifyPath H cache (some (.arr links)) o).1 = .ok (.ok n k)) :
    CouldHappen links ↔ WindowsMeet links := by
  rw [couldHappen_iff, Windows.exists_route_iff, List.forall_mem_map, List.pairwise_map]
  constructor
  · rintro ⟨hall, hopen, hpair⟩
    refine ⟨fun link hlink => ?_, ?_⟩
    · obtain ⟨w, hw⟩ := hall link hlink
      have hle := hopen link hlink
      rw [windowOf_eq hw] at hle
      exact ⟨w, hw, hle⟩
    · intro i j v w hij hv hw a b ha hb
      have hi := (List.getElem?_eq_some_iff.mp hv).1
      have hj := (List.getElem?_eq_some_iff.mp hw).1
      have hle := List.pairwise_iff_getElem.mp hpair i j hi hj (by omega)
      rw [(List.getElem?_eq_some_iff.mp hv).2, (List.getElem?_eq_some_iff.mp hw).2,
        windowOf_eq ha, windowOf_eq hb] at hle
      exact hle
  · intro hmeet
    have hall : ∀ link ∈ links, windowOf link = some (windowD link) := by
      intro link hlink
      obtain ⟨w, hw, _⟩ := hmeet.isOpen link hlink
      rw [windowOf_eq hw, hw]
    refine ⟨fun link hlink => ⟨_, hall link hlink⟩, ?_, ?_⟩
    · intro link hlink
      obtain ⟨w, hw, hle⟩ := hmeet.isOpen link hlink
      rwa [windowOf_eq hw]
    · have hpair := Windows.pairwise_of_neighbours (verifyPath_chain H hskew h) hmeet.apart
      refine List.Pairwise.imp_of_mem ?_ hpair
      intro v w hv hw hvw
      exact hvw _ _ (hall v hv) (hall w hw)

/-- A signed record of one hop with its two times. -/
def timedRecord (prevHop thisHop : String) (receivedAt forwardedAt : Int) : Json :=
  match Receipt.signRecord sampleHost sampleKey
      [(js "kind", .text "custody/1"), (js "bundleId", .text "b1"), (js "prevHop", .text prevHop),
        (js "thisHop", .text thisHop), (js "receivedAt", .int receivedAt),
        (js "forwardedAt", .int forwardedAt)] with
  | .ok v => v
  | .error _ => .null

/-- Three hops from `s` to `d`, with the window of each. -/
def timedPath (first second third : Int × Int) : List Json :=
  [timedRecord "s" "m1" first.1 first.2, timedRecord "m1" "m2" second.1 second.2,
    timedRecord "m2" "d" third.1 third.2].map fun r => .obj [(js "receipt", r)]

/-- The sample call's options, which allow no skew. -/
def timedOptions : Options := (sampleCall "b1" .null).options

/-- Windows that rise hop by hop. -/
theorem risingPath_couldHappen :
    CouldHappen (timedPath (10, 20) (0, 100) (15, 30)) ↔
      WindowsMeet (timedPath (10, 20) (0, 100) (15, 30)) := by
  have haccepted : (verifyPath sampleHost JsMap.empty
      (some (.arr (timedPath (10, 20) (0, 100) (15, 30)))) timedOptions).1 = .ok (.ok 3 0) := by
    decide +kernel
  exact verifyPath_couldHappen rfl haccepted

/-- **A wide window hides an impossible route**: the first node received the bundle at 10 at the
earliest, the last one forwarded it by 6, and every neighbour agrees with the next. -/
theorem wideWindow_accepted :
    (verifyPath sampleHost JsMap.empty (some (.arr (timedPath (10, 20) (0, 100) (5, 6))))
        timedOptions).1 = .ok (.ok 3 0) ∧
      ¬ CouldHappen (timedPath (10, 20) (0, 100) (5, 6)) := by
  refine ⟨by decide +kernel, ?_⟩
  rw [couldHappen_iff, Windows.exists_route_iff]
  rintro ⟨_, _, hpair⟩
  -- the third hop's window closes before the first one's opens
  have hapart : ¬ (windowD (.obj [(js "receipt", timedRecord "s" "m1" 10 20)])).1 ≤
      (windowD (.obj [(js "receipt", timedRecord "m2" "d" 5 6)])).2 := by
    decide +kernel
  exact hapart (List.pairwise_iff_getElem.mp hpair 0 2 (by decide) (by decide) (by decide))

end Path

end DtnCustody
