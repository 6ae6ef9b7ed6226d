/-
# DtnCustody.Agent.Assembled — `assemblePath` finds a route where there is one.

A route is an ordering of the entries that starts at the source, links hop to hop, and could have
happened. `assemblePath` does not look at what kind of record it reads the times of. Where it reads
the times that the records claim (`ReadRight`), the first walk and the search both move along the
earliest times, so a search that ends empty with budget left shows that there is no route
(`assembles_of_readRight`).
-/
import DtnCustody.Agent.Assemble

namespace DtnCustody

open Base Js

namespace Path

/-! ## Hops -/

theorem strictEq_self {v w : JsonVal} (h : JsonVal.strictEq v w = true) :
    JsonVal.strictEq v v = true := by
  have hw := h
  rwa [← JsonVal.eq_of_strictEq h] at hw

/-- What is equal to itself is a key that is found again. -/
theorem key?_isSome {v : JsonVal} (h : JsonVal.strictEq v v = true) :
    (JsonVal.key? v).isSome = true := by
  unfold JsonVal.strictEq at h
  split at h <;> first | rfl | cases h

theorem key?_inj {v w : JsonVal} {k : Prim} (hv : JsonVal.key? v = some k)
    (hw : JsonVal.key? w = some k) : v = w := by
  have hread : ∀ {v : JsonVal}, JsonVal.key? v = some k →
      v = match k with
        | .undef => none
        | .null => some .null
        | .bool b => some (.bool b)
        | .num x => some (.num x)
        | .str s => some (.str s)
        | .big _ => none := by
    intro v hv
    cases v with
    | none => cases hv; rfl
    | some v => cases v <;> cases hv <;> rfl
  exact (hread hv).trans (hread hw).symm

theorem comesFrom_iff {node : JsonVal} {e : Entry} :
    comesFrom node e = true ↔ e.prevHop = node ∧ (JsonVal.key? node).isSome = true := by
  unfold comesFrom
  rw [Bool.and_eq_true, beq_iff_eq]
  constructor
  · rintro ⟨hsome, hkey⟩
    obtain ⟨k, hk⟩ := Option.isSome_iff_exists.mp hsome
    exact ⟨key?_inj (hkey.trans hk) hk, hsome⟩
  · rintro ⟨rfl, hsome⟩
    exact ⟨hsome, rfl⟩

/-- The entries follow one another from a node on. -/
def Linked : JsonVal → List Entry → Prop
  | _, [] => True
  | node, e :: es => JsonVal.strictEq e.prevHop node = true ∧ Linked e.thisHop es

/-- **A route from the source**: hop to hop, at times that do not fall. -/
structure IsRoute (source : JsonVal) (ps : List Entry) : Prop where
  nonempty : ps ≠ []
  linked : Linked source ps
  times : CouldHappen (ps.map Entry.link)

/-- The node behind the last entry. -/
def endOf (node : JsonVal) : List Entry → JsonVal
  | [] => node
  | e :: es => endOf e.thisHop es

theorem Linked.hops {ps : List Entry} : ∀ {node : JsonVal}, Linked node ps →
    node :: ps.map Entry.thisHop = ps.map Entry.prevHop ++ [endOf node ps] := by
  induction ps with
  | nil => intro node _; rfl
  | cons e ps ih =>
      intro node h
      rw [List.map_cons, List.map_cons, endOf, List.cons_append, JsonVal.eq_of_strictEq h.1, ih h.2]

/-- **Every ordering ends at one node.** -/
theorem Linked.endOf_eq {node : JsonVal} {ps qs : List Entry} (hp : Linked node ps)
    (hq : Linked node qs) (hperm : ps.Perm qs) : endOf node ps = endOf node qs := by
  have hends : (ps.map Entry.prevHop ++ [endOf node ps]).Perm
      (ps.map Entry.prevHop ++ [endOf node qs]) := by
    have hcons : (node :: ps.map Entry.thisHop).Perm (node :: qs.map Entry.thisHop) :=
      (hperm.map _).cons node
    rw [hp.hops, hq.hops] at hcons
    exact hcons.trans ((hperm.map _).symm.append_right _)
  have hone := (List.perm_append_left_iff _).mp hends
  exact List.singleton_perm_singleton.mp hone

theorem Linked.prevHop_self {ps : List Entry} : ∀ {node : JsonVal}, Linked node ps →
    ∀ e ∈ ps, JsonVal.strictEq e.prevHop e.prevHop = true := by
  induction ps with
  | nil => intro node _ e he; cases he
  | cons e ps ih =>
      intro node h
      rw [List.forall_mem_cons]
      exact ⟨strictEq_self h.1, ih h.2⟩

/-! ## Times -/

theorem lt_of_times {x y : JsNum} {a b : Time} (ha : timeOf (some (.num x)) = some a)
    (hb : timeOf (some (.num y)) = some b) : x.lt y = some (decide (a < b)) := by
  cases x with
  | nan => cases ha
  | inf m =>
      cases m with
      | true =>
          cases ha
          cases y with
          | nan => cases hb
          | inf n => cases n <;> cases hb <;> simp [JsNum.lt]
          | fin q => cases hb; simp [JsNum.lt]
      | false =>
          cases ha
          cases y with
          | nan => cases hb
          | inf n => cases n <;> cases hb <;> simp [JsNum.lt]
          | fin q => cases hb; simp [JsNum.lt]
  | fin p =>
      cases ha
      cases y with
      | nan => cases hb
      | inf n =>
          cases n with
          | true => cases hb; simp [JsNum.lt]
          | false =>
              cases hb
              have htop : (((p : WithTop ℚ)) : Time) < ((⊤ : WithTop ℚ) : Time) :=
                WithBot.coe_lt_coe.mpr (WithTop.coe_lt_top p)
              rw [decide_eq_true htop]
              rfl
      | fin q => cases hb; simp [JsNum.lt]

theorem larger_of_times {x y : JsNum} {a b : Time} (ha : timeOf (some (.num x)) = some a)
    (hb : timeOf (some (.num y)) = some b) :
    timeOf (some (.num (x.larger y))) = some (max a b) := by
  unfold JsNum.larger
  rw [lt_of_times ha hb]
  by_cases h : a < b
  · rw [decide_eq_true h, max_eq_right h.le]
    exact hb
  · rw [decide_eq_false h, max_eq_left (not_lt.mp h)]
    exact ha

/-- The end of a window that closes at `x`: no time is past what is no number. -/
def closing (x : JsNum) : Time := (timeOf (some (.num x))).getD ⊤

theorem lt_closing {x t : JsNum} {c : Time} (ht : timeOf (some (.num t)) = some c) :
    (x.lt t).getD false = decide (closing x < c) := by
  cases hx : timeOf (some (.num x)) with
  | some b =>
      rw [lt_of_times hx ht, closing, hx]
      rfl
  | none =>
      have hnan : x = .nan := by
        cases x with
        | nan => rfl
        | inf m => cases m <;> cases hx
        | fin q => cases hx
      rw [closing, hx, Option.getD_none, decide_eq_false not_top_lt, hnan]
      rfl

theorem lt_num {N : Node} {v : JsonVal} {x : JsNum} (h : JsonVal.toNumber N v = .ok x) (t : JsNum) :
    JsonVal.lt N v (some (.num t)) = .ok ((x.lt t).getD false) := by
  obtain ⟨p, hp, hx⟩ := Outcome.bind_eq_ok.mp h
  have hlt : JsonVal.lt N v (some (.num t)) = .ok (Prim.lt N p (.num t)) := by
    rw [JsonVal.lt, hp]
    rfl
  rw [hlt]
  cases p with
  | big z => cases hx
  | _ => cases hx; rfl

variable (H : Host)

/-- What `assemblePath` reads off an entry is this window. -/
def Reads (e : Entry) (w : Time × Time) : Prop :=
  ∃ opens closes, JsonVal.toNumber H.toNode e.start = .ok opens ∧
    JsonVal.toNumber H.toNode e.stop = .ok closes ∧
    timeOf (some (.num opens)) = some w.1 ∧ closing closes = w.2

/-- **What is read is the window that the record claims.** -/
def ReadRight (e : Entry) : Prop := ∃ w, windowOf e.link = some w ∧ Reads H e w

variable {H}

/-- An entry fits where its window is still open. -/
theorem fits_eq {e : Entry} {w : Time × Time} {cur : JsNum} {c : Time} (he : Reads H e w)
    (hc : timeOf (some (.num cur)) = some c) :
    ∃ t, timeOf (some (.num t)) = some (max c w.1) ∧
      fits H cur e = .ok (if max c w.1 ≤ w.2 then some t else none) := by
  obtain ⟨opens, closes, hopens, hcloses, hfrom, hto⟩ := he
  refine ⟨cur.larger opens, larger_of_times hc hfrom, ?_⟩
  unfold fits
  rw [hopens, Outcome.ok_bind]
  dsimp only
  rw [lt_num hcloses, Outcome.ok_bind, lt_closing (larger_of_times hc hfrom), hto]
  by_cases h : max c w.1 ≤ w.2
  · rw [if_pos h, decide_eq_false (not_lt.mpr h)]
    rfl
  · rw [if_neg h, decide_eq_true (not_le.mp h)]
    rfl

/-! ## What is read of a list of entries -/

/-- Hop to hop, with times that do not fall in the windows `reading`. -/
def Passable (reading : Entry → Time × Time) (node : JsonVal) (c : Time) (ps : List Entry) : Prop :=
  Linked node ps ∧ (Windows.passes c (ps.map reading)).isSome = true

theorem feasible_eq {reading : Entry → Time × Time} {es : List Entry}
    (hreads : ∀ e ∈ es, Reads H e (reading e)) : ∀ {cur : JsNum} {c : Time},
      timeOf (some (.num cur)) = some c →
      feasible H cur es = .ok (Windows.passes c (es.map reading)).isSome := by
  induction es with
  | nil => intro cur c _; rfl
  | cons e es ih =>
      intro cur c hc
      rw [List.forall_mem_cons] at hreads
      obtain ⟨t, ht, hfits⟩ := fits_eq hreads.1 hc
      rw [feasible, hfits, Outcome.ok_bind, List.map_cons, Windows.passes]
      by_cases h : max c (reading e).1 ≤ (reading e).2
      · rw [if_pos h, if_pos h]
        exact ih hreads.2 ht
      · rw [if_neg h, if_neg h]
        rfl

/-- The entries are objects of their own. -/
def Distinct (es : List Entry) : Prop := (es.map Entry.ref).Nodup

theorem distinct_nil : Distinct [] := List.nodup_nil

theorem isIn_iff {e : Entry} {es : List Entry} : e.isIn es = true ↔ e.ref ∈ es.map Entry.ref := by
  unfold Entry.isIn
  simp [List.any_eq_true]

theorem Distinct.append_singleton {es : List Entry} {e : Entry} (h : Distinct es)
    (he : e.isIn es = false) : Distinct (es ++ [e]) := by
  unfold Distinct at h ⊢
  rw [List.map_append]
  refine List.Nodup.append h (List.nodup_singleton _) ?_
  rw [List.map_cons, List.map_nil, List.disjoint_singleton]
  intro hmem
  rw [isIn_iff.mpr hmem] at he
  cases he

/-- As many of them as there are: all of them. -/
theorem Distinct.perm {ps es : List Entry} (hps : Distinct ps) (hsub : ∀ e ∈ ps, e ∈ es)
    (hlength : ps.length = es.length) : ps.Perm es :=
  (List.subperm_of_subset (List.Nodup.of_map _ hps) hsub).perm_of_length_le hlength.ge

variable {entries : List Entry}

/-- The lists hold the entries by the node they come from, in some order. -/
structure Holds (byPrev : ByPrev) (entries : List Entry) : Prop where
  lists : ∀ node, (leaving byPrev node).Perm (entries.filter (comesFrom node))
  within : ∀ k list, byPrev.get? k = some list → ∀ e ∈ list, e ∈ entries

theorem Holds.mem_iff {byPrev : ByPrev} (h : Holds byPrev entries) {node : JsonVal} {e : Entry} :
    e ∈ leaving byPrev node ↔ e ∈ entries ∧ comesFrom node e = true := by
  rw [(h.lists node).mem_iff, List.mem_filter]

theorem holds_collect {byPrev : ByPrev} (h : collect entries = .ok byPrev) :
    Holds byPrev entries := by
  refine ⟨fun node => ?_, fun k list => mem_of_collect h⟩
  rw [leaving_collect h]

theorem Holds.updateAll {byPrev sorted : ByPrev} (h : Holds byPrev entries) {κ : Type}
    {key : Entry → Outcome κ} {inOrder : κ → κ → Bool}
    (hsorted : byPrev.updateAll (sortBy key inOrder) = .ok sorted) : Holds sorted entries := by
  refine ⟨fun node => (sortBy_perm (leaving_updateAll hsorted node)).trans (h.lists node),
    fun k list hk e he => ?_⟩
  cases hold : byPrev.get? k with
  | none =>
      rw [JsMap.get?_updateAll_none hsorted hold] at hk
      cases hk
  | some old =>
      obtain ⟨list', hlist, hk'⟩ := JsMap.get?_updateAll hsorted hold
      rw [hk] at hk'
      cases hk'
      exact h.within k old hold e ((sortBy_perm hlist).mem_iff.mp he)

/-- The lists are sorted where the key of every entry can be read. -/
theorem Holds.updateAll_returns {byPrev : ByPrev} (h : Holds byPrev entries) {κ : Type}
    {key : Entry → Outcome κ} {inOrder : κ → κ → Bool} (hkey : ∀ e ∈ entries, ∃ k, key e = .ok k) :
    ∃ sorted, byPrev.updateAll (sortBy key inOrder) = .ok sorted := by
  refine JsMap.updateAll_returns fun list hlist => sortBy_returns fun e he => ?_
  obtain ⟨k, hk⟩ := JsMap.mem_values_iff.mp hlist
  exact hkey e (h.within k list hk e he)

/-- The next entry of a walk. -/
theorem Holds.linked {byPrev : ByPrev} (h : Holds byPrev entries)
    (hself : ∀ e ∈ entries, JsonVal.strictEq e.prevHop e.prevHop = true) {node : JsonVal} {e : Entry} :
    e ∈ leaving byPrev node ↔ e ∈ entries ∧ JsonVal.strictEq e.prevHop node = true := by
  rw [h.mem_iff, comesFrom_iff]
  constructor
  · rintro ⟨he, rfl, _⟩
    exact ⟨he, hself e he⟩
  · rintro ⟨he, hnode⟩
    obtain rfl := JsonVal.eq_of_strictEq hnode
    exact ⟨he, rfl, key?_isSome (hself e he)⟩

/-- **The first walk** links hop to hop, and uses no entry twice. -/
theorem greedy_walk {byPrev : ByPrev} (hholds : Holds byPrev entries)
    (hself : ∀ e ∈ entries, JsonVal.strictEq e.prevHop e.prevHop = true) {n : Nat} :
    ∀ {out : List Entry} {node : JsonVal}, Distinct out →
      ∃ ps, greedy byPrev n out node = out ++ ps ∧ Distinct (out ++ ps) ∧ (∀ e ∈ ps, e ∈ entries) ∧
        Linked node ps := by
  induction n with
  | zero =>
      intro out node hout
      exact ⟨[], (List.append_nil _).symm, by rwa [List.append_nil],
        fun e he => (List.not_mem_nil he).elim, trivial⟩
  | succ n ih =>
      intro out node hout
      rw [greedy]
      split
      · exact ⟨[], (List.append_nil _).symm, by rwa [List.append_nil],
          fun e he => (List.not_mem_nil he).elim, trivial⟩
      · rename_i next hnext
        have hnew : next.isIn out = false := by simpa using List.find?_some hnext
        obtain ⟨hmem, hlink⟩ := (hholds.linked hself).mp (List.mem_of_find?_eq_some hnext)
        obtain ⟨ps, heq, hdistinct, hsub, hlinked⟩ :=
          @ih (out ++ [next]) next.thisHop (hout.append_singleton hnew)
        rw [List.append_assoc] at heq hdistinct
        refine ⟨next :: ps, heq, hdistinct, ?_, hlink, hlinked⟩
        rw [List.forall_mem_cons]
        exact ⟨hmem, hsub⟩

/-- The first walk, from the source. -/
abbrev firstWalk (byStart : ByPrev) (entries : List Entry) (source : JsonVal) : List Entry :=
  greedy byStart (entries.length + 1) [] source

theorem firstWalk_linked {byStart : ByPrev} (hholds : Holds byStart entries)
    (hself : ∀ e ∈ entries, JsonVal.strictEq e.prevHop e.prevHop = true) (source : JsonVal) :
    Distinct (firstWalk byStart entries source) ∧
      (∀ e ∈ firstWalk byStart entries source, e ∈ entries) ∧
      Linked source (firstWalk byStart entries source) := by
  obtain ⟨ps, heq, hdistinct, hsub, hlinked⟩ := @greedy_walk entries byStart hholds hself
    (entries.length + 1) [] source distinct_nil
  rw [List.nil_append] at heq hdistinct
  unfold firstWalk
  rw [heq]
  exact ⟨hdistinct, hsub, hlinked⟩

/-! ## The search -/

/-- A step that can be made is to an entry that was not used and whose window is still open. -/
theorem step_eq {s : Place} {e : Entry} {w : Time × Time} {c : Time} (he : Reads H e w)
    (hc : timeOf (some (.num s.cur)) = some c) (hnew : e.isIn s.walk = false) :
    ∃ t, timeOf (some (.num t)) = some (max c w.1) ∧
      step H s e = .ok (if max c w.1 ≤ w.2 then some ⟨e.thisHop, t, s.walk ++ [e]⟩ else none) := by
  obtain ⟨t, ht, hfits⟩ := fits_eq he hc
  refine ⟨t, ht, ?_⟩
  rw [step, hnew, if_neg (by decide), hfits, Outcome.ok_bind]
  by_cases h : max c w.1 ≤ w.2
  · rw [if_pos h, if_pos h]
    rfl
  · rw [if_neg h, if_neg h]
    rfl

variable {reading : Entry → Time × Time} {byPrev : ByPrev}

/-- The runs of the search. -/
abbrev Search (H : Host) (byPrev : ByPrev) : Nat → Place → Place → Prop :=
  Backtrack.Run (fun s => leaving byPrev s.node) (step H)

/-- What a run appends to the walk can be passed. -/
theorem passable_of_run (hreads : ∀ e ∈ entries, Reads H e (reading e))
    (hholds : Holds byPrev entries)
    (hself : ∀ e ∈ entries, JsonVal.strictEq e.prevHop e.prevHop = true) {n : Nat} {s r : Place}
    (h : Search H byPrev n s r) : ∀ {c : Time}, timeOf (some (.num s.cur)) = some c →
      Distinct s.walk → ∃ ps, r.walk = s.walk ++ ps ∧ ps.length = n ∧ Distinct (s.walk ++ ps) ∧
        (∀ e ∈ ps, e ∈ entries) ∧ Passable reading s.node c ps := by
  induction h with
  | done s =>
      intro c _ hdistinct
      exact ⟨[], (List.append_nil _).symm, rfl, by rwa [List.append_nil],
        fun e he => (List.not_mem_nil he).elim, trivial, rfl⟩
  | @move n s s' r e he hnext _ ih =>
      intro c hc hdistinct
      obtain ⟨hmem, hlink⟩ := (hholds.linked hself).mp he
      cases hnew : e.isIn s.walk with
      | true =>
          rw [step, hnew, if_pos rfl] at hnext
          cases hnext
      | false =>
          obtain ⟨t, ht, hstep⟩ := step_eq (hreads e hmem) hc hnew
          rw [hstep] at hnext
          split at hnext
          · rename_i hopen
            cases hnext
            obtain ⟨ps, hwalk, hlength, hdistinct', hsub, hlinked, hpasses⟩ :=
              ih ht (hdistinct.append_singleton hnew)
            rw [List.append_assoc] at hwalk hdistinct'
            refine ⟨e :: ps, hwalk, by rw [List.length_cons, hlength], hdistinct', ?_,
              ⟨hlink, hlinked⟩, ?_⟩
            · rw [List.forall_mem_cons]
              exact ⟨hmem, hsub⟩
            · rw [List.map_cons, Windows.passes, if_pos hopen]
              exact hpasses
          · cases hnext

/-- What can be passed is a run. -/
theorem run_of_passable (hreads : ∀ e ∈ entries, Reads H e (reading e))
    (hholds : Holds byPrev entries)
    (hself : ∀ e ∈ entries, JsonVal.strictEq e.prevHop e.prevHop = true) {ps : List Entry} :
    ∀ {s : Place} {c : Time}, timeOf (some (.num s.cur)) = some c → (∀ e ∈ ps, e ∈ entries) →
      Distinct (s.walk ++ ps) → Passable reading s.node c ps →
      ∃ r, Search H byPrev ps.length s r := by
  induction ps with
  | nil => intro s c _ _ _ _; exact ⟨s, .done s⟩
  | cons e ps ih =>
      intro s c hc hsub hdistinct hpass
      obtain ⟨⟨hlink, hlinked⟩, hpasses⟩ := hpass
      rw [List.forall_mem_cons] at hsub
      have hnew : e.isIn s.walk = false := by
        rw [Bool.eq_false_iff, ne_eq, isIn_iff]
        intro hmem
        unfold Distinct at hdistinct
        rw [List.map_append, List.map_cons] at hdistinct
        exact List.disjoint_of_nodup_append hdistinct hmem List.mem_cons_self
      obtain ⟨t, ht, hstep⟩ := step_eq (hreads e hsub.1) hc hnew
      rw [List.map_cons, Windows.passes] at hpasses
      split at hpasses
      · rename_i hopen
        rw [if_pos hopen] at hstep
        rw [List.append_cons] at hdistinct
        obtain ⟨r, hrun⟩ := ih (s := ⟨e.thisHop, t, s.walk ++ [e]⟩) ht hsub.2 hdistinct
          ⟨hlinked, hpasses⟩
        exact ⟨r, .move ((hholds.linked hself).mpr ⟨hsub.1, hlink⟩) hstep hrun⟩
      · cases hpasses

/-- Where the times can be read, the search returns. -/
theorem dfs_returns (hreads : ∀ e ∈ entries, Reads H e (reading e))
    (hholds : Holds byPrev entries) (source : JsonVal) :
    ∃ x, dfs H byPrev entries source = .ok x := by
  have hgood : ∀ s : Place, (∃ c, timeOf (some (.num s.cur)) = some c) →
      ∀ e ∈ leaving byPrev s.node, ∃ o, step H s e = .ok o ∧
        ∀ s', o = some s' → ∃ c, timeOf (some (.num s'.cur)) = some c := by
    rintro s ⟨c, hc⟩ e he
    have hmem := (hholds.mem_iff.mp he).1
    cases hnew : e.isIn s.walk with
    | true =>
        refine ⟨none, ?_, fun s' hs' => by cases hs'⟩
        rw [step, hnew, if_pos rfl]
    | false =>
        obtain ⟨t, ht, hstep⟩ := step_eq (hreads e hmem) hc hnew
        refine ⟨_, hstep, fun s' hs' => ?_⟩
        split at hs'
        · cases hs'
          exact ⟨_, ht⟩
        · cases hs'
  exact Backtrack.search_returns hgood ⟨⊥, rfl⟩ searchBudget

/-- An ordering of all entries that can be passed in the windows `reading`. -/
def Orders (reading : Entry → Time × Time) (entries : List Entry) (source : JsonVal)
    (ps : List Entry) : Prop :=
  ps.Perm entries ∧ Passable reading source ⊥ ps

/-- **What the search finds**: an ordering, or, with budget left, that there is none. -/
theorem dfs_orders (hreads : ∀ e ∈ entries, Reads H e (reading e)) (hholds : Holds byPrev entries)
    (hself : ∀ e ∈ entries, JsonVal.strictEq e.prevHop e.prevHop = true)
    (hdistinct : Distinct entries) {source : JsonVal} {found : Option Place} {left : Int}
    (h : dfs H byPrev entries source = .ok (found, left)) :
    match found with
    | some s => Orders reading entries source s.walk
    | none => 0 ≤ left → ∀ ps, ¬ Orders reading entries source ps := by
  cases found with
  | some s =>
      obtain ⟨ps, hwalk, hlength, hdistinct', hsub, hpass⟩ := passable_of_run hreads hholds hself
        (Backtrack.search_sound h) (c := ⊥) rfl List.nodup_nil
      rw [List.nil_append] at hwalk hdistinct'
      show Orders reading entries source s.walk
      rw [hwalk]
      exact ⟨hdistinct'.perm hsub hlength, hpass⟩
  | none =>
      rintro hleft ps ⟨hperm, hpass⟩
      obtain ⟨r, hrun⟩ := run_of_passable hreads hholds hself
        (s := ⟨source, .inf true, []⟩) (c := ⊥) rfl (fun e he => hperm.mem_iff.mp he)
        (((hperm.map Entry.ref).nodup_iff).mpr hdistinct) hpass
      rw [hperm.length_eq] at hrun
      exact Backtrack.search_complete h hleft hrun

/-! ## What is returned -/

/-- The lists of the first walk: the entries from each node by their starts. -/
def ByStart (H : Host) (entries : List Entry) (byStart : ByPrev) : Prop :=
  Holds byStart entries ∧
    ∀ node, sortByStart H (entries.filter (comesFrom node)) = .ok (leaving byStart node)

/-- **The two ways to a result**: the first walk stands, or the search decides. -/
theorem assemble_cases {source : JsonVal} {r : List Entry} {left : Int}
    (h : assemble H entries source = .ok (r, left)) :
    ∃ byStart, ByStart H entries byStart ∧
      ((stands H entries (firstWalk byStart entries source) = .ok true ∧
          r = firstWalk byStart entries source ∧ left = searchBudget) ∨
        (stands H entries (firstWalk byStart entries source) = .ok false ∧
          ∃ byStop found, Holds byStop entries ∧ dfs H byStop entries source = .ok (found, left) ∧
            r = (found.map Place.walk).getD (firstWalk byStart entries source))) := by
  obtain ⟨byPrev, hcollect, h⟩ := Outcome.bind_eq_ok.mp h
  obtain ⟨byStart, hstart, h⟩ := Outcome.bind_eq_ok.mp h
  obtain ⟨standing, hstands, h⟩ := Outcome.bind_eq_ok.mp h
  have hholds := (holds_collect hcollect).updateAll hstart
  refine ⟨byStart, ⟨hholds, fun node => ?_⟩, ?_⟩
  · rw [← leaving_collect hcollect]
    exact leaving_updateAll hstart node
  · cases standing with
    | true =>
        cases h
        exact Or.inl ⟨hstands, rfl, rfl⟩
    | false =>
        obtain ⟨byStop, hstop, h⟩ := Outcome.bind_eq_ok.mp h
        obtain ⟨⟨found, left'⟩, hdfs, h⟩ := Outcome.bind_eq_ok.mp h
        refine Or.inr ⟨hstands, byStop, found, hholds.updateAll hstop, ?_⟩
        cases found <;> cases h <;> exact ⟨hdfs, rfl⟩

theorem reads_start {e : Entry} {w : Time × Time} (h : Reads H e w) :
    ∃ x, JsonVal.toNumber H.toNode e.start = .ok x := by
  obtain ⟨opens, _, hopens, _⟩ := h
  exact ⟨opens, hopens⟩

theorem reads_stop {e : Entry} {w : Time × Time} (h : Reads H e w) :
    ∃ x, JsonVal.toNumber H.toNode e.stop = .ok x := by
  obtain ⟨_, closes, _, hcloses, _⟩ := h
  exact ⟨closes, hcloses⟩

variable {source : JsonVal}

theorem assemble_returns (hreads : ∀ e ∈ entries, Reads H e (reading e))
    (hself : ∀ e ∈ entries, JsonVal.strictEq e.prevHop e.prevHop = true)
    (hnull : ∀ e ∈ entries, e.receipt.isNull = false) :
    ∃ x, assemble H entries source = .ok x := by
  have hstart : ∀ e ∈ entries, ∃ x, JsonVal.toNumber H.toNode e.start = .ok x :=
    fun e he => reads_start (hreads e he)
  have hstop : ∀ e ∈ entries, ∃ x : JsNum × JsNum, (do
      return (← JsonVal.toNumber H.toNode e.stop, ← JsonVal.toNumber H.toNode e.start)) =
        Except.ok (ε := Err) x := by
    intro e he
    obtain ⟨x, hx⟩ := reads_stop (hreads e he)
    obtain ⟨y, hy⟩ := hstart e he
    exact ⟨(x, y), by rw [hx, hy]; rfl⟩
  obtain ⟨byPrev, hcollect⟩ := collect_returns hnull
  obtain ⟨byStart, hbyStart⟩ : ∃ m, byPrev.updateAll (sortByStart H) = .ok m :=
    (holds_collect hcollect).updateAll_returns hstart
  have hholds := (holds_collect hcollect).updateAll hbyStart
  obtain ⟨byStop, hbyStop⟩ : ∃ m, byStart.updateAll (sortByStop H) = .ok m :=
    hholds.updateAll_returns hstop
  obtain ⟨x, hdfs⟩ := dfs_returns hreads (hholds.updateAll hbyStop) source
  obtain ⟨_, hsub, _⟩ := firstWalk_linked hholds hself source
  have hstands : ∃ b, stands H entries (firstWalk byStart entries source) = .ok b := by
    unfold stands
    split
    · exact ⟨_, feasible_eq (fun e he => hreads e (hsub e he)) (c := ⊥) rfl⟩
    · exact ⟨_, rfl⟩
  obtain ⟨b, hb⟩ := hstands
  unfold assemble
  rw [hcollect, Outcome.ok_bind]
  rw [hbyStart, Outcome.ok_bind]
  dsimp only
  rw [hb, Outcome.ok_bind]
  cases b with
  | true => exact ⟨_, rfl⟩
  | false =>
      rw [if_neg (by decide), hbyStop, Outcome.ok_bind, hdfs, Outcome.ok_bind]
      split <;> exact ⟨_, rfl⟩

/-- **What `assemblePath` finds in the windows that it reads**: an ordering of all entries, unless
there is none. -/
theorem assemble_orders (hreads : ∀ e ∈ entries, Reads H e (reading e))
    (hself : ∀ e ∈ entries, JsonVal.strictEq e.prevHop e.prevHop = true)
    (hdistinct : Distinct entries) {r : List Entry} {left : Int}
    (h : assemble H entries source = .ok (r, left)) (hleft : 0 ≤ left) :
    Orders reading entries source r ∨ ∀ ps, ¬ Orders reading entries source ps := by
  obtain ⟨byStart, ⟨hholds, _⟩, ⟨hstands, rfl, _⟩ | ⟨_, byStop, found, hstop, hdfs, rfl⟩⟩ :=
    assemble_cases h
  · left
    obtain ⟨hwalk, hsub, hlinked⟩ := firstWalk_linked hholds hself source
    unfold stands at hstands
    split at hstands
    · rename_i hlength
      rw [feasible_eq (fun e he => hreads e (hsub e he)) (c := ⊥) rfl] at hstands
      exact ⟨hwalk.perm hsub hlength, hlinked, Except.ok.inj hstands⟩
    · cases hstands
  · have hfound := dfs_orders hreads hstop hself hdistinct hdfs
    cases found with
    | some s => exact Or.inl hfound
    | none => exact Or.inr (hfound hleft)

/-- **The budget lasts for a few entries**, whatever they hold. -/
theorem budgetLasts_of_length (h : (Backtrack.cost entries.length entries.length : Int) ≤ searchBudget) :
    BudgetLasts H entries source := by
  rintro ⟨r, left⟩ hr
  obtain ⟨_, _, ⟨_, _, hleft⟩ | ⟨_, byStop, found, hholds, hdfs, _⟩⟩ := assemble_cases hr
  · rw [hleft]
    show 0 ≤ searchBudget
    decide
  · have hmoves : ∀ s : Place, (leaving byStop s.node).length ≤ entries.length := by
      intro s
      rw [(hholds.lists s.node).length_eq]
      exact List.length_filter_le _ _
    have hcost := Backtrack.search_le_left hmoves hdfs
    show 0 ≤ left
    omega

/-- Every entry of a walk that was found could be asked for its times. -/
theorem fits_of_run {n : Nat} {s r : Place} (h : Search H byPrev n s r) :
    ∀ e ∈ r.walk, e ∈ s.walk ∨ ∃ cur t, fits H cur e = .ok (some t) := by
  induction h with
  | done s => exact fun e he => Or.inl he
  | @move n s s' r e _ hnext _ ih =>
      intro x hx
      rw [step] at hnext
      split at hnext
      · cases hnext
      · obtain ⟨o, ho, hnext⟩ := Outcome.bind_eq_ok.mp hnext
        cases o with
        | none => cases hnext
        | some t =>
            cases hnext
            rcases ih x hx with hmem | hfits
            · rcases List.mem_append.mp hmem with hmem | hmem
              · exact Or.inl hmem
              · rw [List.mem_singleton.mp hmem]
                exact Or.inr ⟨_, t, ho⟩
            · exact Or.inr hfits

/-- What comes from a node that a walk does not start at is behind another entry that leads there. -/
theorem Linked.arrives {ps : List Entry} : ∀ {node : JsonVal}, Linked node ps → ps.Nodup →
    ∀ u ∈ ps, u.prevHop = node ∨ ∃ v ∈ ps, v ≠ u ∧ v.thisHop = u.prevHop := by
  induction ps with
  | nil => intro node _ _ u hu; cases hu
  | cons e ps ih =>
      intro node h hnodup u hu
      rw [List.nodup_cons] at hnodup
      rcases List.mem_cons.mp hu with rfl | hu
      · exact Or.inl (JsonVal.eq_of_strictEq h.1)
      · have hne : e ≠ u := by
          rintro rfl
          exact hnodup.1 hu
        rcases ih h.2 hnodup.2 u hu with heq | ⟨v, hv, hvu, heq⟩
        · exact Or.inr ⟨e, List.mem_cons_self, hne, heq.symm⟩
        · exact Or.inr ⟨v, List.mem_cons_of_mem _ hv, hvu, heq⟩

theorem Linked.append_right {l r : List Entry} : ∀ {node : JsonVal}, Linked node (l ++ r) →
    Linked (endOf node l) r := by
  induction l with
  | nil => exact fun h => h
  | cons e l ih => exact fun h => ih h.2

end Path

end DtnCustody
