/-
# DtnCustody.Agent.Detours — one entry among others that are read right.

An entry of which `assemblePath` reads another window than the record claims spoils some set in which
every other entry is read right (`Spoils`). Here are the sets of which the first walk uses every entry
in an order that is no route: one that is read as closing late, or opening early, fits where it is too
late or too early, behind a loop that it has to go before or before one it has to go behind; one that
is read as opening at no number lets every entry behind it fit.
-/
import DtnCustody.Agent.Acceptance

namespace DtnCustody

open Base Js

namespace Path

/-! ## Receipts to stand beside an entry -/

def hopField (name : String) (v : JsonVal) : List (JsString × Json) :=
  match v with
  | some v => [(js name, v)]
  | none => []

/-- A receipt of one hop with its two times. -/
def hop (prevHop thisHop : JsonVal) (receivedAt forwardedAt : JsNum) (ref : Nat) : Entry where
  receipt := .obj ((js "kind", .text "custody/1") :: hopField "prevHop" prevHop ++
    hopField "thisHop" thisHop ++
    [(js "receivedAt", .num receivedAt), (js "forwardedAt", .num forwardedAt)])
  proof := .null
  ref := ref

section Hop

variable (p q : JsonVal) (x y : JsNum) (n : Nat)

@[simp] theorem hop_ref : (hop p q x y n).ref = n := rfl

@[simp] theorem hop_prevHop : (hop p q x y n).prevHop = p := by
  cases p <;> cases q <;> rfl

@[simp] theorem hop_thisHop : (hop p q x y n).thisHop = q := by
  cases p <;> cases q <;> rfl

@[simp] theorem hop_start : (hop p q x y n).start = some (.num x) := by
  cases p <;> cases q <;> rfl

theorem hop_stop : (hop p q x y n).stop = some (.num y) := by
  cases p <;> cases q <;> rfl

theorem hop_claimed : claimedTimes (hop p q x y n).receipt (some (hop p q x y n).proof) =
    (some (.num x), some (.num y)) := by
  cases p <;> cases q <;> rfl

variable {p q x y n}

theorem hop_window {a b : Time} (ha : timeOf (some (.num x)) = some a)
    (hb : timeOf (some (.num y)) = some b) : windowOf (hop p q x y n).link = some (a, b) := by
  unfold windowOf
  rw [Entry.readLink_link]
  show (timeOf (claimedTimes (hop p q x y n).receipt (some (hop p q x y n).proof)).1 >>= _) = _
  rw [hop_claimed, ha]
  show (timeOf (some (.num y)) >>= _) = _
  rw [hb]
  rfl

theorem hop_windowD {a b : Time} (ha : timeOf (some (.num x)) = some a)
    (hb : timeOf (some (.num y)) = some b) : windowD (hop p q x y n).link = (a, b) :=
  windowOf_eq (hop_window ha hb)

theorem hop_readRight {H : Host} {a b : Time} (ha : timeOf (some (.num x)) = some a)
    (hb : timeOf (some (.num y)) = some b) : ReadRight H (hop p q x y n) := by
  refine readRight_of_eq (hop_window ha hb) ?_
  rw [hop_claimed, hop_start, hop_stop]

end Hop

/-! ## Nodes that an entry does not name -/

def nodeSize (v : JsonVal) : Nat :=
  match v with
  | some (.str s) => s.length
  | _ => 0

/-- The first or the second name that is longer than the two of an entry. -/
def elsewhere (e : Entry) (k : Nat) : JsonVal :=
  some (.str (List.replicate (nodeSize e.prevHop + nodeSize e.thisHop + 1 + k) 0))

theorem nodeSize_elsewhere (e : Entry) (k : Nat) :
    nodeSize (elsewhere e k) = nodeSize e.prevHop + nodeSize e.thisHop + 1 + k :=
  List.length_replicate

theorem elsewhere_self (e : Entry) (k : Nat) : JsonVal.strictEq (elsewhere e k) (elsewhere e k) = true :=
  beq_self_eq_true _

theorem elsewhere_ne_prevHop (e : Entry) (k : Nat) : elsewhere e k ≠ e.prevHop := by
  intro h
  have hsize := nodeSize_elsewhere e k
  rw [h] at hsize
  omega

theorem elsewhere_ne_thisHop (e : Entry) (k : Nat) : elsewhere e k ≠ e.thisHop := by
  intro h
  have hsize := nodeSize_elsewhere e k
  rw [h] at hsize
  omega

theorem elsewhere_ne (e : Entry) : elsewhere e 0 ≠ elsewhere e 1 := by
  intro h
  have hsize := nodeSize_elsewhere e 0
  rw [h, nodeSize_elsewhere] at hsize
  omega

/-! ## The lists of the first walk -/

theorem comesFrom_of_eq {node : JsonVal} {e : Entry} (hself : JsonVal.strictEq node node = true)
    (h : e.prevHop = node) : comesFrom node e = true :=
  comesFrom_iff.mpr ⟨h, key?_isSome hself⟩

theorem comesFrom_of_ne {node : JsonVal} {e : Entry} (h : e.prevHop ≠ node) :
    comesFrom node e = false := by
  rw [Bool.eq_false_iff, ne_eq, comesFrom_iff]
  exact fun hfrom => h hfrom.1

theorem inOrder_self (x : JsNum) : JsNum.inOrder x x = true := by
  cases x with
  | nan => rfl
  | inf m => cases m <;> rfl
  | fin q => simp [JsNum.inOrder, JsNum.sub, JsNum.neg, JsNum.add]

/-- Nothing is before minus infinity. -/
theorem inOrder_bot (x : JsNum) : JsNum.inOrder (.inf true) x = true := by
  cases x with
  | nan => rfl
  | inf m => cases m <;> rfl
  | fin q => rfl

theorem inOrder_nan (x : JsNum) : JsNum.inOrder .nan x = true := by
  cases x <;> rfl

variable {H : Host}

/-- Entries of which no two are out of order stay as they are. -/
theorem sortByStart_of_pairwise {num : Entry → JsNum} {list : List Entry}
    (hnum : ∀ e ∈ list, JsonVal.toNumber H.toNode e.start = .ok (num e))
    (hsorted : list.Pairwise fun x y => JsNum.inOrder (num x) (num y) = true) :
    sortByStart H list = .ok list := by
  have hkeyed : ∀ {list : List Entry},
      (∀ e ∈ list, JsonVal.toNumber H.toNode e.start = .ok (num e)) →
      list.mapM (fun e => do return (e, ← JsonVal.toNumber H.toNode e.start)) =
        Except.ok (ε := Err) (list.map fun e => (e, num e)) := by
    intro list
    induction list with
    | nil => intro _; rfl
    | cons e list ih =>
        intro h
        rw [List.forall_mem_cons] at h
        rw [List.mapM_cons, h.1, Outcome.ok_bind, Outcome.pure_eq_ok, Outcome.ok_bind, ih h.2]
        rfl
  unfold sortByStart sortBy
  split
  · rfl
  · rw [hkeyed hnum, Outcome.ok_bind]
    have hpair : (list.map fun e => (e, num e)).Pairwise fun x y => JsNum.inOrder x.2 y.2 = true :=
      List.pairwise_map.mpr hsorted
    rw [hpair.insertionSort_eq, List.map_map]
    exact congrArg Except.ok (List.map_id _)

/-- The entries that leave a node, once they are known to be in order. -/
theorem ByStart.leaving_eq {entries : List Entry} {byStart : ByPrev} (h : ByStart H entries byStart)
    {node : JsonVal} {list : List Entry} (hfilter : entries.filter (comesFrom node) = list)
    (hsorted : sortByStart H list = .ok list) : leaving byStart node = list := by
  have hleaving := h.2 node
  rw [hfilter, hsorted] at hleaving
  exact (Except.ok.inj hleaving).symm

theorem greedy_next {byPrev : ByPrev} {n : Nat} {out list : List Entry} {node : JsonVal}
    {next : Entry} (hlist : leaving byPrev node = list)
    (hnext : list.find? (fun e => !e.isIn out) = some next) :
    greedy byPrev (n + 1) out node = greedy byPrev n (out ++ [next]) next.thisHop := by
  rw [greedy, hlist, hnext]

/-- A walk that has used every entry ends. -/
theorem greedy_full {byPrev : ByPrev} {entries : List Entry} (h : Holds byPrev entries) (n : Nat)
    (node : JsonVal) : greedy byPrev n entries node = entries := by
  cases n with
  | zero => rfl
  | succ n =>
      have hnone : (leaving byPrev node).find? (fun e => !e.isIn entries) = none := by
        rw [List.find?_eq_none]
        intro e he
        have hin : e.isIn entries = true := isIn_iff.mpr (List.mem_map_of_mem (h.mem_iff.mp he).1)
        simp [hin]
      rw [greedy, hnone]

/-! ## Sets that one entry spoils -/

/-- Both nodes of the entry are equal to themselves, so that a route can lead there and on. -/
def Linkable (e : Entry) : Prop :=
  JsonVal.strictEq e.prevHop e.prevHop = true ∧ JsonVal.strictEq e.thisHop e.thisHop = true

/-- Some set fails though every other entry of it is read right. -/
def Spoils (H : Host) (e : Entry) : Prop :=
  ∃ entries source, Distinct entries ∧ (∀ e' ∈ entries, e' = e ∨ ReadRight H e') ∧
    ¬ Assembles H entries source

theorem assemble_of_assemblePath {entries r : List Entry} {source : JsonVal}
    (h : assemblePath H entries source = .ok r) :
    ∃ left, assemble H entries source = .ok (r, left) := by
  obtain ⟨⟨r', left⟩, hassemble, h⟩ := Outcome.bind_eq_ok.mp h
  cases h
  exact ⟨left, hassemble⟩

/-- A first walk that stands and is no route, though there is one. -/
theorem not_assembles_of_stands {entries ps : List Entry} {source : JsonVal}
    (hperm : ps.Perm entries) (hroute : IsRoute source ps)
    (hwalk : ∀ byStart, ByStart H entries byStart → firstWalk byStart entries source = entries)
    (hfeasible : feasible H (.inf true) entries = .ok true) (hwrong : ¬ IsRoute source entries) :
    ¬ Assembles H entries source := by
  have hresult : ∀ r left, assemble H entries source = .ok (r, left) →
      r = entries ∧ left = searchBudget := by
    intro r left h
    obtain ⟨byStart, hbyStart, ⟨_, hr, hleft⟩ | ⟨hstands, _⟩⟩ := assemble_cases h
    · exact ⟨hr.trans (hwalk byStart hbyStart), hleft⟩
    · rw [stands, hwalk byStart hbyStart, if_pos rfl, hfeasible] at hstands
      cases hstands
  intro h
  have hbudget : BudgetLasts H entries source := by
    intro r hr
    rw [(hresult r.1 r.2 hr).2]
    decide
  obtain ⟨r, hr, _, hrroute, _⟩ := h ps hperm hroute hbudget
  obtain ⟨left, hassemble⟩ := assemble_of_assemblePath hr
  rw [(hresult r left hassemble).1] at hrroute
  exact hwrong hrroute

/-- Every window is open, and closes after those before it open. -/
def Meet (reading : Entry → Time × Time) (ps : List Entry) : Prop :=
  (∀ e ∈ ps, (reading e).1 ≤ (reading e).2) ∧
    ps.Pairwise fun x y => (reading x).1 ≤ (reading y).2

theorem passes_iff_meet {reading : Entry → Time × Time} {ps : List Entry} :
    (Windows.passes ⊥ (ps.map reading)).isSome = true ↔ Meet reading ps := by
  rw [Windows.passes_bot_iff, List.forall_mem_map, List.pairwise_map]
  rfl

/-- Windows that are always open can be put anywhere. -/
theorem Meet.insert {reading : Entry → Time × Time} {l m r : List Entry}
    (h : Meet reading (l ++ r)) (hm : ∀ e ∈ m, reading e = (⊥, ⊤)) :
    Meet reading (l ++ m ++ r) := by
  obtain ⟨hopen, hpair⟩ := h
  rw [List.pairwise_append] at hpair
  obtain ⟨hl, hr, hlr⟩ := hpair
  have hwide : ∀ e ∈ m, (reading e).1 = ⊥ ∧ (reading e).2 = ⊤ := by
    intro e he
    rw [hm e he]
    exact ⟨rfl, rfl⟩
  refine ⟨fun e he => ?_, ?_⟩
  · rw [List.mem_append, List.mem_append] at he
    rcases he with (he | he) | he
    · exact hopen e (List.mem_append_left _ he)
    · rw [(hwide e he).1]
      exact bot_le
    · exact hopen e (List.mem_append_right _ he)
  · rw [List.pairwise_append, List.pairwise_append]
    refine ⟨⟨hl, ?_, fun x _ y hy => ?_⟩, hr, fun x hx y hy => ?_⟩
    · exact List.pairwise_of_forall_mem_list fun x hx y _ => by
        rw [(hwide x hx).1]
        exact bot_le
    · rw [(hwide y hy).2]
      exact le_top
    · rcases List.mem_append.mp hx with hx | hx
      · exact hlr x hx y hy
      · rw [(hwide x hx).1]
        exact bot_le

/-! ## The way back -/

/-- The way from where the entry leads to where it comes from, open at all times. -/
def back (e : Entry) : List Entry :=
  if JsonVal.strictEq e.thisHop e.prevHop then []
  else [hop e.thisHop e.prevHop (.inf true) (.inf false) (e.ref + 1)]

variable {e : Entry}

theorem mem_back {x : Entry} (h : x ∈ back e) :
    x = hop e.thisHop e.prevHop (.inf true) (.inf false) (e.ref + 1) := by
  unfold back at h
  split at h
  · cases h
  · exact List.mem_singleton.mp h

theorem windowOf_back {x : Entry} (h : x ∈ back e) : windowOf x.link = some (⊥, ⊤) := by
  rw [mem_back h]
  exact hop_window rfl rfl

theorem linked_back (he : Linkable e) {ps : List Entry} (h : Linked e.prevHop ps) :
    Linked e.thisHop (back e ++ ps) := by
  unfold back
  split
  · rename_i hsame
    rw [List.nil_append, JsonVal.eq_of_strictEq hsame]
    exact h
  · exact ⟨by rw [hop_prevHop]; exact he.2, by rw [hop_thisHop]; exact h⟩

theorem filter_back_of_ne {node : JsonVal} (h : e.thisHop ≠ node) :
    (back e).filter (comesFrom node) = [] := by
  rw [List.filter_eq_nil_iff]
  intro x hx
  rw [mem_back hx, comesFrom_of_ne (by rwa [hop_prevHop])]
  decide

theorem filter_back_prevHop (he : Linkable e) : (back e).filter (comesFrom e.prevHop) = [] := by
  unfold back
  split
  · rfl
  · rename_i hne
    have hhops : e.thisHop ≠ e.prevHop := by
      intro heq
      rw [heq] at hne
      exact hne he.1
    rw [List.filter_cons_of_neg]
    · rfl
    · rw [comesFrom_of_ne (by rwa [hop_prevHop])]
      decide

/-- A walk behind the entry goes the way back. -/
theorem greedy_back (he : Linkable e) {entries : List Entry} {byStart : ByPrev}
    (h : ByStart H entries byStart)
    (hfilter : e.thisHop ≠ e.prevHop → entries.filter (comesFrom e.thisHop) = back e)
    {out : List Entry} (hout : e.ref + 1 ∉ out.map Entry.ref) (n : Nat) :
    greedy byStart (n + (back e).length) out e.thisHop =
      greedy byStart n (out ++ back e) e.prevHop := by
  cases hsame : JsonVal.strictEq e.thisHop e.prevHop with
  | true =>
      have hback : back e = [] := by rw [back, if_pos hsame]
      rw [hback, List.append_nil, JsonVal.eq_of_strictEq hsame]
      rfl
  | false =>
      have hback : back e = [hop e.thisHop e.prevHop (.inf true) (.inf false) (e.ref + 1)] := by
        rw [back, if_neg (by rw [hsame]; decide)]
      have hhops : e.thisHop ≠ e.prevHop := by
        intro heq
        rw [heq, he.1] at hsame
        cases hsame
      have hfree : (hop e.thisHop e.prevHop (.inf true) (.inf false) (e.ref + 1)).isIn out = false := by
        rw [Bool.eq_false_iff, ne_eq, isIn_iff]
        exact hout
      have hlist := h.leaving_eq (hfilter hhops) (by rw [hback]; rfl)
      have hnext : (back e).find? (fun x => !x.isIn out) =
          some (hop e.thisHop e.prevHop (.inf true) (.inf false) (e.ref + 1)) := by
        rw [hback, List.find?_cons_of_pos (by rw [hfree]; rfl)]
      rw [hback] at hlist hnext ⊢
      rw [List.length_singleton, greedy_next hlist hnext, hop_thisHop]

theorem filter_back_thisHop (he : Linkable e) :
    (back e).filter (comesFrom e.thisHop) = back e := by
  rw [List.filter_eq_self]
  intro x hx
  rw [mem_back hx]
  exact comesFrom_of_eq he.2 (hop_prevHop _ _ _ _ _)

theorem exists_num (a : Time) : ∃ x, timeOf (some (.num x)) = some a := by
  induction a using WithBot.recBotCoe with
  | bot => exact ⟨.inf true, rfl⟩
  | coe a =>
      induction a using WithTop.recTopCoe with
      | top => exact ⟨.inf false, rfl⟩
      | coe q => exact ⟨.fin q, rfl⟩

/-- The windows that are read, of one entry among others that are read right. -/
def readingOf (e : Entry) (w : Time × Time) (x : Entry) : Time × Time :=
  if x.ref = e.ref then w else windowD x.link

theorem readingOf_self (w : Time × Time) : readingOf e w e = w := if_pos rfl

theorem readingOf_hop {p q : JsonVal} {x y : JsNum} {n : Nat} {a b : Time} (hn : n ≠ e.ref)
    (ha : timeOf (some (.num x)) = some a) (hb : timeOf (some (.num y)) = some b)
    (w : Time × Time) : readingOf e w (hop p q x y n) = (a, b) := by
  rw [readingOf, if_neg (by rwa [hop_ref]), hop_windowD ha hb]

theorem reads_hop {p q : JsonVal} {x y : JsNum} {n : Nat} {a b : Time} (hn : n ≠ e.ref)
    (ha : timeOf (some (.num x)) = some a) (hb : timeOf (some (.num y)) = some b)
    (w : Time × Time) : Reads H (hop p q x y n) (readingOf e w (hop p q x y n)) := by
  obtain ⟨w', hw', hreads⟩ := @hop_readRight p q x y n H a b ha hb
  rw [readingOf_hop hn ha hb]
  rw [hop_window ha hb] at hw'
  cases hw'
  exact hreads

theorem back_reading {x : Entry} (h : x ∈ back e) (w : Time × Time) :
    readingOf e w x = (⊥, ⊤) := by
  rw [mem_back h]
  exact readingOf_hop (Nat.succ_ne_self _) rfl rfl w

theorem reads_back {x : Entry} (h : x ∈ back e) (w : Time × Time) :
    Reads H x (readingOf e w x) := by
  rw [mem_back h]
  exact reads_hop (Nat.succ_ne_self _) rfl rfl w

theorem feasible_of_meet {reading : Entry → Time × Time} {es : List Entry}
    (hreads : ∀ x ∈ es, Reads H x (reading x)) (h : Meet reading es) :
    feasible H (.inf true) es = .ok true := by
  rw [feasible_eq hreads (c := ⊥) rfl, passes_iff_meet.mpr h]

/-- A set that the first walk lists as it stands, and that is a route in another order only. -/
theorem spoils_of_walk {entries ps : List Entry} {w : Time × Time}
    (hw : windowOf e.link = some w) (hdistinct : Distinct entries)
    (hright : ∀ x ∈ entries, x = e ∨ ReadRight H x) (hperm : ps.Perm entries) (hmem : e ∈ ps)
    (hlinked : Linked e.prevHop ps) (hmeet : Meet (fun x => windowD x.link) ps)
    (hwalk : ∀ byStart, ByStart H entries byStart →
      firstWalk byStart entries e.prevHop = entries)
    (hfeasible : feasible H (.inf true) entries = .ok true)
    (hwrong : ¬ Meet (fun x => windowD x.link) entries) : Spoils H e := by
  refine ⟨entries, e.prevHop, hdistinct, hright, not_assembles_of_stands hperm ?_ hwalk hfeasible ?_⟩
  · refine isRoute_iff.mpr ⟨List.ne_nil_of_mem hmem, fun x hx => ?_, hlinked, passes_iff_meet.mpr hmeet⟩
    rcases hright x (hperm.mem_iff.mp hx) with rfl | ⟨w', hw', _⟩
    · exact ⟨w, hw⟩
    · exact ⟨w', hw'⟩
  · exact fun hroute => hwrong (passes_iff_meet.mp (isRoute_iff.mp hroute).2.2.2)

/-! ## Closing late -/

/-- The first half of a loop, which is open at all times. -/
abbrev away (e : Entry) : Entry := hop e.prevHop (elsewhere e 0) (.inf true) (.inf false) (e.ref + 2)

/-- Its second half, which is open at one time. -/
abbrev home (e : Entry) (x : JsNum) : Entry := hop (elsewhere e 0) e.prevHop x x (e.ref + 3)

/-- The entry behind a loop that ends at the time. -/
def lateSet (e : Entry) (x : JsNum) : List Entry := [away e, home e x] ++ ([e] ++ back e)

theorem firstWalk_lateSet (he : Linkable e) {x s : JsNum}
    (hs : JsonVal.toNumber H.toNode e.start = .ok s) {byStart : ByPrev}
    (h : ByStart H (lateSet e x) byStart) :
    firstWalk byStart (lateSet e x) e.prevHop = lateSet e x := by
  have hP := elsewhere_ne_prevHop e 0
  have hQ := elsewhere_ne_thisHop e 0
  have hprev : leaving byStart e.prevHop = [away e, e] := by
    refine h.leaving_eq ?_ (@sortByStart_of_pairwise H
      (fun y => if y.ref = e.ref then s else .inf true) _ ?_ ?_)
    · simp [lateSet, filter_back_prevHop he, comesFrom_of_eq he.1, comesFrom_of_ne, hP]
    · simp [hs]
      rfl
    · simp [inOrder_bot]
  have hmiddle : leaving byStart (elsewhere e 0) = [home e x] := by
    refine h.leaving_eq ?_ rfl
    simp [lateSet, filter_back_of_ne (Ne.symm hQ), comesFrom_of_eq (elsewhere_self e 0),
      comesFrom_of_ne, Ne.symm hP]
  have hfilter : e.thisHop ≠ e.prevHop →
      (lateSet e x).filter (comesFrom e.thisHop) = back e := by
    intro hne
    simp [lateSet, filter_back_thisHop he, comesFrom_of_ne, Ne.symm hne, hQ]
  have hlength : (lateSet e x).length + 1 = 1 + (back e).length + 1 + 1 + 1 := by
    simp [lateSet]
    omega
  have hfirst : [away e, e].find? (fun y => !y.isIn []) = some (away e) := by
    simp [Entry.isIn]
  have hsecond : [home e x].find? (fun y => !y.isIn ([] ++ [away e])) = some (home e x) := by
    simp [Entry.isIn]
  have hthird : [away e, e].find? (fun y => !y.isIn ([] ++ [away e] ++ [home e x])) = some e := by
    simp [Entry.isIn]
  have hback : e.ref + 1 ∉ ([] ++ [away e] ++ [home e x] ++ [e]).map Entry.ref := by simp
  unfold firstWalk
  rw [hlength, greedy_next hprev hfirst, hop_thisHop, greedy_next hmiddle hsecond, hop_thisHop,
    greedy_next hprev hthird, greedy_back he h hfilter hback]
  exact greedy_full h.1 1 e.prevHop

/-- **An entry that is read as closing late.** -/
theorem spoils_late (he : Linkable e) {w w' : Time × Time} (hw : windowOf e.link = some w)
    (hopen : w.1 ≤ w.2) (hreads : Reads H e w') (hopen' : w'.1 ≤ w'.2) (hlate : w.2 < w'.2) :
    Spoils H e := by
  obtain ⟨x, hx⟩ := exists_num w'.2
  obtain ⟨s, hs⟩ := reads_start hreads
  have hwindow : windowD e.link = w := windowOf_eq hw
  have haway : windowD (away e).link = (⊥, ⊤) := hop_windowD rfl rfl
  have hhome : windowD (home e x).link = (w'.2, w'.2) := hop_windowD hx hx
  have hbackwindow : ∀ y ∈ back e, windowD y.link = (⊥, ⊤) :=
    fun y hy => windowOf_eq (windowOf_back hy)
  have hthree : e.ref + 3 ≠ e.ref := by omega
  have htwo : e.ref + 2 ≠ e.ref := by omega
  refine @spoils_of_walk H e (lateSet e x) (([e] ++ back e) ++ [away e, home e x]) w hw ?_ ?_
    List.perm_append_comm (by simp) ⟨he.1, linked_back he ?_⟩ (Meet.insert ?_ hbackwindow)
    (fun byStart h => firstWalk_lateSet he hs h) (@feasible_of_meet H (readingOf e w') _ ?_ ?_) ?_
  · unfold lateSet back
    split <;> simp [Distinct]
  · simp only [lateSet, List.mem_append, List.mem_cons, List.not_mem_nil, or_false]
    rintro y ((rfl | rfl) | (rfl | hy))
    · exact Or.inr (hop_readRight rfl rfl)
    · exact Or.inr (hop_readRight hx hx)
    · exact Or.inl rfl
    · rw [mem_back hy]
      exact Or.inr (hop_readRight rfl rfl)
  · simp [Linked, he.1, elsewhere_self]
  · -- the entry first, and the loop behind it
    simp [Meet, hwindow, haway, hhome, hopen, hopen.trans hlate.le]
  · simp only [lateSet, List.mem_append, List.mem_cons, List.not_mem_nil, or_false]
    rintro y ((rfl | rfl) | (rfl | hy))
    · exact reads_hop htwo rfl rfl w'
    · exact reads_hop hthree hx hx w'
    · rwa [readingOf_self]
    · exact reads_back hy w'
  · rw [lateSet, ← List.append_assoc, ← List.append_nil ([away e, home e x] ++ [e] ++ back e)]
    refine Meet.insert ?_ fun y hy => back_reading hy w'
    have hawayread : readingOf e w' (away e) = (⊥, ⊤) := readingOf_hop htwo rfl rfl w'
    simp [Meet, readingOf_self, hawayread, readingOf_hop hthree hx hx, hopen']
  · -- the entry closes before the loop behind which it stands
    intro hmeet
    have hbefore := hmeet.2
    simp [lateSet, hwindow, hhome, not_le.mpr hlate] at hbefore

/-! ## Opening early -/

/-- A loop at the node the entry comes from, open at one time. -/
abbrev loop (e : Entry) (x : JsNum) : Entry := hop e.prevHop e.prevHop x x (e.ref + 4)

/-- The entry before the loop. -/
def earlySet (e : Entry) (x : JsNum) : List Entry := ([e] ++ back e) ++ [loop e x]

theorem firstWalk_earlySet (he : Linkable e) {x : JsNum}
    (hx : JsonVal.toNumber H.toNode e.start = .ok x) {byStart : ByPrev}
    (h : ByStart H (earlySet e x) byStart) :
    firstWalk byStart (earlySet e x) e.prevHop = earlySet e x := by
  have hprev : leaving byStart e.prevHop = [e, loop e x] := by
    refine h.leaving_eq ?_ (@sortByStart_of_pairwise H (fun _ => x) _ ?_ ?_)
    · simp [earlySet, filter_back_prevHop he, comesFrom_of_eq he.1]
    · simp [hx]
      rfl
    · simp [inOrder_self]
  have hfilter : e.thisHop ≠ e.prevHop →
      (earlySet e x).filter (comesFrom e.thisHop) = back e := by
    intro hne
    simp [earlySet, filter_back_thisHop he, comesFrom_of_ne, Ne.symm hne]
  have hlength : (earlySet e x).length + 1 = 1 + 1 + (back e).length + 1 := by
    simp [earlySet]
    omega
  have hfirst : [e, loop e x].find? (fun y => !y.isIn []) = some e := by
    simp [Entry.isIn]
  have hback : e.ref + 1 ∉ ([] ++ [e]).map Entry.ref := by simp
  have hsecond : [e, loop e x].find? (fun y => !y.isIn ([] ++ [e] ++ back e)) = some (loop e x) := by
    unfold back
    split <;> simp [Entry.isIn]
  unfold firstWalk
  rw [hlength, greedy_next hprev hfirst, greedy_back he h hfilter hback, greedy_next hprev hsecond]
  exact greedy_full h.1 1 _

/-- **An entry that is read as opening early.** -/
theorem spoils_early (he : Linkable e) {w w' : Time × Time} (hw : windowOf e.link = some w)
    (hopen : w.1 ≤ w.2) (hreads : Reads H e w') (hopen' : w'.1 ≤ w'.2) (hearly : w'.1 < w.1) :
    Spoils H e := by
  have hread := hreads
  obtain ⟨x, _, hstart, _, hx, _⟩ := hreads
  have hwindow : windowD e.link = w := windowOf_eq hw
  have hloop : windowD (loop e x).link = (w'.1, w'.1) := hop_windowD hx hx
  have hbackwindow : ∀ y ∈ back e, windowD y.link = (⊥, ⊤) :=
    fun y hy => windowOf_eq (windowOf_back hy)
  have hfour : e.ref + 4 ≠ e.ref := by omega
  refine @spoils_of_walk H e (earlySet e x) ([loop e x] ++ ([e] ++ back e)) w hw ?_ ?_
    List.perm_append_comm (by simp) ?_ ?_ (fun byStart h => firstWalk_earlySet he hstart h)
    (@feasible_of_meet H (readingOf e w') _ ?_ ?_) ?_
  · unfold earlySet back
    split <;> simp [Distinct]
  · simp only [earlySet, List.mem_append, List.mem_cons, List.not_mem_nil, or_false]
    rintro y ((rfl | hy) | rfl)
    · exact Or.inl rfl
    · rw [mem_back hy]
      exact Or.inr (hop_readRight rfl rfl)
    · exact Or.inr (hop_readRight hx hx)
  · have hend : Linked e.thisHop (back e) := by
      have hlinked := @linked_back e he [] trivial
      rwa [List.append_nil] at hlinked
    simpa [Linked, he.1] using hend
  · rw [← List.append_assoc, ← List.append_nil ([loop e x] ++ [e] ++ back e)]
    refine Meet.insert ?_ hbackwindow
    simp [Meet, hwindow, hloop, hopen, hearly.le.trans hopen]
  · simp only [earlySet, List.mem_append, List.mem_cons, List.not_mem_nil, or_false]
    rintro y ((rfl | hy) | rfl)
    · rwa [readingOf_self]
    · exact reads_back hy w'
    · exact reads_hop hfour hx hx w'
  · refine Meet.insert ?_ fun y hy => back_reading hy w'
    simp [Meet, readingOf_self, readingOf_hop hfour hx hx, hopen']
  · -- the loop closes before the entry opens that stands before it
    intro hmeet
    have hbefore := (List.pairwise_append.mp hmeet.2).2.2 e (by simp) (loop e x) (by simp)
    dsimp only at hbefore
    rw [hwindow, hloop] at hbefore
    exact absurd hbefore (not_le.mpr hearly)

/-! ## Opening at no number -/

/-- The entry, a loop that ends at the end of time, and one that is open at its beginning. -/
def nanSet (e : Entry) : List Entry :=
  ([e] ++ back e ++ [away e, home e (.inf false)]) ++ [loop e (.inf true)]

theorem firstWalk_nanSet (he : Linkable e) (hnan : JsonVal.toNumber H.toNode e.start = .ok .nan)
    {byStart : ByPrev} (h : ByStart H (nanSet e) byStart) :
    firstWalk byStart (nanSet e) e.prevHop = nanSet e := by
  have hP := elsewhere_ne_prevHop e 0
  have hQ := elsewhere_ne_thisHop e 0
  have hprev : leaving byStart e.prevHop = [e, away e, loop e (.inf true)] := by
    refine h.leaving_eq ?_ (@sortByStart_of_pairwise H
      (fun y => if y.ref = e.ref then .nan else .inf true) _ ?_ ?_)
    · simp [nanSet, filter_back_prevHop he, comesFrom_of_eq he.1, comesFrom_of_ne, hP]
    · simp [hnan]
      rfl
    · simp [inOrder_nan, inOrder_bot]
  have hmiddle : leaving byStart (elsewhere e 0) = [home e (.inf false)] := by
    refine h.leaving_eq ?_ rfl
    simp [nanSet, filter_back_of_ne (Ne.symm hQ), comesFrom_of_eq (elsewhere_self e 0),
      comesFrom_of_ne, Ne.symm hP]
  have hfilter : e.thisHop ≠ e.prevHop → (nanSet e).filter (comesFrom e.thisHop) = back e := by
    intro hne
    simp [nanSet, filter_back_thisHop he, comesFrom_of_ne, Ne.symm hne, hQ]
  have hlength : (nanSet e).length + 1 = 1 + 1 + 1 + 1 + (back e).length + 1 := by
    simp [nanSet]
    omega
  have hfirst : [e, away e, loop e (.inf true)].find? (fun y => !y.isIn []) = some e := by
    simp [Entry.isIn]
  have hback : e.ref + 1 ∉ ([] ++ [e]).map Entry.ref := by simp
  have hsecond : [e, away e, loop e (.inf true)].find? (fun y => !y.isIn ([] ++ [e] ++ back e)) =
      some (away e) := by
    unfold back
    split <;> simp [Entry.isIn]
  have hthird : [home e (.inf false)].find?
      (fun y => !y.isIn ([] ++ [e] ++ back e ++ [away e])) = some (home e (.inf false)) := by
    unfold back
    split <;> simp [Entry.isIn]
  have hfourth : [e, away e, loop e (.inf true)].find?
      (fun y => !y.isIn ([] ++ [e] ++ back e ++ [away e] ++ [home e (.inf false)])) =
        some (loop e (.inf true)) := by
    unfold back
    split <;> simp [Entry.isIn]
  unfold firstWalk
  rw [hlength, greedy_next hprev hfirst, greedy_back he h hfilter hback, greedy_next hprev hsecond,
    hop_thisHop, greedy_next hmiddle hthird, hop_thisHop, greedy_next hprev hfourth]
  have hall : [] ++ [e] ++ back e ++ [away e] ++ [home e (.inf false)] ++ [loop e (.inf true)] =
      nanSet e := by
    simp [nanSet]
  rw [hall]
  exact greedy_full h.1 1 _

/-- From no number on, every entry fits. -/
theorem fits_nan {x : Entry} {s t : JsNum} {cur : JsNum}
    (hs : JsonVal.toNumber H.toNode x.start = .ok s) (ht : JsonVal.toNumber H.toNode x.stop = .ok t)
    (h : cur = .nan ∨ s = .nan) : fits H cur x = .ok (some .nan) := by
  have hlarger : cur.larger s = .nan := by
    rcases h with rfl | rfl
    · rfl
    · cases cur <;> rfl
  unfold fits
  rw [hs, Outcome.ok_bind, hlarger]
  dsimp only
  rw [lt_num ht]
  cases t <;> rfl

theorem feasible_nan {es : List Entry} (h : ∀ x ∈ es, ∃ w, Reads H x w) :
    feasible H .nan es = .ok true := by
  induction es with
  | nil => rfl
  | cons x es ih =>
      rw [List.forall_mem_cons] at h
      obtain ⟨w, hreads⟩ := h.1
      obtain ⟨s, hs⟩ := reads_start hreads
      obtain ⟨t, ht⟩ := reads_stop hreads
      rw [feasible, fits_nan hs ht (Or.inl rfl), Outcome.ok_bind]
      exact ih h.2

/-- **An entry that is read as opening at no number.** -/
theorem spoils_nan (he : Linkable e) {w : Time × Time} (hw : windowOf e.link = some w)
    (hopen : w.1 ≤ w.2) (hnan : JsonVal.toNumber H.toNode e.start = .ok .nan) {t : JsNum}
    (hstop : JsonVal.toNumber H.toNode e.stop = .ok t) : Spoils H e := by
  have hwindow : windowD e.link = w := windowOf_eq hw
  have haway : windowD (away e).link = (⊥, ⊤) := hop_windowD rfl rfl
  have hhome : windowD (home e (.inf false)).link = (⊤, ⊤) := hop_windowD rfl rfl
  have hloop : windowD (loop e (.inf true)).link = (⊥, ⊥) := hop_windowD rfl rfl
  have hbackwindow : ∀ y ∈ back e, windowD y.link = (⊥, ⊤) :=
    fun y hy => windowOf_eq (windowOf_back hy)
  have hright : ∀ y ∈ back e ++ [away e, home e (.inf false)] ++ [loop e (.inf true)],
      ReadRight H y := by
    simp only [List.mem_append, List.mem_cons, List.not_mem_nil, or_false]
    rintro y ((hy | (rfl | rfl)) | rfl)
    · rw [mem_back hy]
      exact hop_readRight rfl rfl
    · exact hop_readRight rfl rfl
    · exact hop_readRight rfl rfl
    · exact hop_readRight rfl rfl
  refine @spoils_of_walk H e (nanSet e)
    ([loop e (.inf true)] ++ ([e] ++ back e ++ [away e, home e (.inf false)])) w hw ?_ ?_
    List.perm_append_comm (by simp) ⟨?_, ?_, linked_back he ?_⟩ ?_
    (fun byStart h => firstWalk_nanSet he hnan h) ?_ ?_
  · unfold nanSet back
    split <;> simp [Distinct]
  · have hall : nanSet e =
        e :: (back e ++ [away e, home e (.inf false)] ++ [loop e (.inf true)]) := rfl
    rw [hall, List.forall_mem_cons]
    exact ⟨Or.inl rfl, fun y hy => Or.inr (hright y hy)⟩
  · rw [hop_prevHop]
    exact he.1
  · rw [hop_thisHop]
    exact he.1
  · simp [Linked, he.1, elsewhere_self]
  · have hmeet := @Meet.insert (fun y => windowD y.link) [loop e (.inf true), e] (back e)
      [away e, home e (.inf false)] (by simp [Meet, hwindow, haway, hhome, hloop, hopen]) hbackwindow
    exact hmeet
  · show feasible H (.inf true)
      (e :: (back e ++ [away e, home e (.inf false)] ++ [loop e (.inf true)])) = _
    rw [feasible, fits_nan hnan hstop (Or.inr rfl), Outcome.ok_bind]
    refine feasible_nan fun y hy => ?_
    obtain ⟨w', _, hreads⟩ := hright y hy
    exact ⟨w', hreads⟩
  · -- the loop at the beginning of time stands behind the end of time
    intro hmeet
    have hbefore := (List.pairwise_append.mp hmeet.2).2.2 (home e (.inf false)) (by simp)
      (loop e (.inf true)) (by simp)
    dsimp only at hbefore
    rw [hhome, hloop] at hbefore
    exact absurd hbefore (by decide)

end Path

end DtnCustody
