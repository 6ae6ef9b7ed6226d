/-
# DtnCustody.Agent.Assemble — `agent/lib/path.mjs` (`assemblePath`): hop records in route order.

The entries are sorted into lists by the node they come from. A first walk takes the earliest start
at every node. Where it does not use every entry, or its times do not rise, a search tries the
entries whose windows close first; the first walk stands when the search ends empty.

`assemblePath` is told what `assemble` finds; `assemble` also keeps what the search left of its
budget. The times are read from the entries as they stand, so coercing one of them can throw.
-/
import DtnCustody.Agent.Pinned
import DtnCustody.Base.Backtrack
import Mathlib.Data.List.Sort

namespace DtnCustody

open Base Js

namespace Path

namespace Entry

/-- `e.proof?.t ?? e.receipt.from ?? e.receipt.receivedAt`. -/
def start (e : Entry) : JsonVal :=
  JsonVal.orElse (JsonVal.orElse (JsonVal.get? (some e.proof) "t") (e.receipt.get "from"))
    (e.receipt.get "receivedAt")

/-- `e.proof?.t ?? e.receipt.to ?? e.receipt.forwardedAt ?? start(e)`. -/
def stop (e : Entry) : JsonVal :=
  JsonVal.orElse (JsonVal.orElse (JsonVal.orElse (JsonVal.get? (some e.proof) "t")
    (e.receipt.get "to")) (e.receipt.get "forwardedAt")) e.start

/-- Whether the entry, as an object, is one of a list. -/
def isIn (e : Entry) (es : List Entry) : Bool := es.any fun x => x.ref == e.ref

end Entry

/-! ## The lists of entries, by the node they come from -/

abbrev ByPrev := JsMap Prim (List Entry)

/-- `byPrev.get(node) || []`: an array or object is never found again. -/
def leaving (byPrev : ByPrev) (node : JsonVal) : List Entry :=
  ((JsonVal.key? node).bind byPrev.get?).getD []

def push (byPrev : ByPrev) (prevHop : JsonVal) (e : Entry) : ByPrev :=
  match JsonVal.key? prevHop with
  | some k => byPrev.set k (leaving byPrev prevHop ++ [e])
  | none => byPrev

def collect (entries : List Entry) : Outcome ByPrev :=
  entries.foldlM (fun byPrev e => do
    return push byPrev (← JsonVal.get (some e.receipt) "prevHop") e) JsMap.empty

/-- `list.sort(compare)`, where comparing reads `key` of both sides. A list of one is not compared,
and in any other list every entry is. -/
def sortBy {κ : Type} (key : Entry → Outcome κ) (inOrder : κ → κ → Bool) (list : List Entry) :
    Outcome (List Entry) :=
  if list.length ≤ 1 then .ok list
  else do
    let keyed ← list.mapM fun e => do return (e, ← key e)
    return (keyed.insertionSort fun x y => inOrder x.2 y.2).map Prod.fst

variable (H : Host)

/-- `(x, y) => start(x) - start(y)`. -/
def sortByStart : List Entry → Outcome (List Entry) :=
  sortBy (fun e => JsonVal.toNumber H.toNode e.start) JsNum.inOrder

/-- `end(x) - end(y) || start(x) - start(y)`, on the numbers that `end` and `start` give. -/
def closesFirst (x y : JsNum × JsNum) : Bool :=
  if x.1.sub y.1 = .fin 0 ∨ x.1.sub y.1 = .nan then JsNum.inOrder x.2 y.2
  else JsNum.inOrder x.1 y.1

def sortByStop : List Entry → Outcome (List Entry) :=
  sortBy (fun e => do
    return (← JsonVal.toNumber H.toNode e.stop, ← JsonVal.toNumber H.toNode e.start)) closesFirst

/-! ## The earliest-start walk -/

/-- The loop, which ends before `out` is longer than the entries are many. -/
def greedy (byPrev : ByPrev) : Nat → List Entry → JsonVal → List Entry
  | 0, out, _ => out
  | n + 1, out, node =>
      match (leaving byPrev node).find? fun e => !e.isIn out with
      | none => out
      | some next => greedy byPrev n (out ++ [next]) next.thisHop

/-- `Math.max(cur, start(e))`, unless it is past `end(e)`. -/
def fits (cur : JsNum) (e : Entry) : Outcome (Option JsNum) := do
  let t := cur.larger (← JsonVal.toNumber H.toNode e.start)
  if (← JsonVal.lt H.toNode e.stop (some (.num t))) then return none else return some t

def feasible : JsNum → List Entry → Outcome Bool
  | _, [] => .ok true
  | cur, e :: rest => do
      match ← fits H cur e with
      | none => return false
      | some t => feasible t rest

/-- `out.length === entries.length && feasible(out)`. -/
def stands (entries out : List Entry) : Outcome Bool :=
  if out.length = entries.length then feasible H (.inf true) out else .ok false

/-! ## The search -/

/-- Where the search is: the node, the earliest time there, and the walk to it. -/
structure Place where
  node : JsonVal
  cur : JsNum
  walk : List Entry

/-- One turn of the loop in `dfs`, up to the call of `dfs`. -/
def step (s : Place) (e : Entry) : Outcome (Option Place) :=
  if e.isIn s.walk then .ok none
  else do
    match ← fits H s.cur e with
    | none => return none
    | some t => return some { node := e.thisHop, cur := t, walk := s.walk ++ [e] }

def searchBudget : Int := 200000

/-- `dfs(source, -Infinity)`: the walk is as long as the entries are many when each is in it. -/
def dfs (byPrev : ByPrev) (entries : List Entry) (source : JsonVal) :
    Outcome (Option Place × Int) :=
  Backtrack.search (fun s => leaving byPrev s.node) (step H) entries.length
    { node := source, cur := .inf true, walk := [] } searchBudget

/-- The route that is returned, and what is left of the budget. -/
def assemble (entries : List Entry) (source : JsonVal) : Outcome (List Entry × Int) := do
  let byPrev ← collect entries
  let byStart ← byPrev.updateAll (sortByStart H)
  let out := greedy byStart (entries.length + 1) [] source
  if (← stands H entries out) then return (out, searchBudget)
  else do
    let byStop ← byStart.updateAll (sortByStop H)
    match ← dfs H byStop entries source with
    | (some s, left) => return (s.walk, left)
    | (none, left) => return (out, left)

def assemblePath (entries : List Entry) (source : JsonVal) : Outcome (List Entry) := do
  return (← assemble H entries source).1

/-- The budget of the search does not run out. -/
def BudgetLasts (entries : List Entry) (source : JsonVal) : Prop :=
  ∀ r, assemble H entries source = .ok r → 0 ≤ r.2

/-! ## What the lists hold -/

/-- The entry comes from the node, as a `Map` compares. -/
def comesFrom (node : JsonVal) (e : Entry) : Bool :=
  (JsonVal.key? node).isSome && JsonVal.key? e.prevHop == JsonVal.key? node

theorem leaving_empty (node : JsonVal) : leaving JsMap.empty node = [] := by
  unfold leaving
  cases JsonVal.key? node <;> rfl

theorem leaving_push (byPrev : ByPrev) (e : Entry) (node : JsonVal) :
    leaving (push byPrev e.prevHop e) node =
      leaving byPrev node ++ if comesFrom node e then [e] else [] := by
  unfold push comesFrom
  cases hk : JsonVal.key? e.prevHop with
  | none =>
      dsimp only
      cases hn : JsonVal.key? node with
      | none => simp
      | some n => simp
  | some k =>
      dsimp only
      cases hn : JsonVal.key? node with
      | none =>
          simp only [leaving, hn]
          rfl
      | some n =>
          by_cases h : n = k
          · subst h
            simp [leaving, hn, hk]
          · simp [leaving, hn, JsMap.get?_set_ne _ h, Ne.symm h]

/-- **The entries from a node**, in the order they were given. -/
theorem leaving_collect {entries : List Entry} {byPrev : ByPrev}
    (h : collect entries = .ok byPrev) (node : JsonVal) :
    leaving byPrev node = entries.filter (comesFrom node) := by
  have hfold : ∀ {entries : List Entry} {m m' : ByPrev},
      entries.foldlM (fun byPrev e => do
        return push byPrev (← JsonVal.get (some e.receipt) "prevHop") e) m = Except.ok (ε := Err) m' →
      leaving m' node = leaving m node ++ entries.filter (comesFrom node) := by
    intro entries
    induction entries with
    | nil => intro m m' h; cases h; rw [List.filter_nil, List.append_nil]
    | cons e entries ih =>
        intro m m' h
        rw [List.foldlM_cons] at h
        obtain ⟨m'', hstep, h⟩ := Outcome.bind_eq_ok.mp h
        obtain ⟨prevHop, hprev, hpush⟩ := Outcome.bind_eq_ok.mp hstep
        cases hpush
        have hprev' : prevHop = e.prevHop := by
          unfold JsonVal.get at hprev
          split at hprev
          · cases hprev
          · cases hprev
          · rename_i v hv
            cases hprev
            cases hv
            rfl
        rw [ih h, hprev', leaving_push, List.filter_cons, List.append_assoc]
        split <;> rfl
  rw [hfold h, leaving_empty, List.nil_append]

/-- Every list is of entries that were given. -/
theorem mem_of_collect {entries : List Entry} {byPrev : ByPrev} (h : collect entries = .ok byPrev)
    {k : Prim} {list : List Entry} (hk : byPrev.get? k = some list) : ∀ e ∈ list, e ∈ entries := by
  have hfold : ∀ {entries : List Entry} {m m' : ByPrev} {all : List Entry},
      entries.foldlM (fun byPrev e => do
        return push byPrev (← JsonVal.get (some e.receipt) "prevHop") e) m = Except.ok (ε := Err) m' →
      (∀ e ∈ entries, e ∈ all) → (∀ k list, m.get? k = some list → ∀ e ∈ list, e ∈ all) →
      ∀ k list, m'.get? k = some list → ∀ e ∈ list, e ∈ all := by
    intro entries
    induction entries with
    | nil => intro m m' all h _ hm; cases h; exact hm
    | cons e entries ih =>
        intro m m' all h hall hm
        rw [List.forall_mem_cons] at hall
        rw [List.foldlM_cons] at h
        obtain ⟨m'', hstep, h⟩ := Outcome.bind_eq_ok.mp h
        obtain ⟨prevHop, _, hpush⟩ := Outcome.bind_eq_ok.mp hstep
        cases hpush
        refine ih h hall.2 fun k list hk x hx => ?_
        unfold push leaving at hk
        cases hprev : JsonVal.key? prevHop with
        | none =>
            rw [hprev] at hk
            exact hm k list hk x hx
        | some k' =>
            rw [hprev] at hk
            dsimp only [Option.bind_some] at hk
            by_cases hkk : k = k'
            · rw [hkk, JsMap.get?_set_self] at hk
              cases hk
              rcases List.mem_append.mp hx with hx | hx
              · cases hold : m.get? k' with
                | none =>
                    rw [hold] at hx
                    cases hx
                | some old =>
                    rw [hold] at hx
                    exact hm k' old hold x hx
              · rw [List.mem_singleton.mp hx]
                exact hall.1
            · rw [JsMap.get?_set_ne _ hkk] at hk
              exact hm k list hk x hx
  refine hfold h (fun e he => he) (fun k list hk => ?_) k list hk
  rw [JsMap.get?_empty] at hk
  cases hk

/-- A receipt that is not `null` has a `prevHop` to read, be it `undefined`. -/
theorem collect_returns {entries : List Entry} (h : ∀ e ∈ entries, e.receipt.isNull = false) :
    ∃ byPrev, collect entries = .ok byPrev := by
  have hfold : ∀ {entries : List Entry} {m : ByPrev}, (∀ e ∈ entries, e.receipt.isNull = false) →
      ∃ m', entries.foldlM (fun byPrev e => do
        return push byPrev (← JsonVal.get (some e.receipt) "prevHop") e) m =
          Except.ok (ε := Err) m' := by
    intro entries
    induction entries with
    | nil => intro m _; exact ⟨m, rfl⟩
    | cons e entries ih =>
        intro m h
        rw [List.forall_mem_cons] at h
        have hread : ∃ prevHop, JsonVal.get (some e.receipt) "prevHop" = .ok prevHop := by
          unfold JsonVal.get
          cases hr : e.receipt with
          | null => rw [hr] at h; exact absurd h.1 (by decide)
          | _ => exact ⟨_, rfl⟩
        obtain ⟨prevHop, hprev⟩ := hread
        rw [List.foldlM_cons, hprev]
        exact ih h.2
  exact hfold h

theorem sortBy_perm {κ : Type} {key : Entry → Outcome κ} {inOrder : κ → κ → Bool}
    {list sorted : List Entry} (h : sortBy key inOrder list = .ok sorted) : sorted.Perm list := by
  unfold sortBy at h
  split at h
  · cases h
    exact List.Perm.refl _
  · obtain ⟨keyed, hkeyed, h⟩ := Outcome.bind_eq_ok.mp h
    cases h
    have hfst : keyed.map Prod.fst = list := by
      have hall := Outcome.mapM_eq_ok hkeyed
      clear * - hall
      induction hall with
      | nil => rfl
      | cons hx _ ih =>
          obtain ⟨k, _, hx⟩ := Outcome.bind_eq_ok.mp hx
          cases hx
          rw [List.map_cons, ih]
    rw [← hfst]
    exact (List.perm_insertionSort _ keyed).map Prod.fst

theorem sortBy_returns {κ : Type} {key : Entry → Outcome κ} {inOrder : κ → κ → Bool}
    {list : List Entry} (h : ∀ e ∈ list, ∃ k, key e = .ok k) :
    ∃ sorted, sortBy key inOrder list = .ok sorted := by
  have hkeyed : ∀ {list : List Entry}, (∀ e ∈ list, ∃ k, key e = .ok k) →
      ∃ keyed, list.mapM (fun e => do return (e, ← key e)) = Except.ok (ε := Err) keyed := by
    intro list
    induction list with
    | nil => intro _; exact ⟨[], rfl⟩
    | cons e list ih =>
        intro h
        rw [List.forall_mem_cons] at h
        obtain ⟨k, hk⟩ := h.1
        obtain ⟨keyed, hlist⟩ := ih h.2
        rw [List.mapM_cons, hk, Outcome.ok_bind, Outcome.pure_eq_ok, Outcome.ok_bind, hlist]
        exact ⟨_, rfl⟩
  unfold sortBy
  split
  · exact ⟨_, rfl⟩
  · obtain ⟨keyed, hlist⟩ := hkeyed h
    rw [hlist]
    exact ⟨_, rfl⟩

/-- Sorting every list sorts the entries from each node. -/
theorem leaving_updateAll {κ : Type} {key : Entry → Outcome κ} {inOrder : κ → κ → Bool}
    {byPrev sorted : ByPrev} (h : byPrev.updateAll (sortBy key inOrder) = .ok sorted)
    (node : JsonVal) : sortBy key inOrder (leaving byPrev node) = .ok (leaving sorted node) := by
  unfold leaving
  cases JsonVal.key? node with
  | none => rfl
  | some k =>
      show sortBy key inOrder ((byPrev.get? k).getD []) = .ok ((sorted.get? k).getD [])
      cases hk : byPrev.get? k with
      | none =>
          rw [JsMap.get?_updateAll_none h hk]
          rfl
      | some list =>
          obtain ⟨list', hlist, hk'⟩ := JsMap.get?_updateAll h hk
          rw [hk']
          exact hlist

end Path

end DtnCustody
