/-
# DtnCustody.IpSf.Receipts — `ip-sf/receipts.mjs`: a replay log, and one batch receipt per receiving node, inbound
link and contact window.

The graph says which node sends on a link, the events when a link is up, the steps where each packet went. The walk
over the steps keeps one transit for each packet, the last, and one link for each packet and node, that of the last
arrival. `arrivals` says the same of the log itself: an arrival came over the link of the last transit of its packet
before it.

The arrivals that the walk kept go into groups, each with the link of its packet at its node and the window that it
landed in, and every group is signed for in one batch. `Located` is an arrival so placed; the groups gather these by
their keys.
-/
import DtnCustody.Agent.BatchReturns
import DtnCustody.Base.Digits
import DtnCustody.Base.Gather
import DtnCustody.Js.Operators
import Mathlib.Algebra.BigOperators.Ring.Finset
import Mathlib.Data.List.Sort
import Mathlib.Data.Rat.Floor

namespace DtnCustody.IpSf

open Base Js

/-! ## The network -/

structure GraphNode where
  id : JsString
  /-- The addresses of each interface. -/
  interfaces : List (List JsString)

structure GraphLink where
  id : JsString
  source : JsString
  target : JsString

structure Graph where
  nodes : List GraphNode
  links : List GraphLink

/-- The node of each address, without the part from the slash on. -/
def nodeOfIp (g : Graph) : JsMap JsString JsString :=
  JsMap.ofList (g.nodes.flatMap fun n => n.interfaces.flatMap fun addresses =>
    addresses.map fun address => (address.takeWhile (· ≠ 47), n.id))

/-- `{ from, to }` of a link. -/
structure LinkEnds where
  source : Option JsString
  target : Option JsString

def linkEnds (g : Graph) : JsMap JsString LinkEnds :=
  JsMap.ofList (g.links.map fun l =>
    (l.id, { source := (nodeOfIp g).get? l.source, target := (nodeOfIp g).get? l.target }))

/-! ## Steps -/

inductive StepData where
  | packetInNode (packet node : JsString)
  | packetInTransit (packet node link : JsString)
  | other
  deriving DecidableEq

structure Step where
  relativeTimeNs : ℚ
  data : StepData
  deriving DecidableEq

/-- `relative_time_ns / NS`. -/
def Step.t (s : Step) : ℚ := s.relativeTimeNs / 1000000

/-- An array of steps. -/
structure ReplayLog where
  steps : List Step
  /-- The length of an array. -/
  fits : steps.length < 4294967296

/-! ## Up periods -/

/-- `{ id, status }` of an event of a link. -/
structure LinkChange where
  id : JsString
  status : JsString

structure NetworkEvent where
  relativeTimeMs : ℚ
  link : Option LinkChange

abbrev Period := ℚ × ℚ

/-- `endMs`; without steps it is -Infinity. -/
def endMs (steps : List Step) : Option ℚ := (steps.map Step.t).max?.map (· + 1)

/-- The windows of ten minutes that a link is cut into that has no events. -/
def cuts (last : Option ℚ) : List Period :=
  match last with
  | none => []
  | some last => (List.range ⌈last / 600000⌉.toNat).map fun k =>
      (600000 * k, min (600000 * k + 600000) last)

/-- `ups`, `state` and `since`. -/
structure Ups where
  ups : List Period
  state : JsString
  since : ℚ

/-- One round of the loop over the events of a link. -/
def Ups.next (u : Ups) (e : ℚ × JsString) : Ups :=
  if e.2 = u.state then u
  else { ups := if u.state = js "up" then u.ups ++ [(u.since, e.1)] else u.ups, state := e.2, since := e.1 }

/-- The up periods of a link, from its events in their order. -/
def periodsOf (last : Option ℚ) (evs : List (ℚ × JsString)) : List Period :=
  match evs with
  | [] => cuts last
  | e :: _ =>
      let state := if e.2 = js "up" then js "down" else js "up"
      let u := evs.foldl Ups.next { ups := [], state, since := 0 }
      if u.state = js "up" then u.ups ++ [(u.since, last.elim u.since (max u.since))] else u.ups

/-- `events.filter(...).sort(...)`. -/
def eventsOf (events : List NetworkEvent) (id : JsString) : List (ℚ × JsString) :=
  (events.filterMap fun e => e.link.bind fun l =>
    if l.id = id then some (e.relativeTimeMs, l.status) else none).insertionSort fun a b => a.1 ≤ b.1

def upPeriods (g : Graph) (events : List NetworkEvent) (steps : List Step) : JsMap JsString (List Period) :=
  JsMap.ofList ((linkEnds g).keys.map fun id => (id, periodsOf (endMs steps) (eventsOf events id)))

/-- `windowOf(link, t)`; a link that is not in the graph is a throw. -/
def windowOf (ups : JsMap JsString (List Period)) (link : JsString) (t : ℚ) : Outcome Int :=
  match ups.get? link with
  | none => .error .typeError
  | some periods =>
      match periods.findIdx? fun p => p.1 ≤ t ∧ t ≤ p.2 with
      | some w => .ok w
      | none => .ok (-1)

/-! ## The walk -/

/-- `{ from, link, t }` of a packet in flight. -/
structure Transit where
  node : JsString
  link : JsString
  t : ℚ

/-- `{ node, t }`. -/
structure Hop where
  node : JsString
  t : ℚ

structure Walk where
  arrivals : JsMap JsString (List Hop)
  lastTransit : JsMap JsString Transit
  inboundLink : JsMap JsString JsString

/-- `${packetId}@${node}`. -/
def packetKey (packet node : JsString) : JsString := packet ++ js "@" ++ node

def Walk.step (walk : Walk) (s : Step) : Walk :=
  match s.data with
  | .packetInNode packet node =>
      match walk.lastTransit.get? packet with
      -- The node created the packet.
      | none => walk
      | some tr =>
          { walk with
            arrivals := walk.arrivals.set packet ((walk.arrivals.get? packet).getD [] ++ [{ node, t := s.t }])
            inboundLink := walk.inboundLink.set (packetKey packet node) tr.link }
  | .packetInTransit packet node link =>
      { walk with lastTransit := walk.lastTransit.set packet { node, link, t := s.t } }
  | .other => walk

def walk (steps : List Step) : Walk :=
  steps.foldl Walk.step { arrivals := JsMap.empty, lastTransit := JsMap.empty, inboundLink := JsMap.empty }

/-! ## Arrivals -/

/-- A packet comes to a node, over the link that it was sent on. -/
structure Arrival where
  packet : JsString
  node : JsString
  t : ℚ
  link : JsString
  sentAt : ℚ
  deriving DecidableEq

/-- The last transit of a packet. -/
def transitOf (steps : List Step) (packet : JsString) : Option Transit :=
  steps.reverse.findSome? fun s =>
    match s.data with
    | .packetInTransit p node link => if p = packet then some { node, link, t := s.t } else none
    | _ => none

/-- The arrival that a step is, after these steps: a packet that was never sent was created there. -/
def arrivalAt (front : List Step) (s : Step) : Option Arrival :=
  match s.data with
  | .packetInNode packet node =>
      (transitOf front packet).map fun tr => { packet, node, t := s.t, link := tr.link, sentAt := tr.t }
  | _ => none

/-- The arrivals of a log, in their order. -/
def arrivals (steps : List Step) : List Arrival :=
  (List.range steps.length).filterMap fun k => steps[k]?.bind (arrivalAt (steps.take k))

theorem arrivals_append (steps : List Step) (s : Step) :
    arrivals (steps ++ [s]) = arrivals steps ++ (arrivalAt steps s).toList := by
  have hfront : ((List.range steps.length).filterMap fun k =>
      (steps ++ [s])[k]?.bind (arrivalAt ((steps ++ [s]).take k))) = arrivals steps := by
    refine List.filterMap_congr fun k hk => ?_
    have hlt := List.mem_range.mp hk
    rw [List.getElem?_append_left hlt, List.take_append_of_le_length (Nat.le_of_lt hlt)]
  rw [arrivals, List.length_append, List.length_singleton, List.range_succ, List.filterMap_append, hfront,
    List.filterMap_cons, List.getElem?_concat_length, List.take_left' rfl]
  cases h : arrivalAt steps s with
  | none => simp [h]
  | some a => simp [h]

theorem transitOf_append (steps : List Step) (s : Step) (packet : JsString) :
    transitOf (steps ++ [s]) packet =
      match s.data with
      | .packetInTransit p node link =>
          if p = packet then some { node, link, t := s.t } else transitOf steps packet
      | _ => transitOf steps packet := by
  rw [transitOf, List.reverse_append, List.reverse_singleton, List.singleton_append, List.findSome?_cons]
  cases s.data with
  | packetInNode p node => rfl
  | packetInTransit p node link =>
      by_cases hp : p = packet
      · simp only [if_pos hp]
      · simp only [if_neg hp]
        rfl
  | other => rfl

theorem length_arrivals_le (steps : List Step) : (arrivals steps).length ≤ steps.length := by
  have h := List.length_filterMap_le (fun k => steps[k]?.bind (arrivalAt (steps.take k))) (List.range steps.length)
  rw [List.length_range] at h
  exact h

/-- **What the walk keeps**: the last transits, and of the arrivals the nodes by packet, and the last link by packet
and node. -/
theorem walk_eq (steps : List Step) :
    (∀ packet, (walk steps).lastTransit.get? packet = transitOf steps packet) ∧
      (walk steps).arrivals = Gather.gather Arrival.packet (fun _ => [])
        (fun hops a => hops ++ [{ node := a.node, t := a.t }]) (arrivals steps) ∧
      (walk steps).inboundLink = Gather.gather (fun a => packetKey a.packet a.node) Arrival.link
        (fun _ a => a.link) (arrivals steps) := by
  induction steps using List.reverseRecOn with
  | nil => exact ⟨fun _ => rfl, rfl, rfl⟩
  | append_singleton steps s ih =>
      obtain ⟨htransit, harrivals, hinbound⟩ := ih
      have hwalk : walk (steps ++ [s]) = (walk steps).step s := List.foldl_append
      rw [hwalk, arrivals_append]
      unfold Walk.step arrivalAt
      cases hs : s.data with
      | packetInNode packet node =>
          simp only [transitOf_append, hs]
          rw [htransit packet]
          cases htr : transitOf steps packet with
          | none => exact ⟨htransit, by rw [harrivals]; simp, by rw [hinbound]; simp⟩
          | some tr =>
              refine ⟨htransit, ?_, ?_⟩
              · rw [Option.map_some, Option.toList_some, Gather.gather_append, harrivals]
                rfl
              · rw [Option.map_some, Option.toList_some, Gather.gather_append, hinbound]
                rfl
      | packetInTransit packet node link =>
          simp only [transitOf_append, hs]
          refine ⟨fun p => ?_, by rw [harrivals]; simp, by rw [hinbound]; simp⟩
          by_cases hp : packet = p
          · rw [if_pos hp, ← hp, JsMap.get?_set_self]
          · rw [if_neg hp, JsMap.get?_set_ne _ (Ne.symm hp)]
            exact htransit p
      | other =>
          simp only [transitOf_append, hs]
          exact ⟨htransit, by rw [harrivals]; simp, by rw [hinbound]; simp⟩

end DtnCustody.IpSf

namespace DtnCustody.IpSf

open Base Js

/-! ## Groups -/

/-- An arrival with the link and the window it is signed for under. -/
structure Located where
  packet : JsString
  node : JsString
  t : ℚ
  link : JsString
  w : Int
  deriving DecidableEq

/-- `${node}|${link}|${w}`. -/
def groupKey (node link : JsString) (w : Int) : JsString :=
  node ++ js "|" ++ link ++ js "|" ++ js (toString w)

def Located.key (h : Located) : JsString := groupKey h.node h.link h.w

/-- `{ node, link, w, ids, from, to }`. -/
structure Group where
  node : JsString
  link : JsString
  w : Int
  ids : List JsString
  first : ℚ
  last : ℚ

def Group.new (h : Located) : Group :=
  { node := h.node, link := h.link, w := h.w, ids := [], first := h.t, last := h.t }

def Group.put (g : Group) (h : Located) : Group :=
  { g with ids := g.ids ++ [h.packet], first := min g.first h.t, last := max g.last h.t }

/-- The arrivals of all packets. -/
def Walk.hops (walk : Walk) : List (JsString × Hop) :=
  walk.arrivals.entries.flatMap fun p => p.2.map fun h => (p.1, h)

variable (ups : JsMap JsString (List Period))

/-- The link and the window of an arrival. -/
def Walk.locate (walk : Walk) (p : JsString × Hop) : Outcome Located :=
  match walk.inboundLink.get? (packetKey p.1 p.2.node) with
  | none => .error .typeError
  | some link => do
      let w ← windowOf ups link p.2.t
      return { packet := p.1, node := p.2.node, t := p.2.t, link, w }

def Walk.groups (walk : Walk) : Outcome (JsMap JsString Group) :=
  walk.hops.foldlM (fun groups p => do
    let h ← walk.locate ups p
    return Gather.add Located.key Group.new Group.put groups h) JsMap.empty

/-! ## Batches -/

/-- `Math.round(q)`. -/
def mathRound (q : ℚ) : Int := ⌊q + 1 / 2⌋

/-- `${link}#${w}`. -/
def contactId (link : JsString) (w : Int) : JsString := link ++ js "#" ++ js (toString w)

/-- What a group is signed for with. -/
def Group.request (g : Group) (prevHop : Option JsString) (fits : g.ids.length < 4294967296) : Batch.Request where
  prevHop := prevHop.map .str
  thisHop := some (.str g.node)
  contactId := some (.str (contactId g.link g.w))
  fromTime := some (.int (mathRound g.first))
  toTime := some (.int (mathRound g.last))
  bundleIds := g.ids
  fits

variable (H : Host) (keyOf : JsString → AgentKey)

/-- The batch of a group; an array takes no more ids than that. -/
def Group.batch (ends : JsMap JsString LinkEnds) (g : Group) : Outcome Batch.Made :=
  match ends.get? g.link with
  | none => .error .typeError
  | some e =>
      if fits : g.ids.length < 4294967296 then Batch.batchReceipt H (keyOf g.node) (g.request e.source fits)
      else .error .typeError

/-- `batches`. -/
def batches (g : Graph) (events : List NetworkEvent) (log : ReplayLog) : Outcome (List Batch.Made) := do
  let groups ← (walk log.steps).groups (upPeriods g events log.steps)
  groups.values.mapM (Group.batch H keyOf (linkEnds g))

/-! ## Keys -/

/-- An integer is written with digits and a minus sign. -/
theorem not_mem_js_int {u : UInt16} (hdigit : ¬ IsDigit u) (hminus : u ≠ 45) (z : Int) : u ∉ js (toString z) := by
  cases z with
  | ofNat n => exact fun hu => hdigit (isDigit_js_toString n u hu)
  | negSucc n =>
      have hlist : js (toString (Int.negSucc n)) = 45 :: js (toString (n + 1)) := by
        show js ("-" ++ toString (n + 1)) = _
        rw [js, String.toList_append, utf16_append]
        rfl
      rw [hlist, List.mem_cons]
      rintro (hu | hu)
      · exact hminus hu
      · exact hdigit (isDigit_js_toString (n + 1) u hu)

theorem js_int_inj {w w' : Int} (h : js (toString w) = js (toString w')) : w = w' :=
  Json.toList_int_inj (congrArg String.toList (js_inj.mp h))

theorem contactId_inj {link link' : JsString} {w w' : Int} (h : contactId link w = contactId link' w') :
    link = link' ∧ w = w' := by
  unfold contactId at h
  rw [List.append_assoc, List.append_assoc] at h
  have hhash : ∀ z : Int, (35 : UInt16) ∉ js (toString z) := not_mem_js_int (by unfold IsDigit; decide) (by decide)
  have hcons : link ++ 35 :: js (toString w) = link' ++ 35 :: js (toString w') := h
  obtain ⟨hlink, hw⟩ := append_separator_inj hcons (hhash w) (hhash w')
  exact ⟨hlink, js_int_inj hw⟩

/-- One node and one link: the window tells the groups apart. -/
theorem groupKey_inj {node link : JsString} {w w' : Int} (h : groupKey node link w = groupKey node link w') :
    w = w' := js_int_inj (List.append_cancel_left h)

/-- Nodes without a bar in their ids. -/
theorem groupKey_inj_of_plain {node node' link link' : JsString} {w w' : Int} (hnode : 124 ∉ node)
    (hnode' : 124 ∉ node') (h : groupKey node link w = groupKey node' link' w') : node = node' ∧ link = link' := by
  have hbar : ∀ z : Int, (124 : UInt16) ∉ js (toString z) := not_mem_js_int (by unfold IsDigit; decide) (by decide)
  have hparts : ∀ (n l : JsString) (z : Int), groupKey n l z = (n ++ 124 :: l) ++ 124 :: js (toString z) := by
    intro n l z
    show n ++ [124] ++ l ++ [124] ++ js (toString z) = _
    simp only [List.append_assoc, List.cons_append, List.nil_append]
  rw [hparts, hparts] at h
  obtain ⟨hfront, -⟩ := append_separator_inj h (hbar w) (hbar w')
  -- The first bar ends the node.
  have hreverse : link.reverse ++ 124 :: node.reverse = link'.reverse ++ 124 :: node'.reverse := by
    have hrev := congrArg List.reverse hfront
    simp only [List.reverse_append, List.reverse_cons, List.append_assoc, List.singleton_append] at hrev
    exact hrev
  obtain ⟨hlink, hback⟩ := append_separator_inj hreverse (mt List.mem_reverse.mp hnode) (mt List.mem_reverse.mp hnode')
  exact ⟨List.reverse_injective hback, List.reverse_injective hlink⟩

/-! ## What a group is made of -/

/-- A group of these arrivals. -/
structure Group.Of (hs : List Located) (g : Group) : Prop where
  head : ∃ h ∈ hs, h.node = g.node ∧ h.link = g.link ∧ h.w = g.w
  ids_eq : g.ids = hs.map Located.packet
  first_le : ∀ h ∈ hs, g.first ≤ h.t
  first_mem : ∃ h ∈ hs, h.t = g.first
  le_last : ∀ h ∈ hs, h.t ≤ g.last
  last_mem : ∃ h ∈ hs, h.t = g.last

/-- One arrival more. -/
theorem Group.Of.put {hs : List Located} {g : Group} (hg : g.Of hs) (h : Located) : (g.put h).Of (hs ++ [h]) where
  head := by
    obtain ⟨x, hx, hsame⟩ := hg.head
    exact ⟨x, List.mem_append_left _ hx, hsame⟩
  ids_eq := by
    rw [List.map_append, ← hg.ids_eq]
    rfl
  first_le x hx := by
    rcases List.mem_append.mp hx with hx | hx
    · exact (min_le_left _ _).trans (hg.first_le x hx)
    · rw [List.mem_singleton.mp hx]
      exact min_le_right _ _
  first_mem := by
    rcases min_choice g.first h.t with hmin | hmin
    · obtain ⟨x, hx, hxt⟩ := hg.first_mem
      exact ⟨x, List.mem_append_left _ hx, hxt.trans hmin.symm⟩
    · exact ⟨h, List.mem_append_right _ List.mem_cons_self, hmin.symm⟩
  le_last x hx := by
    rcases List.mem_append.mp hx with hx | hx
    · exact (hg.le_last x hx).trans (le_max_left _ _)
    · rw [List.mem_singleton.mp hx]
      exact le_max_right _ _
  last_mem := by
    rcases max_choice g.last h.t with hmax | hmax
    · obtain ⟨x, hx, hxt⟩ := hg.last_mem
      exact ⟨x, List.mem_append_left _ hx, hxt.trans hmax.symm⟩
    · exact ⟨h, List.mem_append_right _ List.mem_cons_self, hmax.symm⟩

theorem Group.of_new (h : Located) : ((Group.new h).put h).Of [h] where
  head := ⟨h, List.mem_cons_self, rfl, rfl, rfl⟩
  ids_eq := rfl
  first_le x hx := by
    rw [List.mem_singleton.mp hx]
    exact min_le_right _ _
  first_mem := ⟨h, List.mem_cons_self, (min_self h.t).symm⟩
  le_last x hx := by
    rw [List.mem_singleton.mp hx]
    exact le_max_right _ _
  last_mem := ⟨h, List.mem_cons_self, (max_self h.t).symm⟩

theorem Group.of_foldl (h : Located) (rest : List Located) :
    (rest.foldl Group.put ((Group.new h).put h)).Of (h :: rest) := by
  induction rest using List.reverseRecOn with
  | nil => exact Group.of_new h
  | append_singleton rest x ih =>
      rw [List.foldl_append, ← List.cons_append]
      exact ih.put x

/-- **The groups gather the placed arrivals**, if all of them have a place. -/
theorem groups_eq (walk : Walk) : walk.groups ups = do
    let hs ← walk.hops.mapM (walk.locate ups)
    return Gather.gather Located.key Group.new Group.put hs := by
  have hfold : ∀ (ps : List (JsString × Hop)) (m : JsMap JsString Group),
      (ps.foldlM (fun groups p => do
        let h ← walk.locate ups p
        return Gather.add Located.key Group.new Group.put groups h) m : Outcome _) = do
          let hs ← ps.mapM (walk.locate ups)
          return hs.foldl (Gather.add Located.key Group.new Group.put) m := by
    intro ps
    induction ps with
    | nil => exact fun m => rfl
    | cons p ps ih =>
        intro m
        rw [List.foldlM_cons, List.mapM_cons]
        cases walk.locate ups p with
        | error e => rfl
        | ok h =>
            show ps.foldlM _ (Gather.add Located.key Group.new Group.put m h) = _
            rw [ih]
            cases ps.mapM (walk.locate ups) with
            | error e => rfl
            | ok hs => rfl
  exact hfold walk.hops JsMap.empty

/-- The group under a key is that of the placed arrivals with the key. -/
theorem group_of_get? {hs : List Located} {k : JsString} {g : Group}
    (h : (Gather.gather Located.key Group.new Group.put hs).get? k = some g) :
    g.Of (hs.filter fun h => h.key = k) := by
  obtain ⟨x, rest, hfilter, rfl⟩ := Gather.exists_of_get?_gather h
  rw [hfilter]
  exact Group.of_foldl x rest

/-! ## Places -/

/-- The placed arrival is this one. -/
structure Located.Is (ups : JsMap JsString (List Period)) (walk : Walk) (h : Located) (a : Arrival) : Prop where
  packet : h.packet = a.packet
  node : h.node = a.node
  t : h.t = a.t
  link : walk.inboundLink.get? (packetKey a.packet a.node) = some h.link
  w : windowOf ups h.link a.t = .ok h.w

variable {ups}

theorem mem_hops {steps : List Step} {p : JsString × Hop} :
    p ∈ (walk steps).hops ↔ ∃ a ∈ arrivals steps, p = (a.packet, { node := a.node, t := a.t }) := by
  obtain ⟨packet, hop⟩ := p
  have hgather := @Gather.mem_gather_push Arrival JsString Hop _ Arrival.packet
    (fun a => { node := a.node, t := a.t }) (arrivals steps) packet hop
  rw [← (walk_eq steps).2.1] at hgather
  rw [Walk.hops, List.mem_flatMap]
  constructor
  · rintro ⟨⟨k, hops⟩, hk, hp⟩
    obtain ⟨h, hh, heq⟩ := List.mem_map.mp hp
    cases heq
    obtain ⟨a, ha, rfl, rfl⟩ := hgather.mp ⟨hops, JsMap.mem_entries_iff.mp hk, hh⟩
    exact ⟨a, ha, rfl⟩
  · rintro ⟨a, ha, heq⟩
    cases heq
    obtain ⟨hops, hhops, hmem⟩ := hgather.mpr ⟨a, ha, rfl, rfl⟩
    exact ⟨(a.packet, hops), JsMap.mem_entries_iff.mpr hhops, List.mem_map_of_mem hmem⟩

theorem length_hops (steps : List Step) : (walk steps).hops.length = (arrivals steps).length := by
  have hlength := @Gather.length_gather_push Arrival JsString Hop _ Arrival.packet
    (fun a => { node := a.node, t := a.t }) (arrivals steps)
  rw [← (walk_eq steps).2.1, JsMap.total, JsMap.values, List.map_map] at hlength
  rw [Walk.hops, List.length_flatMap]
  simp only [List.length_map]
  refine Int.ofNat_inj.mp (Eq.trans ?_ hlength)
  rw [Nat.cast_list_sum, List.map_map]
  rfl

/-- **Where the arrivals are placed.** -/
theorem located_of_mapM {steps : List Step} {hs : List Located}
    (h : (walk steps).hops.mapM ((walk steps).locate ups) = .ok hs) :
    (∀ x ∈ hs, ∃ a ∈ arrivals steps, x.Is ups (walk steps) a) ∧
      (∀ a ∈ arrivals steps, ∃ x ∈ hs, x.Is ups (walk steps) a) := by
  have hplace : ∀ {a : Arrival} {x : Located},
      (walk steps).locate ups (a.packet, { node := a.node, t := a.t }) = .ok x → x.Is ups (walk steps) a := by
    intro a x hx
    unfold Walk.locate at hx
    split at hx
    · cases hx
    · next link hlink =>
      obtain ⟨w, hw, hx⟩ := Outcome.bind_eq_ok.mp hx
      cases hx
      exact ⟨rfl, rfl, rfl, hlink, hw⟩
  refine ⟨fun x hx => ?_, fun a ha => ?_⟩
  · obtain ⟨p, hp, hlocate⟩ := Outcome.mem_of_mapM h hx
    obtain ⟨a, ha, rfl⟩ := mem_hops.mp hp
    exact ⟨a, ha, hplace hlocate⟩
  · obtain ⟨x, hx, hlocate⟩ := Outcome.exists_of_mapM h (mem_hops.mpr ⟨a, ha, rfl⟩)
    exact ⟨x, hx, hplace hlocate⟩

/-- The link that is kept for a packet at a node is that of one of its arrivals there. -/
theorem inboundLink_mem {steps : List Step} {key link : JsString} (h : (walk steps).inboundLink.get? key = some link) :
    ∃ a ∈ arrivals steps, packetKey a.packet a.node = key ∧ a.link = link := by
  rw [(walk_eq steps).2.2] at h
  obtain ⟨x, rest, hfilter, hlast⟩ := Gather.exists_of_get?_gather h
  have hmem : rest.foldl (fun _ a => a.link) x.link ∈ (x :: rest).map Arrival.link := by
    induction rest using List.reverseRecOn with
    | nil => exact List.mem_cons_self
    | append_singleton rest y _ =>
        rw [List.foldl_append, ← List.cons_append, List.map_append]
        exact List.mem_append_right _ List.mem_cons_self
  obtain ⟨a, ha, hlink⟩ := List.mem_map.mp hmem
  rw [← hfilter] at ha
  obtain ⟨hin, hkey⟩ := List.mem_filter.mp ha
  exact ⟨a, hin, of_decide_eq_true hkey, hlink.trans hlast⟩

theorem inboundLink_isSome {steps : List Step} {a : Arrival} (ha : a ∈ arrivals steps) :
    ((walk steps).inboundLink.get? (packetKey a.packet a.node)).isSome = true := by
  rw [(walk_eq steps).2.2]
  exact Gather.get?_gather_isSome ha

/-! ## What is signed -/

variable {H : Host} {keyOf : JsString → AgentKey}

/-- What the receipt of a group says. -/
structure Signed (ends : JsMap JsString LinkEnds) (g : Group) (b : Batch.Made) : Prop where
  leaves : ∀ id, id ∈ b.leaves ↔ id ∈ g.ids
  prevHop : ∃ e, ends.get? g.link = some e ∧ b.receipt.get "prevHop" = e.source.map .str
  thisHop : b.receipt.get "thisHop" = some (.str g.node)
  contactId : b.receipt.get "contactId" = some (.str (contactId g.link g.w))
  fromTime : b.receipt.get "from" = some (.int (mathRound g.first))
  toTime : b.receipt.get "to" = some (.int (mathRound g.last))

theorem signed_of_batch {ends : JsMap JsString LinkEnds} {g : Group} {b : Batch.Made}
    (h : g.batch H keyOf ends = .ok b) : Signed ends g b := by
  unfold Group.batch at h
  split at h
  · cases h
  · next e he =>
    split at h
    · next fits =>
      have hfield := @Batch.batchReceipt_field H (keyOf g.node) (g.request e.source fits) b h
      obtain ⟨leaves, _, hcovers, hleaves, _⟩ := Batch.batchReceipt_made h
      refine ⟨fun id => ?_, ⟨e, he, hfield (by decide) (by simp [Group.request])⟩, ?_, ?_, ?_, ?_⟩
      · rw [hleaves]
        exact hcovers.ids id
      · exact hfield (by decide) (by simp [Group.request])
      · exact hfield (by decide) (by simp [Group.request])
      · exact hfield (by decide) (by simp [Group.request])
      · exact hfield (by decide) (by simp [Group.request])
    · cases h

theorem mathRound_mono {q r : ℚ} (h : q ≤ r) : mathRound q ≤ mathRound r :=
  Int.floor_le_floor (add_le_add_left h _)

/-- A group of arrivals over a link of the graph is signed for. -/
theorem returns_batch {ends : JsMap JsString LinkEnds} {g : Group} {hs : List Located} (hg : g.Of hs)
    (hfits : hs.length < 4294967296) (hend : (ends.get? g.link).isSome = true) :
    Outcome.Returns (g.batch H keyOf ends) := by
  obtain ⟨e, he⟩ := Option.isSome_iff_exists.mp hend
  have hids : g.ids.length < 4294967296 := by
    rw [hg.ids_eq, List.length_map]
    exact hfits
  obtain ⟨x, hx, -⟩ := hg.head
  unfold Group.batch
  rw [he]
  dsimp only
  rw [dif_pos hids]
  refine Batch.returns_untimed rfl ?_ ?_ ?_
  · show Except.ok (Prim.ge H.toNode (Prim.int _) (Prim.int _)) = _
    rw [Prim.ge_int, decide_eq_true (mathRound_mono ((hg.first_le x hx).trans (hg.le_last x hx)))]
  · show g.ids ≠ []
    rw [hg.ids_eq]
    exact List.ne_nil_of_mem (List.mem_map_of_mem hx)
  · have hprev : ∀ j, e.source.map Json.str = some j → j.height = 0 := by
      intro j hj
      obtain ⟨s, _, rfl⟩ := Option.map_eq_some_iff.mp hj
      rfl
    simp only [Batch.Shallow, Group.request, List.forall_mem_cons, List.not_mem_nil, false_implies, implies_true, and_true,
      Option.some.injEq, forall_eq']
    exact ⟨hprev, rfl, rfl, rfl, rfl⟩

end DtnCustody.IpSf
