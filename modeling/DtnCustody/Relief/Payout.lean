/-
# DtnCustody.Relief.Payout — `relief/kit/payout.mjs`, run after run.

A run rebuilds the hub from its frame log, takes off what the ledger of payouts names, and pays the rest
in one transaction. The broadcast and the line of the ledger are two steps: the network may take the
transaction and the run never hear of it, and the line is written only on a good answer. So a run is the
model's function of the log and the ledger, with the outside beside it (`Broadcast`).

`paid_once`: over all runs in which what the network takes gets on the ledger, and the identifiers read
back as they were written, no bundle of a relay is paid twice.
-/
import DtnCustody.Base.Journal
import DtnCustody.Relief.PaidFor

namespace DtnCustody

open Base Js

namespace Relief

namespace Payout

variable (H : ReliefHost)

/-! ## What is owed -/

/-- What a run reads from the hub's config. -/
structure Config where
  hub : HubConfig
  /-- `config.ratePerBundleSats ?? 50`. -/
  rate : JsNum := .fin 50
  /-- `config.directory.payTo?.[relay] ?? null`. -/
  payTo : JsString → JsonVal

structure Row where
  relay : JsString
  payTo : JsonVal
  bundleIds : List Prim
  sats : JsNum

/-- A line of `payouts.jsonl` as it is read back: the relays and what they were paid for. -/
abbrev Line := List (JsString × List Prim)

/-- `${relay} ${id}`. -/
def pairText (relay : JsString) (id : Prim) : JsString := relay ++ js " " ++ id.toJsString H.toNode

/-- The set `already`. -/
def already (lines : List Line) : List JsString :=
  lines.flatMap fun line => line.flatMap fun p => p.2.map (pairText H p.1)

/-- `n * rate`, for an array of `n > 0`. -/
def times (n : Nat) : JsNum → JsNum
  | .fin q => .fin (n * q)
  | x => x

/-- The row of one relay. -/
def rowOf (cfg : Config) (lines : List Line) (relay : JsString) (ids : List Prim) : Row :=
  let due := ids.filter fun id => pairText H relay id ∉ already H lines
  { relay, payTo := cfg.payTo relay, bundleIds := due, sats := times due.length cfg.rate }

/-- `owed(config, dataDir).rows`, from the frames and the lines. -/
def owed (cfg : Config) (arrivals : List Arrival) (lines : List Line) : Outcome (List Row) := do
  let hub ← ({} : Hub).replay H cfg.hub arrivals
  let listed ← hub.paidIds H
  return (listed.entries.map fun e => rowOf H cfg lines e.1 e.2).filter fun r => r.bundleIds ≠ []

/-- The rows that `buildPayout` makes an output of. -/
def payable (rows : List Row) : List Row :=
  rows.filter fun r => r.payTo.truthy && (JsNum.lt r.sats (.fin 1) == some false)

/-! ## Runs -/

/-- What comes of a broadcast. -/
structure Broadcast where
  /-- The network takes the transaction. -/
  accepted : Bool
  /-- `arcVerdict(…).ok`; without an answer the run stops, or throws. -/
  ok : Option Bool
  /-- How far `appendFileSync` gets. -/
  written : Journal.Written

structure Run where
  config : Config
  arrivals : List Arrival
  /-- What comes of the broadcast, if the run gets there. -/
  broadcast : Option Broadcast

/-- A bundle and a relay that had it. -/
structure Handoff where
  relay : JsString
  id : Prim
  deriving DecidableEq

/-- The ledger, and every handoff that a transaction the network took pays for. -/
structure State where
  file : List (Journal.Item Line)
  world : List Handoff

def State.new : State := { file := [], world := [] }

/-- What is left of an identifier when it has been written as JSON and read. -/
def reread : Prim → Prim
  | .undef => .null
  | .num (.inf _) => .null
  | .num .nan => .null
  | id => id

/-- The line that is written for some rows, as it reads. -/
def lineOf (rows : List Row) : Line := rows.map fun r => (r.relay, r.bundleIds.map reread)

/-- The bundles that some rows pay for. -/
def pairsOf (rows : List Row) : List Handoff :=
  rows.flatMap fun r => r.bundleIds.map fun id => ⟨r.relay, id⟩

/-- The rows that the transaction of a run pays. -/
def Run.rows (r : Run) (file : List (Journal.Item Line)) : List Row :=
  match Journal.load file with
  | none => []
  | some lines =>
      match owed H r.config r.arrivals lines with
      | .error _ => []
      | .ok rows => payable rows

def State.step (s : State) (r : Run) : State :=
  match r.broadcast with
  | none => s
  | some b =>
      let rows := r.rows H s.file
      -- with nothing to pay, `buildPayout` throws
      if rows = [] then s
      else
        { file := s.file ++ if b.ok = some true then b.written.items (lineOf rows) else []
          world := s.world ++ if b.accepted then pairsOf rows else [] }

def State.runAll (s : State) (rs : List Run) : State := rs.foldl (fun s r => s.step H r) s

/-! ## What a run pays -/

variable {H}

/-- The bundles on the lines. -/
def pairsOn (lines : List Line) : List Handoff :=
  lines.flatMap fun line => line.flatMap fun p => p.2.map fun id => ⟨p.1, id⟩

theorem pairText_mem_already {lines : List Line} {p : Handoff} (h : p ∈ pairsOn lines) :
    pairText H p.relay p.id ∈ already H lines := by
  obtain ⟨line, hline, hrest⟩ := List.mem_flatMap.mp h
  obtain ⟨entry, hentry, hmap⟩ := List.mem_flatMap.mp hrest
  obtain ⟨id, hid, rfl⟩ := List.mem_map.mp hmap
  apply List.mem_flatMap.mpr
  refine ⟨line, hline, List.mem_flatMap.mpr ⟨entry, hentry, ?_⟩⟩
  exact List.mem_map.mpr ⟨id, hid, rfl⟩

/-- Rows of different relays, each of distinct bundles, pay for distinct pairs. -/
theorem nodup_pairsOf {rows : List Row} (hrelays : (rows.map Row.relay).Nodup)
    (hids : ∀ r ∈ rows, r.bundleIds.Nodup) : (pairsOf rows).Nodup := by
  rw [pairsOf, List.nodup_flatMap]
  refine ⟨fun r hr => ?_, ?_⟩
  · exact (hids r hr).map fun i j h => (Handoff.mk.inj h).2
  · rw [List.Nodup, List.pairwise_map] at hrelays
    refine hrelays.imp fun {r r'} hne => ?_
    intro p hp hp'
    obtain ⟨i, -, rfl⟩ := List.mem_map.mp hp
    obtain ⟨j, -, heq⟩ := List.mem_map.mp hp'
    exact hne (Handoff.mk.inj heq).1.symm

/-- **What a run pays**: distinct bundles that are on no line, each of them earned. -/
structure Due (H : ReliefHost) (r : Run) (file : List (Journal.Item Line)) (rows : List Row) : Prop where
  nodup : (pairsOf rows).Nodup
  new : ∀ p ∈ pairsOf rows, p ∉ pairsOn (Journal.records file)
  earned : ∀ p ∈ pairsOf rows, ∃ relay, Earned H r.config.hub r.arrivals relay p.id

theorem due_nil (r : Run) (file : List (Journal.Item Line)) : Due H r file [] :=
  ⟨List.nodup_nil, fun _ hp => absurd hp List.not_mem_nil, fun _ hp => absurd hp List.not_mem_nil⟩

theorem rows_due (r : Run) (file : List (Journal.Item Line)) : Due H r file (r.rows H file) := by
  unfold Run.rows
  split
  · exact due_nil r file
  · next lines hload =>
    split
    · exact due_nil r file
    · next rows hrows =>
      obtain ⟨hub, hhub, hrows⟩ := Outcome.bind_eq_ok.mp hrows
      obtain ⟨listed, hlisted, hrows⟩ := Outcome.bind_eq_ok.mp hrows
      rw [replay_eq hhub] at hlisted
      cases hrows
      set all := listed.entries.map fun e => rowOf H r.config lines e.1 e.2 with hall
      have hsub : (payable (all.filter fun r => r.bundleIds ≠ [])).Sublist all :=
        List.filter_sublist.trans List.filter_sublist
      -- every row is that of a relay that is listed, with what is new of its bundles
      have hrow : ∀ row ∈ all, ∃ e ∈ listed.entries, row = rowOf H r.config lines e.1 e.2 :=
        fun row hrow => by
          obtain ⟨e, he, rfl⟩ := List.mem_map.mp hrow
          exact ⟨e, he, rfl⟩
      have hpair : ∀ p ∈ pairsOf (payable (all.filter fun r => r.bundleIds ≠ [])),
          ∃ e ∈ listed.entries, p.id ∈ e.2 ∧ pairText H p.relay p.id ∉ already H lines := by
        intro p hp
        obtain ⟨row, hin, hmap⟩ := List.mem_flatMap.mp hp
        obtain ⟨e, he, rfl⟩ := hrow row (hsub.subset hin)
        obtain ⟨id, hid, rfl⟩ := List.mem_map.mp hmap
        have hdue := List.mem_filter.mp hid
        exact ⟨e, he, hdue.1, of_decide_eq_true hdue.2⟩
      refine ⟨nodup_pairsOf ?_ ?_, ?_, ?_⟩
      · refine (hsub.map _).nodup ?_
        rw [hall, List.map_map]
        exact listed.nodup
      · intro row hin
        obtain ⟨e, he, rfl⟩ := hrow row (hsub.subset hin)
        exact (earned hlisted (JsMap.mem_entries_iff.mp he)).1.filter _
      · intro p hp hon
        obtain ⟨e, -, -, hnew⟩ := hpair p hp
        rw [← Journal.load_eq hload] at hon
        exact hnew (pairText_mem_already hon)
      · intro p hp
        obtain ⟨e, he, hid, -⟩ := hpair p hp
        obtain ⟨-, relay, -, hearned⟩ := earned hlisted (JsMap.mem_entries_iff.mp he)
        exact ⟨relay, hearned p.id hid⟩

/-! ## Steady runs -/

/-- The answer is good and the line is in the file. -/
def Broadcast.onRecord (b : Broadcast) : Bool := decide (b.ok = some true) && b.written.whole

/-- **The condition on a run**: what the network takes gets on the ledger, and every bundle that is earned
has an identifier that JSON keeps. -/
structure Run.Steady (H : ReliefHost) (r : Run) : Prop where
  recorded : ∀ b, r.broadcast = some b → b.accepted = true → b.onRecord = true
  kept : ∀ p m t c rec, Credit H r.config.hub r.arrivals p m t c rec →
    ∀ id, JsonVal.key? (JsonVal.get? c.bundle "bundleId") = some id → reread id = id

def State.abs (s : State) : EffectLog.State Handoff :=
  { world := s.world, record := pairsOn (Journal.records s.file) }

/-- What was written of some rows whose identifiers are kept reads as what they pay for. -/
theorem pairsOn_lineOf {rows : List Row} (h : ∀ p ∈ pairsOf rows, reread p.id = p.id) :
    pairsOn [lineOf rows] = pairsOf rows := by
  rw [pairsOn, List.flatMap_cons, List.flatMap_nil, List.append_nil, lineOf, pairsOf, List.flatMap_map]
  apply List.flatMap_congr
  intro r hr
  rw [List.map_map]
  apply List.map_congr_left
  intro id hid
  have hkept := h ⟨r.relay, id⟩ (List.mem_flatMap.mpr ⟨r, hr, List.mem_map.mpr ⟨id, hid, rfl⟩⟩)
  exact congrArg (Handoff.mk r.relay) hkept

/-- A steady run is an attempt that the record allows, and that is on record if it happens. -/
theorem abs_step (s : State) {r : Run} (hr : r.Steady H) :
    (s.step H r).abs = s.abs ∨ ∃ a : EffectLog.Attempt Handoff,
      (s.step H r).abs = EffectLog.step s.abs a ∧ a.Honest ∧
        (EffectLog.Inv (fun _ => 1) s.abs → EffectLog.Allowed (fun _ => 1) s.abs a) := by
  have hdue := rows_due (H := H) r s.file
  unfold State.step
  cases hb : r.broadcast with
  | none => exact Or.inl rfl
  | some b =>
      dsimp only
      generalize r.rows H s.file = rows at hdue ⊢
      split
      · exact Or.inl rfl
      · right
        have hkept : ∀ p ∈ pairsOf rows, reread p.id = p.id := by
          intro p hp
          obtain ⟨relay, q, m, t, c, rec, hcredit, -, hid⟩ := hdue.earned p hp
          exact hr.kept q m t c rec hcredit p.id hid
        refine ⟨{ keys := pairsOf rows, happens := b.accepted, recorded := b.onRecord }, ?_,
          hr.recorded b hb, ?_⟩
        · have hrecord : pairsOn (Journal.records
              (if b.ok = some true then b.written.items (lineOf rows) else [])) =
                if b.onRecord then pairsOf rows else [] := by
            unfold Broadcast.onRecord
            by_cases hok : b.ok = some true
            · rw [if_pos hok, Journal.records_items, decide_eq_true hok, Bool.true_and]
              split
              · exact pairsOn_lineOf hkept
              · rfl
            · rw [if_neg hok, decide_eq_false hok, Bool.false_and]
              rfl
          unfold State.abs EffectLog.step
          rw [Journal.records_append, pairsOn, List.flatMap_append, ← pairsOn, ← pairsOn, hrecord]
        · intro hinv k
          by_cases hk : k ∈ pairsOf rows
          · left
            have hnew : k ∉ s.abs.record := hdue.new k hk
            have hzero := List.count_eq_zero_of_not_mem hnew
            have hone := List.nodup_iff_count_le_one.mp hdue.nodup k
            dsimp only
            omega
          · exact Or.inr hk

theorem inv_runAll {rs : List Run} : ∀ {s : State}, EffectLog.Inv (fun _ => 1) s.abs →
    (∀ r ∈ rs, r.Steady H) → EffectLog.Inv (fun _ => 1) (s.runAll H rs).abs := by
  induction rs with
  | nil => exact fun h _ => h
  | cons r rest ih =>
      intro s h hsteady
      rw [List.forall_mem_cons] at hsteady
      refine ih ?_ hsteady.2
      rcases abs_step s hsteady.1 with hsame | ⟨a, hstep, hhonest, hallowed⟩
      · rw [hsame]
        exact h
      · rw [hstep]
        exact h.step (fun _ => hallowed h) hhonest

/-- **In every sequence of steady runs, the network takes at most one payment for a bundle of a relay.** -/
theorem paid_once (H : ReliefHost) (rs : List Run) (hsteady : ∀ r ∈ rs, r.Steady H)
    (pair : Handoff) : (State.new.runAll H rs).world.count pair ≤ 1 := by
  have hnew : EffectLog.Inv (fun _ => 1) State.new.abs := EffectLog.inv_new _
  exact (inv_runAll hnew hsteady).world_le pair

/-! ## Runs over one log -/

def sampleRun (arrivals : List Arrival) (b : Broadcast) : Run where
  config := { hub := sampleConfig, payTo := fun _ => some (.text "a") }
  arrivals
  broadcast := some b

def paid : Broadcast := { accepted := true, ok := some true, written := .line }

/-- The network takes the transaction, and the answer is lost. -/
def unheard : Broadcast := { accepted := true, ok := none, written := .nothing }

/-- The first chunk, and the same without an identifier. -/
def firstHandoff : Handoff where
  relay := js "r"
  id := ((firstRef.bundleId sampleRelief).toOption.map Prim.str).getD .undef

def namelessBundle : Json :=
  match firstBundle with
  | .obj fields => .obj (fields.filter fun p => p.1 ≠ js "bundleId")
  | v => v

/-- Two runs over the honest log, which pay once. -/
theorem paid_once_sample :
    let s := State.new.runAll sampleRelief [sampleRun honestRun paid, sampleRun honestRun paid]
    s.world.length = 1 ∧ s.world.count firstHandoff ≤ 1 := by
  refine ⟨by decide +kernel, paid_once sampleRelief _ ?_ firstHandoff⟩
  intro r hr
  have hrun : r = sampleRun honestRun paid := by simpa using hr
  subst hrun
  refine ⟨?_, ?_⟩
  · intro b hb _
    cases hb
    rfl
  · intro p m t c rec hcredit id hid
    obtain ⟨ref, -, -, -, -, s, -, hs⟩ := honestRun_filed p m t c rec hcredit
    rw [hs] at hid
    cases hid
    rfl

/-- **A handoff is paid twice**: where the answer to the first payment was lost, and where the bundle has
no identifier, of which the ledger makes `null`. -/
theorem handoff_twice :
    (State.new.runAll sampleRelief [sampleRun honestRun unheard, sampleRun honestRun paid]).world.count
        firstHandoff = 2 ∧
      (let nameless := [manifestArrival, chunkArrival namelessBundle]
       (State.new.runAll sampleRelief [sampleRun nameless paid, sampleRun nameless paid]).world.count
        ⟨js "r", .undef⟩ = 2) := by
  decide +kernel

end Payout

end Relief

end DtnCustody
