/-
# DtnCustody.Radio.Gateway — `startGateway` of `radio/lib/gateway.mjs` as a machine over its callbacks.

An event is one uninterrupted stretch of the program: a frame comes in, an awaited broadcast is over, the
timer looks at one message, a send fails. `settling` holds the payments whose broadcast is awaited. The
`log` keeps what was done in order; an exception in a callback goes unhandled and ends the process.

The duplicate check and the record of completion are on the two sides of the broadcast, and the
reassembler forgets a message when it is whole. `abs` forgets everything but that, and `abs_step` says
that what is left is the machine of `AnswerOnce`.
-/
import DtnCustody.Base.AnswerOnce
import DtnCustody.Radio.Frame

namespace DtnCustody.Radio

open Base Js

structure Config where
  mtu : Nat := defaultMtu
  nackAfterMs : ℚ := 1500
  maxNacks : Nat := 5

/-- The receipt of a settled payment, and when it last went out. -/
structure Done where
  frames : List Bytes
  at_ : Int

structure Nack where
  n : Nat
  at_ : Int

/-- A payment whose broadcast is awaited. -/
structure Settling where
  type : FrameType
  id : JsString
  msg : Bytes
  check : Checked

inductive Output (Tx : Type) where
  /-- `settle` takes up a payment. -/
  | settle (id : JsString)
  | broadcast (id : JsString) (tx : Tx)
  | payment (id : JsString) (check : Checked) (status : Status) (detail : Option JsString) (bytes : Nat)
  /-- The receipt goes out, frame by frame. -/
  | reply (id : JsString) (frames : List Bytes) (now : Int)
  | corrupt (id : JsString)
  | nack (id : JsString) (missing : List Nat) (frames : List Bytes)
  | gaveUp (id : JsString)

structure Gateway (Tx : Type) where
  parts : Parts
  done : JsMap JsString Done
  nacks : JsMap JsString Nack
  settling : List Settling
  log : List (Output Tx)
  halted : Bool

def Gateway.new {Tx : Type} : Gateway Tx :=
  { parts := JsMap.empty, done := JsMap.empty, nacks := JsMap.empty, settling := [], log := [],
    halted := false }

inductive Event where
  | frame (raw : Bytes) (now : Int)
  /-- The broadcast of the payment at this place of `settling` is over; a payment that did not check was
  not broadcast, and the answer counts for nothing. -/
  | settled (i : Nat) (answer : Except JsString Answer) (now : Int)
  /-- The timer comes to a message, of whose frames the last was in at `last`. -/
  | nackTurn (id : JsString) (last now : Int)
  | sendFailed

/-- The broadcast of a payment, if it checks. -/
def sent {Tx : Type} (id : JsString) (tx : Option Tx) (check : Checked) : List (Output Tx) :=
  match tx with
  | some tx => if check.ok then [.broadcast id tx] else []
  | none => []

section Program

variable {Tx : Type} (S : Sdk Tx) (cfg : Config)

/-- The first half of `settle`. -/
def Gateway.settle (g : Gateway Tx) (type : FrameType) (id : JsString) (msg : Bytes) : Gateway Tx :=
  let (tx, check) := judge S type msg
  { g with
    settling := g.settling ++ [{ type, id, msg, check }]
    log := g.log ++ .settle id :: sent id tx check }

/-- What a frame of a message that is not settled yet completes. -/
def Gateway.assemble (g : Gateway Tx) (p : Frame) (now : Int) : Gateway Tx :=
  let (whole, parts) := g.parts.add S.toNode p now
  let g := { g with parts }
  match whole with
  | none => g
  | some (.corrupt _ _) => { g with log := g.log ++ [.corrupt p.id] }
  | some (.message type id msg) => g.settle S type id msg

/-- `type !== PAY_EF && type !== PAY_BEEF`. -/
def Frame.isPayment (p : Frame) : Bool := p.type = .payEf || p.type = .payBeef

/-- The callback of `radio.onFrame`. -/
def Gateway.onFrame (g : Gateway Tx) (raw : Bytes) (now : Int) : Gateway Tx :=
  match (parse raw).filter Frame.isPayment with
  | none => g
  | some p =>
      match g.done.get? p.id with
      | some d =>
          if ((now - d.at_ : Int) : ℚ) < cfg.nackAfterMs / 2 then g -- once per burst of repeats
          else
            { g with done := g.done.set p.id { d with at_ := now }
                     log := g.log ++ [.reply p.id d.frames now] }
      | none => g.assemble S p now

/-- The frames of a payment's receipt. -/
def receiptFrames (s : Settling) (status : Status) (now : Int) : Outcome (List Bytes) := do
  let id := Hex.decode s.id
  let receipt ← signReceipt S s.check.txid status now id
  split .receipt receipt cfg.mtu id

/-- The second half of `settle`. -/
def Gateway.settled (g : Gateway Tx) (i : Nat) (answer : Except JsString Answer) (now : Int) :
    Gateway Tx :=
  match g.settling[i]? with
  | none => g
  | some s =>
      let (status, detail) := conclude s.check answer
      match receiptFrames S cfg s status now with
      | .error _ => { g with halted := true }
      | .ok frames =>
          { g with
            done := g.done.set s.id { frames, at_ := now }
            settling := g.settling.eraseIdx i
            log := g.log ++
              [.payment s.id s.check status detail s.msg.length, .reply s.id frames now] }

/-- One turn of the timer's loop. -/
def Gateway.nackTurn (g : Gateway Tx) (id : JsString) (last now : Int) : Gateway Tx :=
  let prev := (g.nacks.get? id).getD { n := 0, at_ := 0 }
  if ((now - max last prev.at_ : Int) : ℚ) < cfg.nackAfterMs then g
  else
    let n := prev.n + 1
    if cfg.maxNacks < n then
      { g with parts := g.parts.delete id, nacks := g.nacks.delete id, log := g.log ++ [.gaveUp id] }
    else
      let missing := g.parts.missing id
      match split .nack (missing.map UInt8.ofNat) cfg.mtu (Hex.decode id) with
      | .error _ => { g with nacks := g.nacks.set id { n, at_ := now }, halted := true }
      | .ok frames =>
          { g with nacks := g.nacks.set id { n, at_ := now }, log := g.log ++ [.nack id missing frames] }

def Gateway.step (g : Gateway Tx) (ev : Event) : Gateway Tx :=
  if g.halted then g
  else match ev with
    | .frame raw now => g.onFrame S cfg raw now
    | .settled i answer now => g.settled S cfg i answer now
    | .nackTurn id last now => g.nackTurn cfg id last now
    | .sendFailed => { g with halted := true }

def Gateway.run (g : Gateway Tx) (events : List Event) : Gateway Tx := events.foldl (·.step S cfg) g

/-- The message a frame completes, if it is not a settled one's. -/
def Gateway.completes (g : Gateway Tx) (raw : Bytes) (now : Int) : Option JsString :=
  match (parse raw).filter Frame.isPayment with
  | none => none
  | some p =>
      if (g.done.get? p.id).isSome then none
      else match (g.parts.add S.toNode p now).1 with
        | some (.message _ id _) => some id
        | _ => none

end Program

/-! ## What is done for a message -/

/-- How often a message was broadcast. -/
def broadcasts {Tx : Type} (log : List (Output Tx)) (id : JsString) : Nat :=
  log.countP fun o => match o with
    | .broadcast id' _ => decide (id' = id)
    | _ => false

/-- A message is taken up, or answered. -/
def act? {Tx : Type} : Output Tx → Option (AnswerOnce.Act JsString (List Bytes))
  | .settle id => some (.called id)
  | .reply id frames _ => some (.answered id frames)
  | _ => none

/-- What is left of a gateway: the receipts on record, the messages being settled, and what was done. -/
def Gateway.abs {Tx : Type} (g : Gateway Tx) : AnswerOnce.State JsString (List Bytes) where
  done id := (g.done.get? id).map Done.frames
  pending := g.settling.map Settling.id
  history := g.log.filterMap act?

section Simulation

variable {Tx : Type} {S : Sdk Tx} {cfg : Config}

theorem done_set (m : JsMap JsString Done) (id : JsString) (d : Done) :
    (fun id' => ((m.set id d).get? id').map Done.frames) =
      Function.update (fun id' => (m.get? id').map Done.frames) id (some d.frames) := by
  funext id'
  by_cases h : id' = id
  · rw [h, JsMap.get?_set_self, Function.update_self]
    rfl
  · rw [JsMap.get?_set_ne _ h, Function.update_of_ne h]

theorem sent_cases (id : JsString) (tx : Option Tx) (check : Checked) :
    sent id tx check = [] ∨ ∃ tx', sent id tx check = [.broadcast id tx'] := by
  unfold sent
  cases tx with
  | none => exact Or.inl rfl
  | some tx =>
      cases check.ok with
      | false => exact Or.inl rfl
      | true => exact Or.inr ⟨tx, rfl⟩

theorem acts_sent (id : JsString) (tx : Option Tx) (check : Checked) :
    (sent id tx check).filterMap act? = [] := by
  rcases sent_cases id tx check with h | ⟨tx, h⟩
  · rw [h]
    rfl
  · rw [h]
    rfl

/-- Taking up a payment is a call for a message that is not on record. -/
theorem abs_settle (g : Gateway Tx) (type : FrameType) (id : JsString) (msg : Bytes)
    (hnew : g.done.get? id = none) :
    (g.settle S type id msg).abs = AnswerOnce.step g.abs (.arrive id) := by
  have hnone : g.abs.done id = none := by
    show (g.done.get? id).map Done.frames = none
    rw [hnew]
    rfl
  rw [AnswerOnce.step, hnone]
  unfold Gateway.settle
  dsimp only [Gateway.abs]
  have hacts : (Output.settle id :: sent id (judge S type msg).1 (judge S type msg).2).filterMap act? =
      [.called id] := congrArg (AnswerOnce.Act.called id :: ·) (acts_sent ..)
  rw [List.map_append, List.filterMap_append, hacts]
  rfl

/-- What is logged beside settling and answering does not show. -/
theorem acts_aside (log : List (Output Tx)) {o : Output Tx} (h : act? o = none) :
    (log ++ [o]).filterMap act? = log.filterMap act? := by
  rw [List.filterMap_append, List.filterMap_cons, h, List.filterMap_nil, List.append_nil]

variable (S) in
/-- No payment is completed that is being settled. -/
def Gateway.Apart (g : Gateway Tx) : Event → Prop
  | .frame raw now => ∀ id, g.completes S raw now = some id → id ∉ g.settling.map Settling.id
  | _ => True

theorem abs_assemble (g : Gateway Tx) (p : Frame) (now : Int) (hnew : g.done.get? p.id = none) :
    (g.assemble S p now).abs = g.abs ∨
      (∃ type msg, (g.parts.add S.toNode p now).1 = some (.message type p.id msg)) ∧
        (g.assemble S p now).abs = AnswerOnce.step g.abs (.arrive p.id) := by
  unfold Gateway.assemble
  have hid := fun whole => @Parts.add_id S.toNode g.parts p now whole
  rcases hadd : g.parts.add S.toNode p now with ⟨whole, parts⟩
  rw [hadd] at hid
  cases whole with
  | none => exact Or.inl rfl
  | some whole =>
      cases whole with
      | corrupt type id =>
          refine Or.inl ?_
          dsimp only [Gateway.abs]
          rw [acts_aside _ rfl]
      | message type id msg =>
          have hp : id = p.id := hid (.message type id msg) rfl
          subst hp
          exact Or.inr ⟨⟨type, msg, rfl⟩,
            abs_settle { g with parts } type p.id msg hnew⟩

/-- **A step of the gateway is a step of the abstract machine, or none**, and one that completes no
payment being settled is apart there. -/
theorem abs_step (g : Gateway Tx) (ev : Event) : ∃ evs,
    (g.step S cfg ev).abs = AnswerOnce.run g.abs evs ∧
      (g.Apart S ev → AnswerOnce.Calm g.abs evs) := by
  unfold Gateway.step
  split
  · exact ⟨[], rfl, fun _ => trivial⟩
  · cases ev with
    | frame raw now =>
        dsimp only
        unfold Gateway.onFrame
        cases hp : (parse raw).filter Frame.isPayment with
        | none => exact ⟨[], rfl, fun _ => trivial⟩
        | some p =>
            dsimp only
            cases hd : g.done.get? p.id with
            | some d =>
                have hdone : g.abs.done p.id = some d.frames := by
                  show (g.done.get? p.id).map Done.frames = _
                  rw [hd]
                  rfl
                dsimp only
                split
                · exact ⟨[], rfl, fun _ => trivial⟩
                · -- the entry keeps its frames, and only their time is new
                  refine ⟨[.arrive p.id], ?_, fun _ => ⟨fun h => ?_, trivial⟩⟩
                  · show _ = AnswerOnce.step g.abs (.arrive p.id)
                    rw [AnswerOnce.step, hdone]
                    dsimp only [Gateway.abs]
                    rw [done_set, List.filterMap_append]
                    congr 1
                    rw [← hdone]
                    exact Function.update_eq_self p.id g.abs.done
                  · rw [hdone] at h
                    cases h
            | none =>
                rcases abs_assemble (S := S) g p now hd with hsame | ⟨⟨type, msg, hadd⟩, harrive⟩
                · exact ⟨[], hsame, fun _ => trivial⟩
                · refine ⟨[.arrive p.id], harrive, fun hapart => ⟨fun _ => ?_, trivial⟩⟩
                  apply hapart p.id
                  unfold Gateway.completes
                  simp only [hp, hd, Option.isSome_none, Bool.false_eq_true, if_false, hadd]
    | settled i answer now =>
        dsimp only
        unfold Gateway.settled
        cases hi : g.settling[i]? with
        | none => exact ⟨[], rfl, fun _ => trivial⟩
        | some s =>
            dsimp only
            cases receiptFrames S cfg s (conclude s.check answer).1 now with
            | error e => exact ⟨[], rfl, fun _ => trivial⟩
            | ok frames =>
                refine ⟨[.finish i frames], ?_, fun _ => ⟨trivial, trivial⟩⟩
                have hpending : g.abs.pending[i]? = some s.id := by
                  show (g.settling.map Settling.id)[i]? = _
                  rw [List.getElem?_map, hi]
                  rfl
                show _ = AnswerOnce.step g.abs (.finish i frames)
                rw [AnswerOnce.step, hpending]
                dsimp only [Gateway.abs]
                rw [done_set, List.filterMap_append, List.eraseIdx_map]
                rfl
    | nackTurn id last now =>
        refine ⟨[], ?_, fun _ => trivial⟩
        dsimp only
        unfold Gateway.nackTurn
        dsimp only
        split
        · rfl
        · split
          · exact congrArg (AnswerOnce.State.mk _ _) (acts_aside _ rfl)
          · split
            · rfl
            · exact congrArg (AnswerOnce.State.mk _ _) (acts_aside _ rfl)
    | sendFailed => exact ⟨[], rfl, fun _ => trivial⟩

/-! ## Runs -/

variable (S cfg) in
/-- Every step of the run is apart. -/
def Gateway.Calm : Gateway Tx → List Event → Prop
  | _, [] => True
  | g, ev :: rest => g.Apart S ev ∧ Gateway.Calm (g.step S cfg ev) rest

theorem abs_run {events : List Event} : ∀ {g : Gateway Tx}, g.Calm S cfg events → ∃ evs,
    (g.run S cfg events).abs = AnswerOnce.run g.abs evs ∧ AnswerOnce.Calm g.abs evs := by
  induction events with
  | nil => intro g _; exact ⟨[], rfl, trivial⟩
  | cons ev rest ih =>
      intro g hcalm
      obtain ⟨first, hfirst, hapart⟩ := @abs_step Tx S cfg g ev
      obtain ⟨later, hlater, hcalm'⟩ := ih hcalm.2
      rw [hfirst] at hlater hcalm'
      refine ⟨first ++ later, ?_, (hapart hcalm.1).append hcalm'⟩
      rw [AnswerOnce.run_append]
      exact hlater

theorem inv_run {events : List Event} (hcalm : Gateway.new.Calm S cfg events) :
    AnswerOnce.Inv ((Gateway.new.run S cfg events).abs) := by
  obtain ⟨evs, habs, hevs⟩ := abs_run hcalm
  rw [habs]
  exact AnswerOnce.Inv.run AnswerOnce.inv_new hevs

/-- How often a message was taken up. -/
def settles (log : List (Output Tx)) (id : JsString) : Nat :=
  log.countP fun o => match o with
    | .settle id' => decide (id' = id)
    | _ => false

theorem calls_abs (g : Gateway Tx) (id : JsString) :
    AnswerOnce.calls g.abs id = settles g.log id := by
  unfold AnswerOnce.calls settles
  dsimp only [Gateway.abs]
  rw [List.countP_filterMap]
  congr 1
  funext o
  cases o <;> rfl

theorem sent_backed (id : JsString) (tx : Option Tx) (check : Checked) (id' : JsString) :
    broadcasts (.settle id :: sent id tx check) id' ≤ settles (.settle id :: sent id tx check) id' := by
  rcases sent_cases id tx check with h | ⟨tx, h⟩
  · rw [h]
    exact Nat.zero_le _
  · rw [h]
    by_cases heq : id = id' <;> simp [broadcasts, settles, heq]

/-- A step logs something after what is logged, and a broadcast only with a payment taken up. -/
theorem log_step (g : Gateway Tx) (ev : Event) : ∃ outs, (g.step S cfg ev).log = g.log ++ outs ∧
    ∀ id, broadcasts outs id ≤ settles outs id := by
  have hnone : ∃ outs, g.log = g.log ++ outs ∧ ∀ id, broadcasts outs id ≤ settles outs id :=
    ⟨[], (List.append_nil _).symm, fun _ => le_rfl⟩
  unfold Gateway.step
  split
  · exact hnone
  · cases ev with
    | frame raw now =>
        dsimp only
        unfold Gateway.onFrame
        split
        · exact hnone
        · split
          · split
            · exact hnone
            · exact ⟨_, rfl, fun _ => le_rfl⟩
          · unfold Gateway.assemble
            dsimp only
            split
            · exact hnone
            · exact ⟨_, rfl, fun _ => le_rfl⟩
            · exact ⟨_, rfl, sent_backed _ _ _⟩
    | settled i answer now =>
        dsimp only
        unfold Gateway.settled
        split
        · exact hnone
        · dsimp only
          split
          · exact hnone
          · exact ⟨_, rfl, fun _ => le_rfl⟩
    | nackTurn id last now =>
        dsimp only
        unfold Gateway.nackTurn
        dsimp only
        split
        · exact hnone
        · split
          · exact ⟨_, rfl, fun _ => le_rfl⟩
          · split
            · exact hnone
            · exact ⟨_, rfl, fun _ => le_rfl⟩
    | sendFailed => exact hnone

/-- Every broadcast is of a payment that was taken up. -/
theorem broadcasts_le (events : List Event) (id : JsString) {g : Gateway Tx}
    (h : broadcasts g.log id ≤ settles g.log id) :
    broadcasts (g.run S cfg events).log id ≤ settles (g.run S cfg events).log id := by
  induction events generalizing g with
  | nil => exact h
  | cons ev rest ih =>
      apply ih
      obtain ⟨outs, hlog, houts⟩ := @log_step Tx S cfg g ev
      have houts := houts id
      unfold broadcasts settles at *
      rw [hlog, List.countP_append, List.countP_append]
      omega

/-- The receipt on record went out at the time on record. -/
def Gateway.Recorded (g : Gateway Tx) : Prop :=
  ∀ id d, g.done.get? id = some d → .reply id d.frames d.at_ ∈ g.log

theorem Recorded.keep {g g' : Gateway Tx} (h : g.Recorded) (hdone : g'.done = g.done)
    (hlog : g.log ⊆ g'.log) : g'.Recorded := by
  intro id d hd
  rw [hdone] at hd
  exact hlog (h id d hd)

theorem Recorded.reply {g g' : Gateway Tx} (h : g.Recorded) {id : JsString} {d : Done}
    (hdone : g'.done = g.done.set id d) (hlog : g.log ⊆ g'.log)
    (hreply : .reply id d.frames d.at_ ∈ g'.log) : g'.Recorded := by
  intro id' d' hd'
  rw [hdone] at hd'
  by_cases heq : id' = id
  · rw [heq, JsMap.get?_set_self, Option.some.injEq] at hd'
    rw [heq, ← hd']
    exact hreply
  · rw [JsMap.get?_set_ne _ heq] at hd'
    exact hlog (h id' d' hd')

theorem Recorded.step {g : Gateway Tx} (h : g.Recorded) (ev : Event) : (g.step S cfg ev).Recorded := by
  obtain ⟨outs, hlog, -⟩ := @log_step Tx S cfg g ev
  have hmono : g.log ⊆ (g.step S cfg ev).log := by
    rw [hlog]
    exact List.subset_append_left ..
  revert hmono
  clear hlog
  unfold Gateway.step
  split
  · exact fun _ => h
  · cases ev with
    | frame raw now =>
        dsimp only
        unfold Gateway.onFrame
        split
        · exact fun _ => h
        · split
          · split
            · exact fun _ => h
            · exact fun hmono => Recorded.reply h rfl hmono (by simp)
          · unfold Gateway.assemble
            dsimp only
            split
            · exact fun hmono => Recorded.keep h rfl hmono
            · exact fun hmono => Recorded.keep h rfl hmono
            · exact fun hmono => Recorded.keep h rfl hmono
    | settled i answer now =>
        dsimp only
        unfold Gateway.settled
        split
        · exact fun _ => h
        · dsimp only
          split
          · exact fun _ => h
          · exact fun hmono => Recorded.reply h rfl hmono (by simp)
    | nackTurn id last now =>
        dsimp only
        unfold Gateway.nackTurn
        dsimp only
        split
        · exact fun _ => h
        · split
          · exact fun hmono => Recorded.keep h rfl hmono
          · split
            · exact fun _ => h
            · exact fun hmono => Recorded.keep h rfl hmono
    | sendFailed => exact fun _ => h

theorem recorded_run (events : List Event) {g : Gateway Tx} (h : g.Recorded) :
    (g.run S cfg events).Recorded := by
  induction events generalizing g with
  | nil => exact h
  | cons ev rest ih => exact ih (Recorded.step h ev)

theorem recorded_new : (Gateway.new : Gateway Tx).Recorded := by
  intro id d h
  rw [Gateway.new, JsMap.get?_empty] at h
  cases h

/-! ## What a calm run keeps -/

theorem calm_front {front back : List Event} : ∀ {g : Gateway Tx},
    g.Calm S cfg (front ++ back) → g.Calm S cfg front := by
  induction front with
  | nil => intro _ _; trivial
  | cons ev rest ih => intro g h; exact ⟨h.1, ih h.2⟩

/-- **Calm, a message is broadcast at most once.** -/
theorem broadcasts_once {events : List Event} (hcalm : Gateway.new.Calm S cfg events) (id : JsString) :
    broadcasts (Gateway.new.run S cfg events).log id ≤ 1 := by
  have hsettles := (inv_run hcalm).once id
  rw [calls_abs] at hsettles
  have hle := @broadcasts_le Tx S cfg events id Gateway.new le_rfl
  omega

theorem answered_abs {g : Gateway Tx} {id : JsString} {frames : List Bytes} {now : Int}
    (h : .reply id frames now ∈ g.log) : .answered id frames ∈ g.abs.history :=
  List.mem_filterMap.mpr ⟨_, h, rfl⟩

/-- **Calm, a frame of a settled message gets its receipt**: it goes out again, unless it went out less
than half `nackAfterMs` before. -/
theorem repeat_answered {events : List Event} (hcalm : Gateway.new.Calm S cfg events)
    (hup : (Gateway.new.run S cfg events).halted = false) {raw : Bytes} {now : Int} {p : Frame}
    (hp : (parse raw).filter Frame.isPayment = some p) {frames : List Bytes} {t : Int}
    (hreply : .reply p.id frames t ∈ (Gateway.new.run S cfg events).log) :
    ((Gateway.new.run S cfg events).step S cfg (.frame raw now)).log =
        (Gateway.new.run S cfg events).log ++ [.reply p.id frames now] ∨
      ∃ t', .reply p.id frames t' ∈ (Gateway.new.run S cfg events).log ∧
        ((now - t' : Int) : ℚ) < cfg.nackAfterMs / 2 := by
  have hrec := @recorded_run Tx S cfg events _ recorded_new
  have hanswer := (inv_run hcalm).answers p.id frames (answered_abs hreply)
  generalize Gateway.new.run S cfg events = g at *
  obtain ⟨d, hd, hframes⟩ := Option.map_eq_some_iff.mp hanswer
  unfold Gateway.step
  rw [if_neg (by rw [hup]; exact Bool.false_ne_true)]
  dsimp only
  unfold Gateway.onFrame
  rw [hp]
  dsimp only
  rw [hd]
  dsimp only
  split
  · rename_i hburst
    exact Or.inr ⟨d.at_, hframes ▸ hrec p.id d hd, hburst⟩
  · exact Or.inl (by rw [hframes])

end Simulation

end DtnCustody.Radio
