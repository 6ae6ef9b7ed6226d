/-
# DtnCustody.Radio.SmsGateway — `smsGateway` of `radio/sms/gateway.mjs` as a machine over its texts.

As for the radio, a text is handled up to the broadcast in one stretch and from there in another. The
caller awaits the answer, so an exception after the broadcast reaches the caller and nothing is recorded;
only a receipt whose time does not fit four bytes makes one.

`broadcast_once` is about both gateways, over all runs of their callbacks: in a run in which no payment is
completed while it is being settled, every message is broadcast at most once and a repeat of a settled one
gets the receipt it had. `repeat_overtakes` is the run that this leaves out: the second copy comes before
the broadcaster has answered, finds no receipt on record, and is broadcast too.
-/
import DtnCustody.Js.Sample
import DtnCustody.Radio.Gateway
import DtnCustody.Radio.Text

namespace DtnCustody.Radio

open Base Js

namespace Sms

/-- A text whose broadcast is awaited, and who sent it. -/
structure Awaited where
  sender : JsString
  settling : Settling

inductive Output (Tx : Type) where
  | ignored (sender : JsString)
  | part (sender id : JsString)
  | corrupt (sender id text : JsString)
  /-- A settled payment came again, and `text` is the answer. -/
  | again (sender id text : JsString)
  | settle (id : JsString)
  | broadcast (id : JsString) (tx : Tx)
  /-- The payment is settled, and `text` is the answer. -/
  | payment (sender id text : JsString) (check : Checked) (status : Status) (detail : Option JsString)
  | threw (sender id : JsString)

structure Gateway (Tx : Type) where
  parts : Texts
  done : JsMap JsString JsString
  awaited : List Awaited
  log : List (Output Tx)

def Gateway.new {Tx : Type} : Gateway Tx :=
  { parts := JsMap.empty, done := JsMap.empty, awaited := [], log := [] }

inductive Event where
  | text (sender : JsString) (body : Option JsString) (now : Int)
  | settled (i : Nat) (answer : Except JsString Answer) (now : Int)

def sent {Tx : Type} (id : JsString) (tx : Option Tx) (check : Checked) : List (Output Tx) :=
  match tx with
  | some tx => if check.ok then [.broadcast id tx] else []
  | none => []

/-- The answer to a payment. -/
def replyText (status : Status) (detail : Option JsString) (txid : JsString) (receipt : Bytes) :
    JsString :=
  receiptText status.name txid receipt ++
    if status = .rejected then js "\nwhy: " ++ (detail.getD (js "undefined")).take 80 else []

section Program

variable {Tx : Type} (S : Sdk Tx)

def Gateway.settle (g : Gateway Tx) (sender : JsString) (type : FrameType) (id : JsString)
    (msg : Bytes) : Gateway Tx :=
  let (tx, check) := judge S type msg
  { g with
    awaited := g.awaited ++ [{ sender, settling := { type, id, msg, check } }]
    log := g.log ++ .settle id :: sent id tx check }

/-- `handle(from, body)`, up to the broadcast. -/
def Gateway.handle (g : Gateway Tx) (sender : JsString) (body : Option JsString) (now : Int) :
    Gateway Tx :=
  match parseText body with
  | none => { g with log := g.log ++ [.ignored sender] }
  | some p =>
      let (whole, parts) := g.parts.add S.toNode sender p now
      let g := { g with parts }
      match whole with
      | none => { g with log := g.log ++ [.part sender (match p with | .part _ _ _ id _ => id | _ => [])] }
      | some (.corrupt _ id) =>
          { g with log := g.log ++ [.corrupt sender id (js "BSV ERROR parts of " ++ id ++
              js " do not match; send the payment again")] }
      | some (.message type id msg) =>
          match g.done.get? id with
          | some text => { g with log := g.log ++ [.again sender id text] }
          | none => g.settle S sender type id msg

/-- `handle` from the answer of the broadcaster on. -/
def Gateway.settled (g : Gateway Tx) (i : Nat) (answer : Except JsString Answer) (now : Int) :
    Gateway Tx :=
  match g.awaited[i]? with
  | none => g
  | some a =>
      let s := a.settling
      let (status, detail) := conclude s.check answer
      match signReceipt S s.check.txid status now (Hex.decode s.id) with
      | .error _ =>
          { g with awaited := g.awaited.eraseIdx i, log := g.log ++ [.threw a.sender s.id] }
      | .ok receipt =>
          let text := replyText status detail s.check.txid receipt
          { g with
            done := g.done.set s.id text
            awaited := g.awaited.eraseIdx i
            log := g.log ++ [.payment a.sender s.id text s.check status detail] }

def Gateway.step (g : Gateway Tx) : Event → Gateway Tx
  | .text sender body now => g.handle S sender body now
  | .settled i answer now => g.settled S i answer now

def Gateway.run (g : Gateway Tx) (events : List Event) : Gateway Tx := events.foldl (·.step S) g

/-- The message a text completes. -/
def Gateway.completes (g : Gateway Tx) (sender : JsString) (body : Option JsString) (now : Int) :
    Option JsString :=
  match parseText body with
  | none => none
  | some p =>
      match (g.parts.add S.toNode sender p now).1 with
      | some (.message _ id _) => some id
      | _ => none

/-- A time in milliseconds whose seconds can be written in a receipt. -/
def Writable (now : Int) : Prop := 0 ≤ now / 1000 ∧ now / 1000 < 4294967296

/-- No payment is completed that is being settled, and a payment is settled at a time that a receipt can
hold. -/
def Gateway.Apart (g : Gateway Tx) : Event → Prop
  | .text sender body now =>
      ∀ id, g.completes S sender body now = some id → g.done.get? id = none →
        id ∉ g.awaited.map fun a => a.settling.id
  | .settled _ _ now => Writable now

/-- Every step of the run is apart. -/
def Gateway.Calm : Gateway Tx → List Event → Prop
  | _, [] => True
  | g, ev :: rest => g.Apart S ev ∧ Gateway.Calm (g.step S ev) rest

end Program

/-! ## What is done for a message -/

def broadcasts {Tx : Type} (log : List (Output Tx)) (id : JsString) : Nat :=
  log.countP fun o => match o with
    | .broadcast id' _ => decide (id' = id)
    | _ => false

def settles {Tx : Type} (log : List (Output Tx)) (id : JsString) : Nat :=
  log.countP fun o => match o with
    | .settle id' => decide (id' = id)
    | _ => false

/-- A payment is taken up, or answered. -/
def act? {Tx : Type} : Output Tx → Option (AnswerOnce.Act JsString JsString)
  | .settle id => some (.called id)
  | .payment _ id text _ _ _ => some (.answered id text)
  | .again _ id text => some (.answered id text)
  | _ => none

def Gateway.abs {Tx : Type} (g : Gateway Tx) : AnswerOnce.State JsString JsString where
  done id := g.done.get? id
  pending := g.awaited.map fun a => a.settling.id
  history := g.log.filterMap act?

section Simulation

variable {Tx : Type} {S : Sdk Tx}

theorem done_set (m : JsMap JsString JsString) (id text : JsString) :
    (fun id' => (m.set id text).get? id') = Function.update (fun id' => m.get? id') id (some text) := by
  funext id'
  by_cases h : id' = id
  · rw [h, JsMap.get?_set_self, Function.update_self]
  · rw [JsMap.get?_set_ne _ h, Function.update_of_ne h]

theorem acts_aside (log : List (Output Tx)) {o : Output Tx} (h : act? o = none) :
    (log ++ [o]).filterMap act? = log.filterMap act? := by
  rw [List.filterMap_append, List.filterMap_cons, h, List.filterMap_nil, List.append_nil]

theorem sent_cases (id : JsString) (tx : Option Tx) (check : Checked) :
    sent id tx check = [] ∨ ∃ tx', sent id tx check = [.broadcast id tx'] := by
  unfold sent
  cases tx with
  | none => exact Or.inl rfl
  | some tx =>
      cases check.ok with
      | false => exact Or.inl rfl
      | true => exact Or.inr ⟨tx, rfl⟩

theorem acts_sent (id : JsString) (tx : Option Tx) (check : Checked) :
    (sent id tx check).filterMap act? = [] := by
  rcases sent_cases id tx check with h | ⟨tx, h⟩
  · rw [h]
    rfl
  · rw [h]
    rfl

theorem sent_backed (id : JsString) (tx : Option Tx) (check : Checked) (id' : JsString) :
    broadcasts (.settle id :: sent id tx check) id' ≤ settles (.settle id :: sent id tx check) id' := by
  rcases sent_cases id tx check with h | ⟨tx, h⟩
  · rw [h]
    exact Nat.zero_le _
  · rw [h]
    by_cases heq : id = id' <;> simp [broadcasts, settles, heq]

theorem abs_settle (g : Gateway Tx) (sender : JsString) (type : FrameType) (id : JsString) (msg : Bytes)
    (hnew : g.done.get? id = none) :
    (g.settle S sender type id msg).abs = AnswerOnce.step g.abs (.arrive id) := by
  have hnone : g.abs.done id = none := hnew
  rw [AnswerOnce.step, hnone]
  unfold Gateway.settle
  dsimp only [Gateway.abs]
  have hacts : (Output.settle id :: sent id (judge S type msg).1 (judge S type msg).2).filterMap act? =
      [.called id] := congrArg (AnswerOnce.Act.called id :: ·) (acts_sent ..)
  rw [List.map_append, List.filterMap_append, hacts]
  rfl

theorem signReceipt_returns {txid : JsString} {status : Status} {now : Int} {id : Bytes}
    (h : Writable now) : ∃ receipt, signReceipt S txid status now id = .ok receipt := by
  refine ⟨_, if_neg ?_⟩
  unfold Writable at h
  omega

/-- **A step of the gateway that is apart is a step of the abstract machine, or none.** -/
theorem abs_step (g : Gateway Tx) (ev : Event) (hapart : g.Apart S ev) : ∃ evs,
    (g.step S ev).abs = AnswerOnce.run g.abs evs ∧ AnswerOnce.Calm g.abs evs := by
  cases ev with
  | text sender body now =>
      have hapart : ∀ id, g.completes S sender body now = some id → g.done.get? id = none →
          id ∉ g.awaited.map fun a => a.settling.id := hapart
      unfold Gateway.completes at hapart
      show ∃ evs, (g.handle S sender body now).abs = _ ∧ _
      unfold Gateway.handle
      cases hp : parseText body with
      | none =>
          exact ⟨[], congrArg (AnswerOnce.State.mk _ _) (acts_aside _ rfl), trivial⟩
      | some p =>
          rw [hp] at hapart
          dsimp only at hapart ⊢
          generalize g.parts.add S.toNode sender p now = added at hapart ⊢
          rcases added with ⟨whole, parts⟩
          dsimp only at hapart ⊢
          cases whole with
          | none => exact ⟨[], congrArg (AnswerOnce.State.mk _ _) (acts_aside _ rfl), trivial⟩
          | some whole =>
              cases whole with
              | corrupt type id =>
                  exact ⟨[], congrArg (AnswerOnce.State.mk _ _) (acts_aside _ rfl), trivial⟩
              | message type id msg =>
                  refine ⟨[.arrive id], ?_, ⟨fun hnew => hapart id rfl hnew, trivial⟩⟩
                  dsimp only
                  cases hd : g.done.get? id with
                  | none => exact abs_settle { g with parts } sender type id msg hd
                  | some text =>
                      have hdone : g.abs.done id = some text := hd
                      show _ = AnswerOnce.step g.abs (.arrive id)
                      rw [AnswerOnce.step, hdone]
                      dsimp only [Gateway.abs]
                      rw [List.filterMap_append]
                      rfl
  | settled i answer now =>
      show ∃ evs, (g.settled S i answer now).abs = _ ∧ _
      unfold Gateway.settled
      cases hi : g.awaited[i]? with
      | none => exact ⟨[], rfl, trivial⟩
      | some a =>
          dsimp only
          obtain ⟨receipt, hreceipt⟩ := @signReceipt_returns Tx S a.settling.check.txid
            (conclude a.settling.check answer).1 now (Hex.decode a.settling.id) hapart
          rw [hreceipt]
          dsimp only
          refine ⟨[.finish i (replyText (conclude a.settling.check answer).1
            (conclude a.settling.check answer).2 a.settling.check.txid receipt)], ?_, trivial, trivial⟩
          have hpending : g.abs.pending[i]? = some a.settling.id := by
            show (g.awaited.map fun a => a.settling.id)[i]? = _
            rw [List.getElem?_map, hi]
            rfl
          show _ = AnswerOnce.step g.abs (.finish i _)
          rw [AnswerOnce.step, hpending]
          dsimp only [Gateway.abs]
          rw [done_set, List.filterMap_append, List.eraseIdx_map]
          rfl

/-! ## Runs -/

theorem abs_run {events : List Event} : ∀ {g : Gateway Tx}, g.Calm S events → ∃ evs,
    (g.run S events).abs = AnswerOnce.run g.abs evs ∧ AnswerOnce.Calm g.abs evs := by
  induction events with
  | nil => intro g _; exact ⟨[], rfl, trivial⟩
  | cons ev rest ih =>
      intro g hcalm
      obtain ⟨first, hfirst, hcalm₁⟩ := abs_step (S := S) g ev hcalm.1
      obtain ⟨later, hlater, hcalm₂⟩ := ih hcalm.2
      rw [hfirst] at hlater hcalm₂
      refine ⟨first ++ later, ?_, hcalm₁.append hcalm₂⟩
      rw [AnswerOnce.run_append]
      exact hlater

theorem inv_run {events : List Event} (hcalm : Gateway.new.Calm S events) :
    AnswerOnce.Inv ((Gateway.new.run S events).abs) := by
  obtain ⟨evs, habs, hevs⟩ := abs_run hcalm
  rw [habs]
  exact AnswerOnce.Inv.run AnswerOnce.inv_new hevs

theorem calls_abs (g : Gateway Tx) (id : JsString) :
    AnswerOnce.calls g.abs id = settles g.log id := by
  unfold AnswerOnce.calls settles
  dsimp only [Gateway.abs]
  rw [List.countP_filterMap]
  congr 1
  funext o
  cases o <;> rfl

theorem log_step (g : Gateway Tx) (ev : Event) : ∃ outs, (g.step S ev).log = g.log ++ outs ∧
    ∀ id, broadcasts outs id ≤ settles outs id := by
  cases ev with
  | text sender body now =>
      unfold Gateway.step Gateway.handle
      dsimp only
      split
      · exact ⟨_, rfl, fun _ => le_rfl⟩
      · split
        · exact ⟨_, rfl, fun _ => le_rfl⟩
        · exact ⟨_, rfl, fun _ => le_rfl⟩
        · split
          · exact ⟨_, rfl, fun _ => le_rfl⟩
          · exact ⟨_, rfl, sent_backed _ _ _⟩
  | settled i answer now =>
      unfold Gateway.step Gateway.settled
      dsimp only
      split
      · exact ⟨[], (List.append_nil _).symm, fun _ => le_rfl⟩
      · split
        · exact ⟨_, rfl, fun _ => le_rfl⟩
        · exact ⟨_, rfl, fun _ => le_rfl⟩

theorem broadcasts_le (events : List Event) (id : JsString) {g : Gateway Tx}
    (h : broadcasts g.log id ≤ settles g.log id) :
    broadcasts (g.run S events).log id ≤ settles (g.run S events).log id := by
  induction events generalizing g with
  | nil => exact h
  | cons ev rest ih =>
      apply ih
      obtain ⟨outs, hlog, houts⟩ := log_step (S := S) g ev
      have houts := houts id
      unfold broadcasts settles at *
      rw [hlog, List.countP_append, List.countP_append]
      omega

/-! ## What a calm run keeps -/

/-- **Calm, a message is broadcast at most once.** -/
theorem broadcasts_once {events : List Event} (hcalm : Gateway.new.Calm S events) (id : JsString) :
    broadcasts (Gateway.new.run S events).log id ≤ 1 := by
  have hsettles := (inv_run hcalm).once id
  rw [calls_abs] at hsettles
  have hle := broadcasts_le (S := S) events id (g := Gateway.new) le_rfl
  omega

/-- **Calm, a settled payment that is complete again gets the answer it got.** -/
theorem repeat_answered {events : List Event} (hcalm : Gateway.new.Calm S events) {sender : JsString}
    {body : Option JsString} {now : Int} {id : JsString}
    (hcompletes : (Gateway.new.run S events).completes S sender body now = some id) {text : JsString}
    (hanswered : .answered id text ∈ (Gateway.new.run S events).abs.history) :
    ((Gateway.new.run S events).step S (.text sender body now)).log =
      (Gateway.new.run S events).log ++ [.again sender id text] := by
  have hdone := (inv_run hcalm).answers id text hanswered
  generalize Gateway.new.run S events = g at *
  have hdone : g.done.get? id = some text := hdone
  unfold Gateway.completes at hcompletes
  unfold Gateway.step Gateway.handle
  dsimp only
  split at hcompletes
  · cases hcompletes
  · split at hcompletes
    · rename_i type id' msg hwhole
      cases hcompletes
      rw [hwhole]
      dsimp only
      rw [hdone]
    · cases hcompletes

end Simulation

end Sms

end DtnCustody.Radio

namespace DtnCustody.Radio

open Base Js

/-! ## A payment is broadcast once -/

/-- A frame of a settled payment gets the receipt it had: at once, or less than half `nackAfterMs` ago. -/
def RepeatsAnswered {Tx : Type} (S : Sdk Tx) (cfg : Config) (events : List Event) : Prop :=
  ∀ front raw now back, events = front ++ .frame raw now :: back →
    (Gateway.new.run S cfg front).halted = false →
      ∀ p, (parse raw).filter Frame.isPayment = some p →
        ∀ frames t, .reply p.id frames t ∈ (Gateway.new.run S cfg front).log →
          ((Gateway.new.run S cfg front).step S cfg (.frame raw now)).log =
              (Gateway.new.run S cfg front).log ++ [.reply p.id frames now] ∨
            ∃ t', .reply p.id frames t' ∈ (Gateway.new.run S cfg front).log ∧
              ((now - t' : Int) : ℚ) < cfg.nackAfterMs / 2

/-- A settled payment that is complete again gets the answer it had. -/
def Sms.RepeatsAnswered {Tx : Type} (S : Sdk Tx) (events : List Sms.Event) : Prop :=
  ∀ front sender body now back, events = front ++ .text sender body now :: back →
    ∀ id, (Gateway.new.run S front).completes S sender body now = some id →
      ∀ sender' text check status detail,
        .payment sender' id text check status detail ∈ (Gateway.new.run S front).log →
          ((Gateway.new.run S front).step S (.text sender body now)).log =
            (Gateway.new.run S front).log ++ [.again sender id text]

theorem Sms.calm_front {Tx : Type} {S : Sdk Tx} {front back : List Sms.Event} :
    ∀ {g : Sms.Gateway Tx}, g.Calm S (front ++ back) → g.Calm S front := by
  induction front with
  | nil => intro _ _; trivial
  | cons ev rest ih => intro g h; exact ⟨h.1, ih h.2⟩

/-- **A payment is broadcast at most once per gateway**, and a repeat gets the same receipt, in every run
in which no payment is completed that is being settled. -/
theorem broadcast_once {Tx : Type} (S : Sdk Tx) (cfg : Config) (frames : List Event)
    (texts : List Sms.Event) (hframes : Gateway.new.Calm S cfg frames)
    (htexts : Sms.Gateway.new.Calm S texts) :
    ((∀ id, broadcasts (Gateway.new.run S cfg frames).log id ≤ 1) ∧ RepeatsAnswered S cfg frames) ∧
      (∀ id, Sms.broadcasts (Sms.Gateway.new.run S texts).log id ≤ 1) ∧
        Sms.RepeatsAnswered S texts := by
  refine ⟨⟨broadcasts_once hframes, ?_⟩, Sms.broadcasts_once htexts, ?_⟩
  · rintro front raw now back rfl hup p hp receipt t hreply
    exact repeat_answered (calm_front hframes) hup hp hreply
  · rintro front sender body now back rfl id hcompletes sender' text check status detail hpayment
    apply Sms.repeat_answered (Sms.calm_front htexts) hcompletes
    exact List.mem_filterMap.mpr ⟨_, hpayment, rfl⟩

/-! ## One payment, twice -/

instance Gateway.decidableApart {Tx : Type} (S : Sdk Tx) (g : Gateway Tx) (ev : Event) :
    Decidable (g.Apart S ev) :=
  match ev with
  | .frame raw now => inferInstanceAs
      (Decidable (∀ id ∈ g.completes S raw now, id ∉ g.settling.map Settling.id))
  | .settled .. => .isTrue trivial
  | .nackTurn .. => .isTrue trivial
  | .sendFailed => .isTrue trivial

instance Gateway.decidableCalm {Tx : Type} (S : Sdk Tx) (cfg : Config) :
    (events : List Event) → (g : Gateway Tx) → Decidable (g.Calm S cfg events)
  | [], _ => .isTrue trivial
  | ev :: rest, g =>
      have := decidableCalm S cfg rest (g.step S cfg ev)
      inferInstanceAs (Decidable (g.Apart S ev ∧ (g.step S cfg ev).Calm S cfg rest))

instance Sms.Gateway.decidableApart {Tx : Type} (S : Sdk Tx) (g : Sms.Gateway Tx) (ev : Sms.Event) :
    Decidable (g.Apart S ev) :=
  match ev with
  | .text sender body now => inferInstanceAs
      (Decidable (∀ id ∈ g.completes S sender body now, g.done.get? id = none →
        id ∉ g.awaited.map fun a => a.settling.id))
  | .settled _ _ now => inferInstanceAs (Decidable (0 ≤ now / 1000 ∧ now / 1000 < 4294967296))

instance Sms.Gateway.decidableCalm {Tx : Type} (S : Sdk Tx) :
    (events : List Sms.Event) → (g : Sms.Gateway Tx) → Decidable (g.Calm S events)
  | [], _ => .isTrue trivial
  | ev :: rest, g =>
      have := decidableCalm S rest (g.step S ev)
      inferInstanceAs (Decidable (g.Apart S ev ∧ (g.step S ev).Calm S rest))

/-- One transaction, with one input and one output, that always checks. -/
def sampleSdk : Sdk Unit where
  toNode := sampleNode
  fromEF _ := .ok ()
  fromBEEF _ := .error (js "not BEEF")
  txid _ := List.replicate 64 49
  inputs _ := [some { satoshis := .fin 10, script := [] }]
  outputs _ := [{ satoshis := .fin 9, script := [] }]
  validate _ _ := .ok true
  gatewayPub := List.replicate 33 2
  signDER digest := digest.take 8

def samplePayment : Bytes := [1, 2, 3, 4, 5, 6, 7, 8]

/-- The payment in one frame. -/
def sampleFrame : Bytes :=
  frameAt .payEf samplePayment (messageId sampleNode samplePayment) 187 1 0

/-- The payment in one text. -/
def sampleText : Option JsString := some (js "BSV1 E AQIDBAUGBwg=")

def sampleAnswer : Except JsString Answer := .ok { ok := true, sent := true, detail := [] }

/-- A repeat after the answer of the broadcaster. -/
theorem broadcast_once_sample :
    let frames : List Event := [.frame sampleFrame 0, .settled 0 sampleAnswer 10, .frame sampleFrame 2000]
    let texts : List Sms.Event := [.text (js "+1") sampleText 0, .settled 0 sampleAnswer 10,
      .text (js "+1") sampleText 2000]
    ((∀ id, broadcasts (Gateway.new.run sampleSdk {} frames).log id ≤ 1) ∧
        RepeatsAnswered sampleSdk {} frames) ∧
      (∀ id, Sms.broadcasts (Sms.Gateway.new.run sampleSdk texts).log id ≤ 1) ∧
        Sms.RepeatsAnswered sampleSdk texts :=
  broadcast_once sampleSdk {} _ _ (by decide +kernel) (by decide +kernel)

/-- **A repeat before the answer of the broadcaster is broadcast again**, by frames and by texts. -/
theorem repeat_overtakes :
    let id := Hex.encode (messageId sampleNode samplePayment)
    broadcasts (Gateway.new.run sampleSdk {} [.frame sampleFrame 0, .frame sampleFrame 2000]).log id = 2 ∧
      Sms.broadcasts (Sms.Gateway.new.run sampleSdk
        [.text (js "+1") sampleText 0, .text (js "+1") sampleText 2000]).log id = 2 := by
  decide +kernel

end DtnCustody.Radio
