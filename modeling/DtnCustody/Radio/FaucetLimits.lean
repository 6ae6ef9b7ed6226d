/-
# DtnCustody.Radio.FaucetLimits — what the limits of the faucet come to, over stops and restarts.

The ledger never has one coin twice, whatever happens. The limits are counted off the ledger, so they
bind the payments that the network took only as far as these are on the ledger, and under one name each:
a payment that was taken and reported as an error, or cut off before its line was whole, is not counted,
and a device key written in other letters is another claimant.
-/
import DtnCustody.Base.Journal
import DtnCustody.Radio.Faucet
import DtnCustody.Radio.SmsGateway

namespace DtnCustody.Radio

open Base Js

namespace Faucet

/-! ## What a claim is granted on -/

/-- A coin that is free is in no record. -/
theorem freeCoin_fresh {records : List Record} {count coin : Nat}
    (h : freeCoin records count = some coin) : ∀ r ∈ records, r.coin ≠ coin := by
  intro r hr heq
  have hfree := List.find?_some h
  rw [Bool.not_eq_true', List.any_eq_false] at hfree
  exact hfree r hr (decide_eq_true heq)

section Program

variable {Tx Key : Type} (S : FaucetSdk Tx Key) (cfg : Config)

structure Grounds (records : List Record) (sender : JsString) (body : Option JsString)
    (g : Granted Tx Key) (c : Claim) : Prop where
  parsed : parseClaim S cfg body = some c
  claimant : claimantOf S sender c = some g.claimant
  who : g.who = whoOf sender c
  senderRoom : countWho records g.who < cfg.perSender
  addressRoom : countTo records g.to_ < cfg.perAddress
  free : freeCoin records cfg.count = some g.coin

theorem grant_grounds {records : List Record} {sender : JsString} {body : Option JsString}
    {g : Granted Tx Key} (h : grant S cfg records sender body = some g) :
    ∃ c, Grounds S cfg records sender body g c := by
  unfold grant at h
  obtain ⟨c, hc, h⟩ := Option.bind_eq_some_iff.mp h
  obtain ⟨claimant, hclaimant, h⟩ := Option.bind_eq_some_iff.mp h
  dsimp only at h
  split at h
  · cases h
  · next hroom =>
    obtain ⟨coin, hcoin, h⟩ := Option.bind_eq_some_iff.mp h
    obtain ⟨tx, -, h⟩ := Option.bind_eq_some_iff.mp h
    cases h
    rw [not_or, Nat.not_le, Nat.not_le] at hroom
    exact ⟨c, hc, hclaimant, rfl, hroom.1, hroom.2, hcoin⟩

/-! ## One step -/

/-- The answer is ok and the record is in the file. -/
def Course.onRecord (course : Course) : Bool :=
  match course.answer with
  | some (.ok b) => b.ok && course.written.whole
  | _ => false

/-- What a step does: it starts, it stops, it leaves everything as it is, or it settles a claim. -/
inductive Steps (s : State Key) : Event → State Key → Prop where
  | start : Steps s .start { s with running := Journal.load s.file }
  | stop : Steps s .stop { s with running := none }
  | idle (sender body course) : Steps s (.text sender body course) s
  | settle {sender body course records g c} : s.running = some records →
      Grounds S cfg records sender body g c →
      Steps s (.text sender body course) (s.settle S records g course)

theorem step_steps (s : State Key) (e : Event) : Steps S cfg s e (s.step S cfg e) := by
  cases e with
  | start => exact .start
  | stop => exact .stop
  | text sender body course =>
      unfold State.step
      dsimp only
      split
      · exact .idle sender body course
      · next records hrunning =>
        split
        · exact .idle sender body course
        · next g hg =>
          obtain ⟨c, hc⟩ := grant_grounds S cfg hg
          exact .settle hrunning hc

@[simp] theorem settle_world (s : State Key) (records : List Record) (g : Granted Tx Key)
    (course : Course) :
    (s.settle S records g course).world = s.world ++ paymentOf g course.accepted := by
  unfold State.settle
  cases course.answer <;> rfl

/-- The record that a claim adds to the file. -/
def added (g : Granted Tx Key) (course : Course) : List Record :=
  match course.answer with
  | none => []
  | some answer => if course.written.whole then [recordOf S g answer] else []

@[simp] theorem settle_records (s : State Key) (records : List Record) (g : Granted Tx Key)
    (course : Course) :
    Journal.records (s.settle S records g course).file = Journal.records s.file ++ added S g course := by
  unfold State.settle added
  cases course.answer with
  | none => exact (List.append_nil _).symm
  | some answer =>
      dsimp only
      rw [Journal.records_append, Journal.records_items]

theorem mem_added {g : Granted Tx Key} {course : Course} {r : Record} (h : r ∈ added S g course) :
    ∃ answer, course.answer = some answer ∧ r = recordOf S g answer := by
  unfold added at h
  split at h
  · cases h
  · next answer hanswer =>
    split at h
    · exact ⟨answer, hanswer, List.mem_singleton.mp h⟩
    · cases h

/-! ## The ledger in every run -/

/-- The coins on the ledger are distinct, and the process knows of all of them. -/
structure Booked (s : State Key) : Prop where
  coins : ((Journal.records s.file).map Record.coin).Nodup
  known : ∀ records, s.running = some records → (Journal.records s.file).Sublist records

theorem Booked.settle {s : State Key} (h : Booked s) {records : List Record}
    (hrunning : s.running = some records) {g : Granted Tx Key} {course : Course}
    (hfree : freeCoin records cfg.count = some g.coin) : Booked (s.settle S records g course) := by
  have hsub := h.known records hrunning
  refine ⟨?_, ?_⟩
  · rw [settle_records, List.map_append]
    refine List.nodup_append'.mpr ⟨h.coins, ?_, ?_⟩
    · unfold added
      split
      · exact List.nodup_nil
      · split
        · exact List.nodup_singleton _
        · exact List.nodup_nil
    · intro coin hold hnew
      obtain ⟨old, hmem, rfl⟩ := List.mem_map.mp hold
      obtain ⟨r, hr, hcoin⟩ := List.mem_map.mp hnew
      obtain ⟨answer, -, rfl⟩ := mem_added S hr
      exact freeCoin_fresh hfree old (hsub.subset hmem) hcoin.symm
  · intro records' hrunning'
    rw [settle_records]
    unfold State.settle at hrunning'
    unfold added
    cases hanswer : course.answer with
    | none =>
        rw [hanswer] at hrunning'
        cases hrunning'
    | some answer =>
        rw [hanswer] at hrunning'
        dsimp only at hrunning' ⊢
        split at hrunning'
        · cases hrunning'
          apply List.Sublist.append hsub
          split
          · exact List.Sublist.refl _
          · exact List.nil_sublist _
        · cases hrunning'

theorem Booked.step {s : State Key} (h : Booked s) (e : Event) : Booked (s.step S cfg e) := by
  have hsteps := step_steps S cfg s e
  generalize s.step S cfg e = s' at hsteps ⊢
  cases hsteps with
  | start =>
      refine ⟨h.coins, fun records hload => ?_⟩
      rw [Journal.load_eq hload]
  | stop => exact ⟨h.coins, fun records hnone => by cases hnone⟩
  | idle => exact h
  | settle hrunning hgrounds => exact h.settle S cfg hrunning hgrounds.free

theorem booked_new : Booked (State.new : State Key) :=
  ⟨List.nodup_nil, fun records hnone => by cases hnone⟩

theorem booked_run {s : State Key} (h : Booked s) (events : List Event) :
    Booked (s.run S cfg events) := by
  induction events generalizing s with
  | nil => exact h
  | cons e rest ih => exact ih (h.step S cfg e)

/-! ## The payments -/

/-- What payments are limited by. -/
inductive LimitKey where
  | name (who : JsString)
  | address (to_ : JsString)
  deriving DecidableEq

def Payment.keys (p : Payment Key) : List LimitKey := [.name p.who, .address p.to_]

def Record.keys (r : Record) : List LimitKey := if r.ok then [.name r.who, .address r.to_] else []

def limit : LimitKey → Nat
  | .name _ => cfg.perSender
  | .address _ => cfg.perAddress

/-- The payments taken, and the records that are counted. -/
def State.abs (s : State Key) : EffectLog.State LimitKey :=
  { world := s.world.flatMap Payment.keys, record := (Journal.records s.file).flatMap Record.keys }

theorem count_keys_who (w address who : JsString) :
    ([.name w, .address address] : List LimitKey).count (.name who) = if w = who then 1 else 0 := by
  by_cases h : w = who <;> simp [h]

theorem count_keys_to (w address a : JsString) :
    ([.name w, .address address] : List LimitKey).count (.address a) = if address = a then 1 else 0 := by
  by_cases h : address = a <;> simp [h]

/-- A key is counted once for each item that has it. -/
theorem count_flatMap_keys {α : Type} {keys : α → List LimitKey} {k : LimitKey} {has : α → Bool}
    (h : ∀ a, (keys a).count k = if has a = true then 1 else 0) (xs : List α) :
    (xs.flatMap keys).count k = xs.countP has := by
  induction xs with
  | nil => rfl
  | cons a xs ih => rw [List.flatMap_cons, List.count_append, ih, List.countP_cons, h, Nat.add_comm]

theorem count_world_who (world : List (Payment Key)) (who : JsString) :
    (world.flatMap Payment.keys).count (.name who) = world.countP fun p => decide (p.who = who) :=
  count_flatMap_keys (fun p => by simp only [Payment.keys, count_keys_who, decide_eq_true_eq]) world

theorem count_world_to (world : List (Payment Key)) (address : JsString) :
    (world.flatMap Payment.keys).count (.address address) =
      world.countP fun p => decide (p.to_ = address) :=
  count_flatMap_keys (fun p => by simp only [Payment.keys, count_keys_to, decide_eq_true_eq]) world

theorem count_record_who (records : List Record) (who : JsString) :
    (records.flatMap Record.keys).count (.name who) = countWho records who := by
  refine count_flatMap_keys (fun r => ?_) records
  unfold Record.keys
  cases r.ok with
  | false => rfl
  | true => simp only [if_true, count_keys_who, Bool.true_and, decide_eq_true_eq]

theorem count_record_to (records : List Record) (address : JsString) :
    (records.flatMap Record.keys).count (.address address) = countTo records address := by
  refine count_flatMap_keys (fun r => ?_) records
  unfold Record.keys
  cases r.ok with
  | false => rfl
  | true => simp only [if_true, count_keys_to, Bool.true_and, decide_eq_true_eq]

/-- The attempt that a claim is. -/
def attempt (g : Granted Tx Key) (course : Course) : EffectLog.Attempt LimitKey :=
  { keys := [.name g.who, .address g.to_], happens := course.accepted, recorded := course.onRecord }

theorem abs_settle (s : State Key) (records : List Record) (g : Granted Tx Key) (course : Course) :
    (s.settle S records g course).abs = EffectLog.step s.abs (attempt g course) := by
  have hworld : (paymentOf g course.accepted).flatMap Payment.keys =
      if course.accepted then [LimitKey.name g.who, .address g.to_] else [] := by
    unfold paymentOf
    cases course.accepted <;> rfl
  have hrecord : (added S g course).flatMap Record.keys =
      if course.onRecord then [LimitKey.name g.who, .address g.to_] else [] := by
    unfold added Course.onRecord
    cases course.answer with
    | none => rfl
    | some answer =>
        cases answer with
        | error message => cases course.written.whole <;> rfl
        | ok b => cases hok : b.ok <;> cases course.written.whole <;>
            simp [recordOf, Record.keys, hok]
  unfold State.abs EffectLog.step attempt
  rw [settle_world, settle_records, List.flatMap_append, List.flatMap_append, hworld, hrecord]

/-- A claim within the limits is one that the record has room for. -/
theorem allowed_of_grounds {s : State Key} (h : Booked s) {records : List Record}
    (hrunning : s.running = some records) {sender : JsString} {body : Option JsString}
    {g : Granted Tx Key} {c : Claim} (hgrounds : Grounds S cfg records sender body g c)
    (course : Course) : EffectLog.Allowed (limit cfg) s.abs (attempt g course) := by
  have hsub := h.known records hrunning
  intro k
  cases k with
  | name who =>
      by_cases hwho : who = g.who
      · left
        subst hwho
        have hle : countWho (Journal.records s.file) g.who ≤ countWho records g.who := hsub.countP_le
        have hroom := hgrounds.senderRoom
        simp only [State.abs, attempt, count_record_who, count_keys_who, limit, if_true]
        omega
      · right
        simp [attempt, hwho]
  | address address =>
      by_cases hto : address = g.to_
      · left
        subst hto
        have hle : countTo (Journal.records s.file) g.to_ ≤ countTo records g.to_ := hsub.countP_le
        have hroom := hgrounds.addressRoom
        simp only [State.abs, attempt, count_record_to, count_keys_to, limit, if_true]
        omega
      · right
        simp [attempt, hto]

/-- The payments are within the limits, and a claimant goes by one name. -/
structure Held (s : State Key) : Prop where
  log : EffectLog.Inv (limit cfg) s.abs
  named : ∀ p ∈ s.world, ∀ q ∈ s.world, p.claimant = q.claimant → p.who = q.who
  senders : ∀ p ∈ s.world, ∀ t, p.claimant = .sender t → p.who = js "from:" ++ t

theorem held_new : Held cfg (State.new : State Key) :=
  ⟨EffectLog.inv_new _, fun _ hp => absurd hp List.not_mem_nil, fun _ hp => absurd hp List.not_mem_nil⟩

/-- A sender's claim goes by the sender's name. -/
theorem claimant_sender {sender t : JsString} {c : Claim}
    (h : claimantOf S sender c = some (.sender t)) : whoOf sender c = js "from:" ++ t := by
  cases c with
  | bad reason => cases h
  | plain address =>
      cases h
      rfl
  | device address key =>
      obtain ⟨k, -, hk⟩ := Option.map_eq_some_iff.mp h
      cases hk

theorem mem_paymentOf {g : Granted Tx Key} {accepted : Bool} {p : Payment Key}
    (h : p ∈ paymentOf g accepted) : p.claimant = g.claimant ∧ p.who = g.who := by
  unfold paymentOf at h
  cases accepted with
  | false => cases h
  | true =>
      rw [if_pos rfl, List.mem_singleton] at h
      subst h
      exact ⟨rfl, rfl⟩

/-! ## Steady runs -/

variable [DecidableEq Key]

/-- A payment that the network takes is on record. -/
def Course.steady (course : Course) : Bool := !course.accepted || course.onRecord

/-- The key of a device claim is in the letters of what was paid to that key before. -/
def spelled (s : State Key) (body : Option JsString) : Bool :=
  match parseClaim S cfg body with
  | some (.device _ key) =>
      s.world.all fun p =>
        decide ((S.publicKey key).map .device = some p.claimant → p.who = js "key:" ++ key)
  | _ => true

def steady (s : State Key) : Event → Bool
  | .text _ body course => course.steady && spelled S cfg s body
  | _ => true

/-- Every step is steady. -/
def Steadily (s : State Key) : List Event → Prop
  | [] => True
  | e :: rest => steady S cfg s e = true ∧ Steadily (s.step S cfg e) rest

def Steadily.decidable : (s : State Key) → (events : List Event) →
    Decidable (Steadily S cfg s events)
  | _, [] => .isTrue trivial
  | s, e :: rest =>
      @instDecidableAnd _ _ (inferInstance) (Steadily.decidable (s.step S cfg e) rest)

instance (s : State Key) (events : List Event) : Decidable (Steadily S cfg s events) :=
  Steadily.decidable S cfg s events

/-- The name of a spelled claim is the one that its claimant goes by. -/
theorem spelled_named {s : State Key} (h : Held cfg s) {sender : JsString} {body : Option JsString}
    (hspelled : spelled S cfg s body = true) {c : Claim} (hc : parseClaim S cfg body = some c)
    {claimant : Claimant Key} (hclaimant : claimantOf S sender c = some claimant) :
    ∀ p ∈ s.world, p.claimant = claimant → p.who = whoOf sender c := by
  intro p hp heq
  cases c with
  | bad reason => cases hclaimant
  | plain address =>
      cases hclaimant
      exact h.senders p hp sender heq
  | device address key =>
      unfold spelled at hspelled
      rw [hc] at hspelled
      have hp' := of_decide_eq_true (List.all_eq_true.mp hspelled p hp)
      apply hp'
      rw [heq]
      exact hclaimant

theorem Held.settle {s : State Key} (h : Held cfg s) (hbooked : Booked s) {records : List Record}
    (hrunning : s.running = some records) {sender : JsString} {body : Option JsString}
    {g : Granted Tx Key} {c : Claim} {course : Course}
    (hgrounds : Grounds S cfg records sender body g c) (hcourse : course.steady = true)
    (hspelled : spelled S cfg s body = true) : Held cfg (s.settle S records g course) := by
  have hname := spelled_named S cfg h hspelled hgrounds.parsed hgrounds.claimant
  refine ⟨?_, ?_, ?_⟩
  · rw [abs_settle]
    apply h.log.step
    · intro _
      exact allowed_of_grounds S cfg hbooked hrunning hgrounds course
    · intro hhappens
      have haccepted : course.accepted = true := hhappens
      rw [Course.steady, haccepted] at hcourse
      exact hcourse
  · rw [settle_world]
    intro p hp q hq heq
    rcases List.mem_append.mp hp with hp | hp <;> rcases List.mem_append.mp hq with hq | hq
    · exact h.named p hp q hq heq
    · obtain ⟨hqc, hqw⟩ := mem_paymentOf hq
      rw [hqw, hgrounds.who]
      exact hname p hp (heq.trans hqc)
    · obtain ⟨hpc, hpw⟩ := mem_paymentOf hp
      rw [hpw, hgrounds.who]
      exact (hname q hq (heq.symm.trans hpc)).symm
    · rw [(mem_paymentOf hp).2, (mem_paymentOf hq).2]
  · rw [settle_world]
    intro p hp t heq
    rcases List.mem_append.mp hp with hp | hp
    · exact h.senders p hp t heq
    · obtain ⟨hpc, hpw⟩ := mem_paymentOf hp
      rw [hpw, hgrounds.who]
      apply claimant_sender S
      rw [hgrounds.claimant, ← hpc, heq]

theorem Held.step {s : State Key} (h : Held cfg s) (hbooked : Booked s) {e : Event}
    (hsteady : steady S cfg s e = true) : Held cfg (s.step S cfg e) := by
  have hsteps := step_steps S cfg s e
  generalize s.step S cfg e = s' at hsteps ⊢
  cases hsteps with
  | start => exact ⟨h.log, h.named, h.senders⟩
  | stop => exact ⟨h.log, h.named, h.senders⟩
  | idle => exact h
  | settle hrunning hgrounds =>
      obtain ⟨hcourse, hspelled⟩ := (Bool.and_eq_true _ _).mp hsteady
      exact h.settle S cfg hbooked hrunning hgrounds hcourse hspelled

theorem held_run {s : State Key} (h : Held cfg s) (hbooked : Booked s) {events : List Event}
    (hsteady : Steadily S cfg s events) : Held cfg (s.run S cfg events) := by
  induction events generalizing s with
  | nil => exact h
  | cons e rest ih => exact ih (h.step S cfg hbooked hsteady.1) (hbooked.step S cfg e) hsteady.2

/-- The payments to one claimant are payments under one name. -/
theorem Held.claimant_le {s : State Key} (h : Held cfg s) (claimant : Claimant Key) :
    s.world.countP (fun p => decide (p.claimant = claimant)) ≤ cfg.perSender := by
  by_cases hnone : ∃ p ∈ s.world, p.claimant = claimant
  · obtain ⟨p, hp, hclaimant⟩ := hnone
    calc s.world.countP (fun q => decide (q.claimant = claimant))
        ≤ s.world.countP (fun q => decide (q.who = p.who)) := by
          apply List.countP_mono_left
          intro q hq heq
          exact decide_eq_true (h.named q hq p hp ((of_decide_eq_true heq).trans hclaimant.symm))
      _ = s.abs.world.count (.name p.who) := (count_world_who _ _).symm
      _ ≤ cfg.perSender := h.log.world_le (.name p.who)
  · rw [List.countP_eq_zero.mpr]
    · exact Nat.zero_le _
    · intro p hp heq
      exact hnone ⟨p, hp, of_decide_eq_true heq⟩

/-- **The ledger never has a coin twice, and in every run in which what the network takes gets on
record, and device keys are spelled alike, the limits hold of what the network took.** -/
theorem limits_hold (events : List Event) :
    ((Journal.records ((State.new : State Key).run S cfg events).file).map Record.coin).Nodup ∧
      (Steadily S cfg State.new events →
        (∀ claimant, ((State.new : State Key).run S cfg events).world.countP
          (fun p => decide (p.claimant = claimant)) ≤ cfg.perSender) ∧
        ∀ address, ((State.new : State Key).run S cfg events).world.countP
          (fun p => decide (p.to_ = address)) ≤ cfg.perAddress) := by
  refine ⟨(booked_run S cfg booked_new events).coins, fun hsteady => ?_⟩
  have hheld := held_run S cfg (held_new cfg) booked_new hsteady
  refine ⟨hheld.claimant_le cfg, fun address => ?_⟩
  rw [← count_world_to]
  exact hheld.log.world_le (.address address)

end Program

/-! ## Runs that are steady, and that are not -/

/-- A library that takes every address and every signature, and reads a key in either case. -/
def sampleFaucet : FaucetSdk Unit JsString where
  toSdk := sampleSdk
  lockable _ := true
  publicKey key := some (key.map lower)
  verifyText _ _ _ := some true
  spendCoin _ _ := .ok ()

def sampleConfig : Config := { id := js "00000000", count := 3 }

def claimText : Option JsString := some (js "BSV1 CLAIM m1")

def sent : Course :=
  { accepted := true, answer := some (.ok { ok := true, sent := true, detail := [] }),
    written := .line, goesOn := true }

/-- The network takes the payment, and the broadcaster reports a failure. -/
def unreported : Course := { sent with answer := some (.error (js "timeout")) }

/-- The network takes the payment, and the process stops before it hears of it. -/
def cutOff : Course := { sent with answer := none }

/-- The coin is spent already. -/
def refused : Course :=
  { sent with accepted := false, answer := some (.ok { ok := false, sent := true, detail := [] }) }

/-- A claim of a device key in the given letter. -/
def deviceText (address : JsString) (letter : UInt16) : Option JsString :=
  some (js "BSV1 CLAIM " ++ address ++ js " " ++ js "02" ++ List.replicate 64 letter ++ js " " ++
    List.replicate 60 65)

/-- A claim, a stop, a restart and the same claim. -/
theorem limits_hold_sample :
    let s := State.new.run sampleFaucet sampleConfig
      [.start, .text (js "+1") claimText sent, .stop, .start, .text (js "+1") claimText sent]
    ((Journal.records s.file).map Record.coin).Nodup ∧
      (∀ claimant, s.world.countP (fun p => decide (p.claimant = claimant)) ≤ 1) ∧
      ∀ address, s.world.countP (fun p => decide (p.to_ = address)) ≤ 1 := by
  have h := limits_hold sampleFaucet sampleConfig
    [.start, .text (js "+1") claimText sent, .stop, .start, .text (js "+1") claimText sent]
  exact ⟨h.1, h.2 (by decide +kernel)⟩

/-- **One claimant is paid twice**: after an error that was none, after a stop between the broadcast and
the ledger (where the coin that is tried again is refused), and as a device in other letters. -/
theorem claimant_twice :
    let paid (events : List Event) (claimant : Claimant JsString) :=
      (State.new.run sampleFaucet sampleConfig (.start :: events)).world.countP
        fun p => decide (p.claimant = claimant)
    sampleConfig.perSender = 1 ∧
      paid [.text (js "+1") claimText unreported, .text (js "+1") claimText sent] (.sender (js "+1")) = 2 ∧
      paid [.text (js "+1") claimText cutOff, .start, .text (js "+1") claimText refused,
        .text (js "+1") claimText sent] (.sender (js "+1")) = 2 ∧
      paid [.text (js "+1") (deviceText (js "m1") 97) sent, .text (js "+1") (deviceText (js "m2") 65) sent]
        (.device (js "02" ++ List.replicate 64 97)) = 2 := by
  decide +kernel

end Faucet

end DtnCustody.Radio
