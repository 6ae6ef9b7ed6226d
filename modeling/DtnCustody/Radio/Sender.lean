/-
# DtnCustody.Radio.Sender — `sendPayment` of `radio/lib/sender.mjs` as a machine over what it waits for.

An event is what the program waits for or is called with: a frame comes in, the radio has sent a frame, the timer of
a wait is over, and the wait itself goes on once it was woken. A NACK that was answered gives its try back. So every
transmission belongs to one of the tries, or was asked for by a NACK that was answered (`transmissions_le`); how
many of these there are is up to whoever sends them (`transmissions_unbounded`).
-/
import DtnCustody.Radio.SmsGateway

namespace DtnCustody.Radio

open Base Js

/-- `add(p)`, with hashes not verified. -/
def Parts.addUnverified (parts : Parts) (p : Frame) (now : Int) : Option (FrameType × Bytes) × Parts :=
  let m := (parts.get? p.id).getD { type := p.type, total := p.total, got := JsMap.empty, last := now }
  if m.total ≠ p.total ∨ m.type ≠ p.type then (none, parts.set p.id m)
  else
    let m := { m with got := m.got.set p.index p.data, last := now }
    if m.got.size < m.total then (none, parts.set p.id m)
    else (some (m.type, m.joined), parts.delete p.id)

/-! ## Receipts -/

/-- What `readReceipt` reads. -/
structure Receipt where
  txid : JsString
  status : JsString
  time : Nat
  id : JsString
  gateway : JsString
  deriving DecidableEq, Repr

/-- `STATUS_NAME[b] ?? "UNKNOWN(b)"`. -/
def statusName (b : UInt8) : JsString :=
  match [Status.accepted, .validNotSent, .rejected, .broadcastFailed].find? fun s => s.code = b with
  | some s => s.name
  | none => js s!"UNKNOWN({b.toNat})"

/-- The transaction library, with its check of signatures. -/
structure ReceiptSdk (Tx : Type) extends Sdk Tx where
  /-- The verdict on a public key, a digest and a DER signature; `none` is a throw. -/
  verifyDER : Bytes → Bytes → Bytes → Option Bool

/-- `readReceipt(buf, pinnedPub)`; an empty `pinned` stands for none. -/
def readReceipt {Tx : Type} (S : ReceiptSdk Tx) (pinned : JsString) (buf : Bytes) : Option Receipt :=
  if buf.length < 45 + 33 + 8 then none
  else
    let body := buf.take 45
    let pub := (buf.drop 45).take 33
    let sig := buf.drop 78
    if pinned ≠ [] ∧ Hex.encode pub ≠ pinned.map lower then none
    else if S.verifyDER pub (S.sha256 (domain ++ body ++ pub)) sig ≠ some true then none
    else
      some { txid := Hex.encode (body.take 32), status := statusName (body.getD 32 0),
             time := beNat ((body.drop 33).take 4), id := Hex.encode ((body.drop 37).take 8),
             gateway := Hex.encode pub }

/-! ## The machine -/

/-- What a call of `sendPayment` works with. -/
structure Job where
  frames : List Bytes
  id : JsString
  txid : JsString
  /-- `gatewayPub`. -/
  pinned : JsString
  tries : Nat

/-- The transaction library, with how it writes a transaction. -/
structure SenderSdk (Tx : Type) extends ReceiptSdk Tx where
  toEF : Tx → Bytes
  toBEEF : Tx → Bytes

/-- `encodePayment(tx, { beef })`. -/
def encodePayment {Tx : Type} (S : SenderSdk Tx) (tx : Tx) (beef : Bool) : FrameType × Bytes :=
  if beef then (.payBeef, S.toBEEF tx) else (.payEf, S.toEF tx)

/-- What `sendPayment` works out before its loop; `gatewayPub` is `pinned`. -/
def jobOf {Tx : Type} (S : SenderSdk Tx) (tx : Tx) (beef : Bool) (mtu : Nat) (pinned : JsString)
    (tries : Nat) : Outcome Job := do
  let (type, msg) := encodePayment S tx beef
  let frames ← split type msg mtu (messageId S.toNode msg)
  match parse (frames.getD 0 []) with
  | none => .error .typeError
  | some p => .ok { frames, id := p.id, txid := S.txid tx, pinned, tries }

inductive Phase where
  /-- A frame is on the air, and these come after it. -/
  | sending (left : List Nat)
  | waiting (woken : Bool)
  | ended
  deriving DecidableEq, Repr

inductive Note where
  | resend (frames : List Nat)
  | timeout (attempt : Nat)
  | badReceipt
  deriving DecidableEq, Repr

structure Sender where
  parts : Parts
  receipt : Option Receipt
  resend : Option (List Nat)
  attempt : Nat
  phase : Phase
  /-- The frames that went out. -/
  sent : List Bytes
  log : List Note

inductive SenderEvent where
  | frame (raw : Bytes) (now : Int)
  | sent
  | timer
  | resume

namespace Sender

/-- `frames.map((_, i) => i)`. -/
def all (job : Job) : List Nat := List.range job.frames.length

section Program

variable (job : Job)

/-- The loop comes round, with frames to send. -/
def round (s : Sender) (toSend : List Nat) : Sender :=
  if s.receipt.isSome || decide (job.tries ≤ s.attempt) then { s with phase := .ended }
  else
    let s := { s with attempt := s.attempt + 1, resend := none }
    match toSend with
    | i :: rest => { s with phase := .sending rest, sent := s.sent ++ [job.frames.getD i []] }
    | [] => { s with phase := .waiting false }

/-- After the wait. -/
def conclude (s : Sender) : Sender :=
  if s.receipt.isSome then { s with phase := .ended }
  else
    match s.resend with
    | some frames =>
        round job { s with attempt := s.attempt - 1, log := s.log ++ [.resend frames] } frames
    | none => round job { s with log := s.log ++ [.timeout s.attempt] } (all job)

/-- After the last frame of a round. -/
def sentAll (s : Sender) : Sender :=
  if s.receipt.isNone && s.resend.isNone then { s with phase := .waiting false } else conclude job s

/-- `wake?.()`. -/
def wake (s : Sender) : Sender :=
  match s.phase with
  | .waiting _ => { s with phase := .waiting true }
  | _ => s

variable {Tx : Type} (S : ReceiptSdk Tx)

/-- What a whole message does. -/
def onWhole (s : Sender) (type : FrameType) (msg : Bytes) : Sender :=
  match type with
  | .nack => wake { s with resend := some ((msg.map UInt8.toNat).filter fun i => i < job.frames.length) }
  | .receipt =>
      match (readReceipt S job.pinned msg).filter fun r => r.txid = job.txid with
      | some r => wake { s with receipt := some r }
      | none => { s with log := s.log ++ [.badReceipt] }
  | _ => s

/-- The callback of `radio.onFrame`. -/
def onFrame (s : Sender) (raw : Bytes) (now : Int) : Sender :=
  match (parse raw).filter fun p => p.id = job.id with
  | none => s
  | some p =>
      let (whole, parts) := s.parts.addUnverified p now
      match whole with
      | none => { s with parts }
      | some (type, msg) => onWhole job S { s with parts } type msg

/-- One event; when the call has returned, nothing more comes of any. -/
def step (s : Sender) : SenderEvent → Sender
  | .frame raw now => if s.phase = .ended then s else onFrame job S s raw now
  | .sent =>
      match s.phase with
      | .sending [] => sentAll job s
      | .sending (i :: rest) =>
          { s with phase := .sending rest, sent := s.sent ++ [job.frames.getD i []] }
      | _ => s
  | .timer =>
      match s.phase with
      | .waiting _ => { s with phase := .waiting true }
      | _ => s
  | .resume => if s.phase = .waiting true then conclude job s else s

/-- The call as it begins. -/
def start : Sender :=
  round job { parts := JsMap.empty, receipt := none, resend := none, attempt := 0, phase := .ended,
              sent := [], log := [] } (all job)

def run (s : Sender) (events : List SenderEvent) : Sender := events.foldl (step job S) s

end Program

theorem run_append {Tx : Type} (job : Job) (S : ReceiptSdk Tx) (s : Sender) (front back : List SenderEvent) :
    run job S s (front ++ back) = run job S (run job S s front) back := List.foldl_append

/-! ## Transmissions -/

/-- The frames that are still to go out in this round. -/
def left (s : Sender) : Nat :=
  match s.phase with
  | .sending rest => rest.length
  | _ => 0

/-- The frames asked for by the NACKs that were answered. -/
def answered (log : List Note) : Nat :=
  (log.map fun
    | .resend frames => frames.length
    | _ => 0).sum

/-- The waits in which nothing came. -/
def timeouts (log : List Note) : Nat :=
  log.countP fun
    | .timeout _ => true
    | _ => false

theorem answered_append (log : List Note) (note : Note) :
    answered (log ++ [note]) = answered log + answered [note] := by
  simp only [answered, List.map_append, List.sum_append]

theorem timeouts_append (log : List Note) (note : Note) :
    timeouts (log ++ [note]) = timeouts log + timeouts [note] := List.countP_append

/-- Every transmission is of a try or answers a NACK, and every try but this one ended in a timeout. -/
structure Counted (job : Job) (s : Sender) : Prop where
  sent_le : s.sent.length + left s ≤ s.attempt * job.frames.length + answered s.log
  attempt_le : s.attempt ≤ job.tries
  timeouts_le : timeouts s.log ≤ s.attempt
  timeouts_lt : s.phase ≠ .ended → timeouts s.log < s.attempt

variable {job : Job} {s : Sender}

/-- A round adds the frames it was begun with. -/
theorem Counted.round {toSend : List Nat}
    (hsent : s.sent.length + toSend.length ≤ (s.attempt + 1) * job.frames.length + answered s.log)
    (hended : s.receipt.isSome = true ∨ job.tries ≤ s.attempt →
      s.sent.length ≤ s.attempt * job.frames.length + answered s.log)
    (hattempt : s.attempt ≤ job.tries) (htimeouts : timeouts s.log ≤ s.attempt) :
    Counted job (round job s toSend) := by
  unfold Sender.round
  split
  · next hends =>
    rw [Bool.or_eq_true, decide_eq_true_eq] at hends
    exact ⟨hended hends, hattempt, htimeouts, fun h => absurd rfl h⟩
  · next hgoes =>
    simp only [Bool.or_eq_true, decide_eq_true_eq, not_or, Nat.not_le] at hgoes
    dsimp only
    cases toSend with
    | nil => exact ⟨hsent, hgoes.2, Nat.le_succ_of_le htimeouts, fun _ => Nat.lt_succ_of_le htimeouts⟩
    | cons i rest =>
        refine ⟨?_, hgoes.2, Nat.le_succ_of_le htimeouts, fun _ => Nat.lt_succ_of_le htimeouts⟩
        simp only [List.length_append, List.length_cons, List.length_nil, left] at hsent ⊢
        omega

theorem Counted.conclude (h : Counted job s) (hphase : s.phase ≠ .ended) (hleft : left s = 0) :
    Counted job (conclude job s) := by
  have hsent := h.sent_le
  have hlt := h.timeouts_lt hphase
  have hle := h.attempt_le
  rw [hleft, Nat.add_zero] at hsent
  unfold Sender.conclude
  split
  · exact ⟨hsent, hle, h.timeouts_le, fun hne => absurd rfl hne⟩
  · next hnone =>
    split
    · next frames _ =>
      -- The try is given back, and taken again.
      have hback : s.attempt - 1 + 1 = s.attempt := by omega
      have hnote : answered [.resend frames] = frames.length := Nat.add_zero _
      refine Counted.round ?_ (fun hends => ?_) (Nat.le_trans (Nat.sub_le _ _) hle) ?_
      · show s.sent.length + frames.length ≤
          (s.attempt - 1 + 1) * job.frames.length + answered (s.log ++ [.resend frames])
        rw [answered_append, hnote, hback]
        omega
      · rcases hends with hsome | htries
        · exact absurd hsome hnone
        · have htries : job.tries ≤ s.attempt - 1 := htries
          omega
      · show timeouts (s.log ++ [.resend frames]) ≤ s.attempt - 1
        rw [timeouts_append]
        show timeouts s.log + 0 ≤ s.attempt - 1
        omega
    · have hnote : answered (s.log ++ [.timeout s.attempt]) = answered s.log := by
        rw [answered_append]
        rfl
      refine Counted.round ?_ (fun _ => ?_) hle ?_
      · show s.sent.length + (all job).length ≤
          (s.attempt + 1) * job.frames.length + answered (s.log ++ [.timeout s.attempt])
        rw [hnote, all, List.length_range, Nat.succ_mul]
        omega
      · show s.sent.length ≤ s.attempt * job.frames.length + answered (s.log ++ [.timeout s.attempt])
        rw [hnote]
        exact hsent
      · show timeouts (s.log ++ [.timeout s.attempt]) ≤ s.attempt
        rw [timeouts_append]
        exact hlt

/-- The second differs from the first in what it heard only. -/
structure Quiet (s t : Sender) : Prop where
  sent_eq : t.sent = s.sent
  left_eq : left t = left s
  attempt_eq : t.attempt = s.attempt
  answered_eq : answered t.log = answered s.log
  timeouts_eq : timeouts t.log = timeouts s.log
  ended_iff : t.phase = .ended ↔ s.phase = .ended

theorem Quiet.counted {t : Sender} (hquiet : Quiet s t) (h : Counted job s) : Counted job t where
  sent_le := by
    rw [hquiet.sent_eq, hquiet.left_eq, hquiet.attempt_eq, hquiet.answered_eq]
    exact h.sent_le
  attempt_le := by
    rw [hquiet.attempt_eq]
    exact h.attempt_le
  timeouts_le := by
    rw [hquiet.attempt_eq, hquiet.timeouts_eq]
    exact h.timeouts_le
  timeouts_lt hne := by
    rw [hquiet.attempt_eq, hquiet.timeouts_eq]
    exact h.timeouts_lt fun hended => hne (hquiet.ended_iff.mpr hended)

theorem Quiet.wake {t : Sender} (h : Quiet s t) : Quiet s (wake t) := by
  obtain ⟨hsent, hleft, hattempt, hanswered, htimeouts, hended⟩ := h
  unfold Sender.wake
  split
  · next woken hwaiting =>
    have hnot : ¬ s.phase = .ended := fun hs => by
      rw [hended.mpr hs] at hwaiting
      cases hwaiting
    refine ⟨hsent, ?_, hattempt, hanswered, htimeouts, ⟨fun h => (by cases h), fun h => absurd h hnot⟩⟩
    rw [← hleft]
    simp only [left, hwaiting]
  · exact ⟨hsent, hleft, hattempt, hanswered, htimeouts, hended⟩

section Run

variable {Tx : Type} {S : ReceiptSdk Tx}

theorem quiet_onFrame (s : Sender) (raw : Bytes) (now : Int) : Quiet s (onFrame job S s raw now) := by
  unfold onFrame
  split
  · exact ⟨rfl, rfl, rfl, rfl, rfl, Iff.rfl⟩
  · dsimp only
    split
    · exact ⟨rfl, rfl, rfl, rfl, rfl, Iff.rfl⟩
    · unfold onWhole
      split
      · exact Quiet.wake ⟨rfl, rfl, rfl, rfl, rfl, Iff.rfl⟩
      · split
        · exact Quiet.wake ⟨rfl, rfl, rfl, rfl, rfl, Iff.rfl⟩
        · exact ⟨rfl, rfl, rfl, answered_append _ _, timeouts_append _ _, Iff.rfl⟩
      · exact ⟨rfl, rfl, rfl, rfl, rfl, Iff.rfl⟩

/-- One event keeps the count. -/
theorem Counted.step (h : Counted job s) (ev : SenderEvent) : Counted job (step job S s ev) := by
  cases ev with
  | frame raw now =>
      rw [Sender.step]
      split
      · exact h
      · exact (quiet_onFrame s raw now).counted h
  | sent =>
      rw [Sender.step]
      split
      · next hphase =>
        have hleft : left s = 0 := by
          unfold left
          rw [hphase]
          rfl
        have hsent := h.sent_le
        unfold sentAll
        split
        · refine Quiet.counted (s := s) ⟨rfl, ?_, rfl, rfl, rfl, ⟨fun h => (by cases h), fun h => ?_⟩⟩ h
          · rw [hleft]
            rfl
          · rw [hphase] at h
            cases h
        · exact h.conclude (by rw [hphase]; exact fun h => by cases h) hleft
      · next i rest hphase =>
        have hsent := h.sent_le
        refine ⟨?_, h.attempt_le, h.timeouts_le, fun _ => h.timeouts_lt ?_⟩
        · simp only [left, hphase, List.length_append, List.length_cons, List.length_nil] at hsent ⊢
          omega
        · rw [hphase]
          intro h
          cases h
      · exact h
  | timer =>
      rw [Sender.step]
      exact Quiet.counted (s := s) (Quiet.wake ⟨rfl, rfl, rfl, rfl, rfl, Iff.rfl⟩) h
  | resume =>
      rw [Sender.step]
      split
      · next hphase =>
        refine h.conclude (by rw [hphase]; exact fun h => by cases h) ?_
        unfold left
        rw [hphase]
      · exact h

theorem counted_run (events : List SenderEvent) : Counted job (run job S (start job) events) := by
  have hstart : Counted job (start job) := by
    refine Counted.round ?_ (fun _ => Nat.zero_le _) (Nat.zero_le _) (Nat.zero_le _)
    show 0 + (all job).length ≤ (0 + 1) * job.frames.length + 0
    rw [all, List.length_range]
    omega
  have hrun : ∀ s, Counted job s → Counted job (run job S s events) := by
    induction events with
    | nil => exact fun s hs => hs
    | cons ev events ih => exact fun s hs => ih _ (hs.step ev)
  exact hrun _ hstart

/-- **Transmissions are limited by the tries and by what NACKs asked for**: not more than each try sends, and than
the NACKs that were answered list. And the call ends when `tries` waits were silent, of which there are no more. -/
theorem transmissions_le (S : ReceiptSdk Tx) (job : Job) (events : List SenderEvent) :
    let s := run job S (start job) events
    s.sent.length ≤ job.tries * job.frames.length + answered s.log ∧ timeouts s.log ≤ job.tries ∧
      (timeouts s.log = job.tries → s.phase = .ended) := by
  have h : Counted job (run job S (start job) events) := counted_run events
  have hmul := Nat.mul_le_mul_right job.frames.length h.attempt_le
  have hsent := h.sent_le
  refine ⟨by omega, h.timeouts_le.trans h.attempt_le, fun hall => ?_⟩
  by_contra hgoes
  have hlt := h.timeouts_lt hgoes
  have hle := h.attempt_le
  omega

end Run

/-! ## A channel full of NACKs -/

/-- A check that every signature passes whose bytes begin the digest. -/
def sampleReceiptSdk : ReceiptSdk Unit where
  toSdk := sampleSdk
  verifyDER _ digest sig := some (sig = digest.take 8)

/-- The payment in one frame, and one try for it. -/
def sampleJob : Job where
  frames := [sampleFrame]
  id := Hex.encode (messageId sampleNode samplePayment)
  txid := List.replicate 64 49
  pinned := Hex.encode (List.replicate 33 2)
  tries := 1

/-- A NACK that asks for the first frame. -/
def sampleNack : Bytes := frameAt .nack [0] (messageId sampleNode samplePayment) 187 1 0

/-- The frame is out, someone asks for it again, and the wait goes on. -/
def askedAgain : List SenderEvent := [.sent, .frame sampleNack 0, .resume]

/-- The sender after some NACKs. -/
def askedFor (n : Nat) : Sender where
  parts := JsMap.empty
  receipt := none
  resend := none
  attempt := 1
  phase := .sending []
  sent := List.replicate (n + 1) sampleFrame
  log := List.replicate n (.resend [0])

theorem askedFor_succ (n : Nat) :
    run sampleJob sampleReceiptSdk (askedFor n) askedAgain = askedFor (n + 1) := by
  have hparse : parse sampleNack =
      some { type := .nack, id := sampleJob.id, index := 0, total := 1, data := [0] } := by
    decide +kernel
  -- The NACK is whole, and leaves nothing behind.
  have hframe : ∀ s : Sender, s.parts = JsMap.empty → onFrame sampleJob sampleReceiptSdk s sampleNack 0 =
      wake { s with resend := some [0] } := by
    intro s hparts
    unfold onFrame
    rw [hparse, hparts, Option.filter_some, if_pos (by decide)]
    show wake { s with parts := JsMap.empty, resend := some [0] } = _
    rw [← hparts]
  have hsent : step sampleJob sampleReceiptSdk (askedFor n) .sent = { askedFor n with phase := .waiting false } :=
    rfl
  have hasked : step sampleJob sampleReceiptSdk { askedFor n with phase := .waiting false } (.frame sampleNack 0) =
      { askedFor n with phase := .waiting true, resend := some [0] } := by
    rw [step, if_neg (fun h => by cases h), hframe _ rfl]
    rfl
  show step sampleJob sampleReceiptSdk (step sampleJob sampleReceiptSdk
    (step sampleJob sampleReceiptSdk (askedFor n) .sent) (.frame sampleNack 0)) .resume = _
  rw [hsent, hasked]
  show ({ askedFor n with
    sent := List.replicate (n + 1) sampleFrame ++ [sampleFrame]
    log  := List.replicate n (.resend [0]) ++ [.resend [0]] } : Sender) = askedFor (n + 1)
  rw [← List.replicate_succ', ← List.replicate_succ']
  rfl

/-- **Whoever asks is answered**: there is no bound by the tries and the frames alone. -/
theorem transmissions_unbounded :
    ¬ ∃ bound : Nat → Nat → Nat, ∀ (job : Job) (events : List SenderEvent),
      (run job sampleReceiptSdk (start job) events).sent.length ≤ bound job.tries job.frames.length := by
  rintro ⟨bound, h⟩
  have hrun : ∀ n, run sampleJob sampleReceiptSdk (start sampleJob)
      (List.replicate n askedAgain).flatten = askedFor n := by
    intro n
    induction n with
    | zero => rfl
    | succ n ih =>
        rw [List.replicate_succ', List.flatten_append, run_append, ih, List.flatten_singleton]
        exact askedFor_succ n
  have hle := h sampleJob (List.replicate (bound 1 1) askedAgain).flatten
  rw [hrun] at hle
  have hlen : (askedFor (bound 1 1)).sent.length = bound 1 1 + 1 := List.length_replicate ..
  rw [hlen] at hle
  exact absurd hle (Nat.not_succ_le_self _)

end Sender

end DtnCustody.Radio
