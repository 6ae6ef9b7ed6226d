/-
# DtnCustody.Radio.ReceiptHeard — when `sendPayment` ends with the receipt that it hears.

NACKs and receipts come under the id of the payment, and the reassembler ignores every frame that does not agree in
type and count with the first frame it has of an id. So the receipt is collected from its first frame on, whatever
else comes, if nothing is half received under the id when that frame comes (`receipt_accepted`). A NACK of two
frames, one of them lost, keeps out every receipt (`receipt_kept_out`). What is accepted is always signed by the
pinned key and names the transaction.
-/
import DtnCustody.Base.Pieces
import DtnCustody.Radio.Collected
import DtnCustody.Radio.Sender

namespace DtnCustody.Radio.Sender

open Base Js Pieces

variable {Tx : Type}

/-! ## Receipts -/

/-- The pinned gateway signed it. -/
structure SignedBy (S : ReceiptSdk Tx) (pinned : JsString) (buf : Bytes) : Prop where
  long : 45 + 33 + 8 ≤ buf.length
  key : Hex.encode ((buf.drop 45).take 33) = pinned.map lower
  verifies : S.verifyDER ((buf.drop 45).take 33)
    (S.sha256 (domain ++ buf.take 45 ++ (buf.drop 45).take 33)) (buf.drop 78) = some true

/-- The fields of a receipt. -/
def receiptOf (buf : Bytes) : Receipt where
  txid := Hex.encode ((buf.take 45).take 32)
  status := statusName ((buf.take 45).getD 32 0)
  time := beNat (((buf.take 45).drop 33).take 4)
  id := Hex.encode (((buf.take 45).drop 37).take 8)
  gateway := Hex.encode ((buf.drop 45).take 33)

theorem readReceipt_signed {S : ReceiptSdk Tx} {pinned : JsString} {buf : Bytes}
    (h : SignedBy S pinned buf) : readReceipt S pinned buf = some (receiptOf buf) := by
  unfold readReceipt
  dsimp only
  rw [if_neg (Nat.not_lt.mpr h.long), if_neg (fun hkey => hkey.2 h.key), if_neg (not_not_intro h.verifies)]
  rfl

/-- What is read was signed by the key that is pinned. -/
theorem signed_of_read {S : ReceiptSdk Tx} {pinned : JsString} (hpinned : pinned ≠ []) {buf : Bytes}
    {r : Receipt} (h : readReceipt S pinned buf = some r) : SignedBy S pinned buf ∧ r = receiptOf buf := by
  unfold readReceipt at h
  dsimp only at h
  split at h
  · cases h
  · next hlong =>
    split at h
    · cases h
    · next hkey =>
      split at h
      · cases h
      · next hverifies =>
        cases h
        exact ⟨⟨Nat.not_lt.mp hlong, not_not.mp fun hne => hkey ⟨hpinned, hne⟩, not_not.mp hverifies⟩, rfl⟩

/-- The pinned gateway signed it for this transaction. -/
def Genuine (S : ReceiptSdk Tx) (job : Job) (r : Receipt) : Prop :=
  r.txid = job.txid ∧ ∃ buf, SignedBy S job.pinned buf ∧ r = receiptOf buf

section Machine

variable {S : ReceiptSdk Tx} {job : Job} {s : Sender}

theorem receipt_round (toSend : List Nat) : (round job s toSend).receipt = s.receipt := by
  unfold round
  split
  · rfl
  · cases toSend with
    | nil => rfl
    | cons i rest => rfl

theorem parts_round (toSend : List Nat) : (round job s toSend).parts = s.parts := by
  unfold round
  split
  · rfl
  · cases toSend with
    | nil => rfl
    | cons i rest => rfl

/-- The loop leaves alone what was heard. -/
theorem heard_conclude : (conclude job s).receipt = s.receipt ∧ (conclude job s).parts = s.parts := by
  unfold conclude
  split
  · exact ⟨rfl, rfl⟩
  · split
    · exact ⟨receipt_round _, parts_round _⟩
    · exact ⟨receipt_round _, parts_round _⟩

theorem heard_sentAll : (sentAll job s).receipt = s.receipt ∧ (sentAll job s).parts = s.parts := by
  unfold sentAll
  split
  · exact ⟨rfl, rfl⟩
  · exact heard_conclude

theorem heard_wake : (wake s).receipt = s.receipt ∧ (wake s).parts = s.parts := by
  unfold wake
  split
  · exact ⟨rfl, rfl⟩
  · exact ⟨rfl, rfl⟩

/-- Only frames change what was heard. -/
theorem heard_step (ev : SenderEvent) (hev : ∀ raw now, ev ≠ .frame raw now) :
    (step job S s ev).receipt = s.receipt ∧ (step job S s ev).parts = s.parts := by
  cases ev with
  | frame raw now => exact absurd rfl (hev raw now)
  | sent =>
      rw [step]
      split
      · exact heard_sentAll
      · exact ⟨rfl, rfl⟩
      · exact ⟨rfl, rfl⟩
  | timer =>
      rw [step]
      split
      · exact ⟨rfl, rfl⟩
      · exact ⟨rfl, rfl⟩
  | resume =>
      rw [step]
      split
      · exact heard_conclude
      · exact ⟨rfl, rfl⟩

theorem step_ended (h : s.phase = .ended) (ev : SenderEvent) : step job S s ev = s := by
  cases ev with
  | frame raw now => rw [step, if_pos h]
  | sent => rw [step, h]
  | timer => rw [step, h]
  | resume =>
      rw [step, if_neg]
      rw [h]
      intro h
      cases h

theorem run_ended (h : s.phase = .ended) (events : List SenderEvent) : run job S s events = s := by
  induction events with
  | nil => rfl
  | cons ev events ih =>
      rw [run, List.foldl_cons, step_ended h ev]
      exact ih

/-! ## What is accepted is genuine -/

theorem genuine_onFrame (hpinned : job.pinned ≠ []) (h : ∀ r, s.receipt = some r → Genuine S job r)
    (raw : Bytes) (now : Int) : ∀ r, (onFrame job S s raw now).receipt = some r → Genuine S job r := by
  unfold onFrame
  split
  · exact h
  · dsimp only
    split
    · exact h
    · unfold onWhole
      split
      · rw [heard_wake.1]
        exact h
      · split
        · next r hr =>
          rw [heard_wake.1]
          intro r' hr'
          cases hr'
          obtain ⟨hread, hnames⟩ := Option.filter_eq_some_iff.mp hr
          obtain ⟨hsigned, heq⟩ := signed_of_read hpinned hread
          exact ⟨of_decide_eq_true hnames, _, hsigned, heq⟩
        · exact h
      · exact h

theorem genuine_step (hpinned : job.pinned ≠ []) (h : ∀ r, s.receipt = some r → Genuine S job r)
    (ev : SenderEvent) : ∀ r, (step job S s ev).receipt = some r → Genuine S job r := by
  intro r hr
  cases ev with
  | frame raw now =>
      rw [step] at hr
      split at hr
      · exact h r hr
      · exact genuine_onFrame hpinned h raw now r hr
  | sent => exact h r ((heard_step .sent fun _ _ h => (by cases h)).1 ▸ hr)
  | timer => exact h r ((heard_step .timer fun _ _ h => (by cases h)).1 ▸ hr)
  | resume => exact h r ((heard_step .resume fun _ _ h => (by cases h)).1 ▸ hr)

/-- **Only a receipt that the pinned gateway signed for this transaction is returned.** -/
theorem genuine_run (hpinned : job.pinned ≠ []) (events : List SenderEvent) :
    ∀ r, (run job S (start job) events).receipt = some r → Genuine S job r := by
  induction events using List.reverseRecOn with
  | nil =>
      intro r hr
      rw [show run job S (start job) [] = start job from rfl, start, receipt_round] at hr
      cases hr
  | append_singleton events ev ih =>
      rw [run_append]
      exact genuine_step hpinned ih ev

end Machine

/-! ## Frames of a receipt -/

variable (receipt : Sending) (id : Bytes)

/-- A frame of the receipt, under the id of the payment. -/
def receiptFrame (i : Nat) : Bytes :=
  frameAt receipt.type receipt.msg id (receipt.mtu - header) receipt.count i

/-- What `parse` makes of it. -/
def receiptPart (i : Nat) : Frame where
  type := receipt.type
  id := Hex.encode id
  index := i
  total := receipt.count
  data := receipt.piece i

/-- The frame that an event brings. -/
def rawOf : SenderEvent → Option Bytes
  | .frame raw _ => some raw
  | _ => none

/-- The frames of the receipt that came. -/
def framesIn (events : List SenderEvent) : Finset Nat :=
  (Finset.range receipt.count).filter fun i => some (receiptFrame receipt id i) ∈ events.map rawOf

variable {receipt id}

theorem split_receipt : split receipt.type receipt.msg receipt.mtu id =
    .ok ((List.range receipt.count).map (receiptFrame receipt id)) := receipt.split_frames id

theorem parse_receiptFrame (hid : id.length = 8) {i : Nat} (hi : i < receipt.count) :
    parse (receiptFrame receipt id i) = some (receiptPart receipt id i) :=
  parse_frameAt hid hi receipt.short

theorem receiptFrame_inj (hid : id.length = 8) {i j : Nat} (hi : i < receipt.count) (hj : j < receipt.count)
    (h : receiptFrame receipt id i = receiptFrame receipt id j) : i = j := by
  have hparse := parse_receiptFrame hid hi
  rw [h, parse_receiptFrame hid hj] at hparse
  exact (congrArg Frame.index (Option.some.inj hparse)).symm

theorem framesIn_subset (events : List SenderEvent) :
    framesIn receipt id events ⊆ Finset.range receipt.count := Finset.filter_subset _ _

/-- One frame of the receipt more. -/
theorem framesIn_frame (hid : id.length = 8) (events : List SenderEvent) {i : Nat} (hi : i < receipt.count)
    (now : Int) : framesIn receipt id (events ++ [.frame (receiptFrame receipt id i) now]) =
      insert i (framesIn receipt id events) := by
  ext j
  simp only [framesIn, List.map_append, List.map_singleton, rawOf, Finset.mem_filter,
    Finset.mem_range, List.mem_append, List.mem_singleton, Finset.mem_insert, Option.some.injEq]
  constructor
  · rintro ⟨hj, hbefore | hnow⟩
    · exact .inr ⟨hj, hbefore⟩
    · exact .inl (receiptFrame_inj hid hj hi hnow)
  · rintro (rfl | ⟨hj, hbefore⟩)
    · exact ⟨hi, .inr rfl⟩
    · exact ⟨hj, .inl hbefore⟩

/-- An event that is none of them. -/
theorem framesIn_other (events : List SenderEvent) {ev : SenderEvent}
    (h : ∀ i < receipt.count, rawOf ev ≠ some (receiptFrame receipt id i)) :
    framesIn receipt id (events ++ [ev]) = framesIn receipt id events := by
  refine Finset.filter_congr fun j hj => ?_
  rw [List.map_append, List.mem_append, List.map_singleton, List.mem_singleton]
  exact or_iff_left fun heq => h j (Finset.mem_range.mp hj) heq.symm

/-- An event that brings no frame. -/
theorem framesIn_quiet (events : List SenderEvent) {ev : SenderEvent} (h : rawOf ev = none) :
    framesIn receipt id (events ++ [ev]) = framesIn receipt id events := by
  refine framesIn_other events fun i _ => ?_
  rw [h]
  exact (Option.some_ne_none _).symm

/-! ## What is half received -/

/-- Of the receipt exactly these frames are in, or nothing is half received under its id. -/
def Gathered (receipt : Sending) (key : JsString) (parts : Parts) (got : Finset Nat) : Prop :=
  if got = ∅ then parts.get? key = none
  else ∃ m, parts.get? key = some m ∧ m.type = receipt.type ∧ m.total = receipt.count ∧
    Holds m.got got receipt.piece

variable {parts : Parts} {got : Finset Nat} {i : Nat} {now : Int}

/-- What the reassembler works on when a frame of the receipt comes. -/
theorem Gathered.current (h : Gathered receipt (Hex.encode id) parts got) (now : Int) :
    ∃ m, (parts.get? (Hex.encode id)).getD
        { type := receipt.type, total := receipt.count, got := JsMap.empty, last := now } = m ∧
      m.type = receipt.type ∧ m.total = receipt.count ∧ Holds m.got got receipt.piece := by
  rw [Gathered] at h
  split at h
  · next hnil =>
    subst hnil
    rw [h]
    exact ⟨_, rfl, rfl, rfl, Holds.empty⟩
  · obtain ⟨m, hm, hall⟩ := h
    rw [hm]
    exact ⟨m, rfl, hall⟩

/-- **What a frame of the receipt does**: it is kept, or the receipt is whole. -/
theorem Gathered.add (h : Gathered receipt (Hex.encode id) parts got)
    (hsub : insert i got ⊆ Finset.range receipt.count) (now : Int) :
    let r := parts.addUnverified (receiptPart receipt id i) now
    if insert i got = Finset.range receipt.count then
      r.1 = some (receipt.type, receipt.msg) ∧ r.2.get? (Hex.encode id) = none
    else r.1 = none ∧ Gathered receipt (Hex.encode id) r.2 (insert i got) := by
  obtain ⟨m, hcurrent, htype, htotal, hholds⟩ := h.current now
  have hnew := hholds.set i
  have hsize := hnew.size_eq
  dsimp only
  unfold Parts.addUnverified
  rw [show (receiptPart receipt id i).id = Hex.encode id from rfl,
    show (receiptPart receipt id i).type = receipt.type from rfl,
    show (receiptPart receipt id i).total = receipt.count from rfl,
    show (receiptPart receipt id i).index = i from rfl,
    show (receiptPart receipt id i).data = receipt.piece i from rfl, hcurrent]
  dsimp only
  rw [if_neg (not_or.mpr ⟨not_not_intro htotal, not_not_intro htype⟩)]
  split
  · next hall =>
    rw [hall] at hnew hsize
    rw [Finset.card_range] at hsize
    rw [if_neg (by rw [hsize, htotal]; exact lt_irrefl _)]
    have hjoined : Partial.joined { m with got := m.got.set i (receipt.piece i), last := now } =
        receipt.msg := joined_eq htotal hnew
    exact ⟨by rw [hjoined, htype], JsMap.get?_delete_self _ _⟩
  · next hmore =>
    have hlt : (m.got.set i (receipt.piece i)).size < m.total := by
      rw [hsize, htotal]
      exact (card_lt_iff hsub).mpr hmore
    rw [if_pos hlt]
    refine ⟨rfl, ?_⟩
    rw [Gathered, if_neg (Finset.insert_nonempty i got).ne_empty]
    exact ⟨_, JsMap.get?_set_self _ _ _, htype, htotal, hnew⟩

/-- A frame that does not agree with what is in is ignored. -/
theorem Gathered.ignore (h : Gathered receipt (Hex.encode id) parts got) (hgot : got.Nonempty) {p : Frame}
    (hp : p.id = Hex.encode id) (hother : ¬ (p.type = receipt.type ∧ p.total = receipt.count)) (now : Int) :
    let r := parts.addUnverified p now
    r.1 = none ∧ Gathered receipt (Hex.encode id) r.2 got := by
  rw [Gathered, if_neg hgot.ne_empty] at h
  obtain ⟨m, hm, htype, htotal, hholds⟩ := h
  dsimp only
  unfold Parts.addUnverified
  rw [hp, hm, Option.getD_some]
  dsimp only
  have hmismatch : m.total ≠ p.total ∨ m.type ≠ p.type := by
    by_contra hagree
    obtain ⟨htot, hty⟩ := not_or.mp hagree
    exact hother ⟨(not_not.mp hty).symm.trans htype, (not_not.mp htot).symm.trans htotal⟩
  rw [if_pos hmismatch]
  refine ⟨rfl, ?_⟩
  rw [Gathered, if_neg hgot.ne_empty]
  exact ⟨m, JsMap.get?_set_self _ _ _, htype, htotal, hholds⟩

/-! ## The frames in a run -/

section Course

variable {S : ReceiptSdk Tx} {job : Job} {s : Sender}

/-- A frame that is not for this payment. -/
theorem onFrame_other {raw : Bytes} (h : ∀ p, parse raw = some p → p.id ≠ job.id) (now : Int) :
    onFrame job S s raw now = s := by
  unfold onFrame
  have hnone : (parse raw).filter (fun p => p.id = job.id) = none := by
    refine Option.filter_eq_none_iff.mpr fun p hp => ?_
    rw [decide_eq_true_eq]
    exact h p hp
  rw [hnone]

/-- A frame for this payment goes to the reassembler. -/
theorem onFrame_part {raw : Bytes} {p : Frame} (hparse : parse raw = some p) (hid : p.id = job.id) (now : Int) :
    onFrame job S s raw now =
      match (s.parts.addUnverified p now).1 with
      | none => { s with parts := (s.parts.addUnverified p now).2 }
      | some (type, msg) => onWhole job S { s with parts := (s.parts.addUnverified p now).2 } type msg := by
  have hfilter : (parse raw).filter (fun p => p.id = job.id) = some p := by
    rw [hparse, Option.filter_some, if_pos (decide_eq_true hid)]
  unfold onFrame
  split
  · next hnone => cases hnone.symm.trans hfilter
  · next hsome =>
    cases hsome.symm.trans hfilter
    rfl

/-- One of the frames of the receipt. -/
def Ours (receipt : Sending) (id raw : Bytes) : Prop := ∃ i < receipt.count, raw = receiptFrame receipt id i

/-- A run in which a receipt comes: what was before its first frame, what came until one of its frames was missing,
that frame, and the rest. -/
structure Hearing where
  before : List SenderEvent
  front : List SenderEvent
  last : Nat
  now : Int
  tail : List SenderEvent

namespace Hearing

variable (receipt : Sending) (id : Bytes) (h : Hearing)

def events : List SenderEvent := h.before ++ h.front ++ .frame (receiptFrame receipt id h.last) h.now :: h.tail

/-- All frames of the receipt come in, the last of them while the call goes on. -/
structure Arrives (S : ReceiptSdk Tx) (job : Job) : Prop where
  last_lt : h.last < receipt.count
  missing : framesIn receipt id h.front ≠ Finset.range receipt.count
  complete : insert h.last (framesIn receipt id h.front) = Finset.range receipt.count
  going : (run job S (start job) (h.before ++ h.front)).phase ≠ .ended

/-- Nothing was half received under the id when the first frame of the receipt came, and what comes with the type of
a receipt is of this one. -/
structure Clear (S : ReceiptSdk Tx) (job : Job) : Prop where
  idle : (run job S (start job) h.before).parts.get? job.id = none
  first : ∀ ev ∈ h.front.head?, ∃ raw, rawOf ev = some raw ∧ Ours receipt id raw
  undisturbed : ∀ raw now p, .frame raw now ∈ h.front → parse raw = some p → p.id = job.id →
    p.type = receipt.type ∧ p.total = receipt.count → Ours receipt id raw
  alone : ∀ raw now p, .frame raw now ∈ h.tail → parse raw = some p → p.id = job.id →
    p.type = receipt.type → Ours receipt id raw

end Hearing

variable {receipt : Sending} {id : Bytes} {h : Hearing}

theorem framesIn_mono {front back : List SenderEvent} :
    framesIn receipt id front ⊆ framesIn receipt id (front ++ back) := by
  refine Finset.monotone_filter_right _ fun i _ hi => ?_
  rw [List.map_append]
  exact List.mem_append_left _ hi

/-- The first event brings a frame of the receipt. -/
theorem framesIn_nonempty {events : List SenderEvent} (hne : events ≠ [])
    (hfirst : ∀ ev ∈ events.head?, ∃ raw, rawOf ev = some raw ∧ Ours receipt id raw) :
    (framesIn receipt id events).Nonempty := by
  obtain ⟨ev, rest, rfl⟩ := List.exists_cons_of_ne_nil hne
  obtain ⟨raw, hraw, i, hi, rfl⟩ := hfirst ev rfl
  refine ⟨i, Finset.mem_filter.mpr ⟨Finset.mem_range.mpr hi, ?_⟩⟩
  rw [List.map_cons, hraw]
  exact List.mem_cons_self

/-- **Until the last frame, exactly the frames of the receipt that came are in.** -/
theorem gathered_front (hid : id.length = 8) (hjob : job.id = Hex.encode id)
    (harrives : h.Arrives receipt id S job) (hclear : h.Clear receipt id S job) {front : List SenderEvent}
    (hfront : front <+: h.front) :
    Gathered receipt (Hex.encode id) (run job S (start job) (h.before ++ front)).parts
      (framesIn receipt id front) := by
  induction front using List.reverseRecOn with
  | nil =>
      have hnone : framesIn receipt id [] = ∅ := Finset.filter_false_of_mem fun i _ => List.not_mem_nil
      rw [hnone, Gathered, if_pos rfl, List.append_nil, ← hjob]
      exact hclear.idle
  | append_singleton front ev ih =>
      obtain ⟨rest, hrest⟩ := hfront
      have hprefix : front <+: h.front := ⟨ev :: rest, by rw [← hrest, List.append_assoc]; rfl⟩
      have hmem : ev ∈ h.front := by
        rw [← hrest]
        exact List.mem_append_left _ (List.mem_append_right _ List.mem_cons_self)
      have hheld := ih hprefix
      have hgoing : (run job S (start job) (h.before ++ front)).phase ≠ .ended := by
        intro hended
        refine harrives.going ?_
        rw [← hrest, List.append_assoc, ← List.append_assoc, run_append, run_ended hended]
        exact hended
      rw [← List.append_assoc, run_append]
      show Gathered receipt (Hex.encode id) (step job S (run job S (start job) (h.before ++ front)) ev).parts _
      cases ev with
      | sent =>
          rw [framesIn_quiet front rfl, (heard_step .sent fun _ _ h => (by cases h)).2]
          exact hheld
      | timer =>
          rw [framesIn_quiet front rfl, (heard_step .timer fun _ _ h => (by cases h)).2]
          exact hheld
      | resume =>
          rw [framesIn_quiet front rfl, (heard_step .resume fun _ _ h => (by cases h)).2]
          exact hheld
      | frame raw now =>
          rw [step, if_neg hgoing]
          by_cases hours : Ours receipt id raw
          · obtain ⟨i, hi, rfl⟩ := hours
            rw [framesIn_frame hid front hi]
            have hsub : insert i (framesIn receipt id front) ⊆ Finset.range receipt.count :=
              Finset.insert_subset (Finset.mem_range.mpr hi) (framesIn_subset front)
            have hmore : insert i (framesIn receipt id front) ≠ Finset.range receipt.count := by
              intro hall
              refine harrives.missing (Finset.Subset.antisymm (framesIn_subset _) ?_)
              rw [← hall, ← framesIn_frame hid front hi now, ← hrest]
              exact framesIn_mono
            have hadd := hheld.add hsub now
            dsimp only at hadd
            rw [if_neg hmore] at hadd
            rw [onFrame_part (parse_receiptFrame hid hi) hjob.symm, hadd.1]
            exact hadd.2
          · have hother : ∀ i < receipt.count, rawOf (.frame raw now) ≠ some (receiptFrame receipt id i) :=
              fun i hi hraw => hours ⟨i, hi, Option.some.inj hraw⟩
            rw [framesIn_other front hother]
            by_cases hparse : ∃ p, parse raw = some p ∧ p.id = job.id
            · obtain ⟨p, hp, hpid⟩ := hparse
              have hne : front ≠ [] := by
                rintro rfl
                obtain ⟨_, hraw, hfirst⟩ := hclear.first (.frame raw now) (by rw [← hrest]; rfl)
                cases hraw
                exact hours hfirst
              have hgot : (framesIn receipt id front).Nonempty := by
                refine framesIn_nonempty hne fun ev hev => hclear.first ev ?_
                obtain ⟨_, hrest⟩ := hprefix
                rw [← hrest, List.head?_append_of_ne_nil _ hne]
                exact hev
              have hignore := hheld.ignore hgot (hpid.trans hjob)
                (fun hagrees => hours (hclear.undisturbed raw now p hmem hp hpid hagrees)) now
              rw [onFrame_part hp hpid, hignore.1]
              exact hignore.2
            · rw [onFrame_other fun p hp hpid => hparse ⟨p, hp, hpid⟩]
              exact hheld

/-! ## After the receipt -/

/-- Nothing is half received under the id that another receipt is part of. -/
def Kept (receipt : Sending) (key : JsString) (parts : Parts) : Prop :=
  (∃ m, parts.get? key = some m ∧ m.type ≠ receipt.type) ∨
    ∃ got ⊆ Finset.range receipt.count, Gathered receipt key parts got

variable {parts : Parts}

theorem Kept.nil {key : JsString} (h : parts.get? key = none) : Kept receipt key parts := by
  refine .inr ⟨∅, Finset.empty_subset _, ?_⟩
  rw [Gathered, if_pos rfl]
  exact h

/-- A frame of another type never makes the receipt whole. -/
theorem Kept.other (h : Kept receipt (Hex.encode id) parts) {p : Frame} (hp : p.id = Hex.encode id)
    (htype : p.type ≠ receipt.type) (now : Int) :
    let r := parts.addUnverified p now
    (∀ msg, r.1 ≠ some (receipt.type, msg)) ∧ Kept receipt (Hex.encode id) r.2 := by
  by_cases hhalf : ∃ got ⊆ Finset.range receipt.count, got.Nonempty ∧ Gathered receipt (Hex.encode id) parts got
  · obtain ⟨got, hsub, hgot, hheld⟩ := hhalf
    have hignore := hheld.ignore hgot hp (fun hagrees => htype hagrees.1) now
    refine ⟨fun msg => ?_, .inr ⟨got, hsub, hignore.2⟩⟩
    rw [hignore.1]
    exact (Option.some_ne_none _).symm
  · -- What is collected is of another type, or begins with this frame.
    have hm : ((parts.get? p.id).getD
        { type := p.type, total := p.total, got := JsMap.empty, last := now }).type ≠ receipt.type := by
      rw [hp]
      rcases h with ⟨m, hm, hother⟩ | ⟨got, hsub, hheld⟩
      · rw [hm]
        exact hother
      · have hnone : got = ∅ := Finset.not_nonempty_iff_eq_empty.mp fun hgot => hhalf ⟨got, hsub, hgot, hheld⟩
        rw [Gathered, if_pos hnone] at hheld
        rw [hheld]
        exact htype
    dsimp only
    unfold Parts.addUnverified
    dsimp only
    rw [hp] at hm ⊢
    split
    · exact ⟨fun msg h => (by cases h), .inl ⟨_, JsMap.get?_set_self _ _ _, hm⟩⟩
    · split
      · exact ⟨fun msg h => (by cases h), .inl ⟨_, JsMap.get?_set_self _ _ _, hm⟩⟩
      · refine ⟨fun msg h => hm ?_, .nil (JsMap.get?_delete_self _ _)⟩
        exact congrArg Prod.fst (Option.some.inj h)

/-- A frame of the receipt is kept, or ignored, or makes it whole. -/
theorem Kept.ours (h : Kept receipt (Hex.encode id) parts) {i : Nat} (hi : i < receipt.count) (now : Int) :
    let r := parts.addUnverified (receiptPart receipt id i) now
    (r.1 = none ∨ r.1 = some (receipt.type, receipt.msg)) ∧ Kept receipt (Hex.encode id) r.2 := by
  rcases h with ⟨m, hm, hother⟩ | ⟨got, hsub, hheld⟩
  · dsimp only
    unfold Parts.addUnverified
    rw [show (receiptPart receipt id i).id = Hex.encode id from rfl, hm, Option.getD_some]
    dsimp only
    rw [if_pos (.inr hother)]
    exact ⟨.inl rfl, .inl ⟨m, JsMap.get?_set_self _ _ _, hother⟩⟩
  · have hnew : insert i got ⊆ Finset.range receipt.count := Finset.insert_subset (Finset.mem_range.mpr hi) hsub
    have hadd := hheld.add hnew now
    dsimp only at hadd
    split at hadd
    · exact ⟨.inr hadd.1, .nil hadd.2⟩
    · exact ⟨.inl hadd.1, .inr ⟨_, hnew, hadd.2⟩⟩

/-- The receipt is in, and nothing but the end of the call is left. -/
structure Settled (receipt : Sending) (id : Bytes) (s : Sender) : Prop where
  receipt_eq : s.receipt = some (receiptOf receipt.msg)
  awake : s.phase ≠ .waiting false
  kept : Kept receipt (Hex.encode id) s.parts

theorem phase_wake : (wake s).phase ≠ .waiting false := by
  unfold wake
  split
  · intro h
    cases h
  · next hnot => exact hnot false

/-- With the receipt the loop is over. -/
theorem phase_conclude (h : s.receipt.isSome = true) : (conclude job s).phase = .ended := by
  unfold conclude
  rw [if_pos h]

theorem Settled.wake (hreceipt : s.receipt = some (receiptOf receipt.msg))
    (hkept : Kept receipt (Hex.encode id) s.parts) : Settled receipt id (wake s) where
  receipt_eq := heard_wake.1.trans hreceipt
  awake := phase_wake
  kept := by
    rw [heard_wake.2]
    exact hkept

/-- The receipt is taken. -/
theorem Settled.of_whole (htype : receipt.type = .receipt)
    (hsigned : SignedBy S job.pinned receipt.msg) (hnames : Hex.encode (receipt.msg.take 32) = job.txid)
    (hkept : Kept receipt (Hex.encode id) s.parts) :
    Settled receipt id (onWhole job S s receipt.type receipt.msg) := by
  have htxid : (receiptOf receipt.msg).txid = job.txid := by
    rw [← hnames, receiptOf, List.take_take]
    rfl
  rw [htype, onWhole, readReceipt_signed hsigned, Option.filter_some, if_pos (decide_eq_true htxid)]
  exact .wake rfl hkept

/-- **Nothing that comes later takes the receipt away.** -/
theorem Settled.step (hid : id.length = 8) (hjob : job.id = Hex.encode id) (htype : receipt.type = .receipt)
    (hsigned : SignedBy S job.pinned receipt.msg) (hnames : Hex.encode (receipt.msg.take 32) = job.txid)
    (h : Settled receipt id s) {ev : SenderEvent} (halone : ∀ raw now p, ev = .frame raw now →
      parse raw = some p → p.id = job.id → p.type = receipt.type → Ours receipt id raw) :
    Settled receipt id (step job S s ev) := by
  have hsome : s.receipt.isSome = true := by
    rw [h.receipt_eq]
    rfl
  cases ev with
  | frame raw now =>
      rw [Sender.step]
      split
      · exact h
      · by_cases hparse : ∃ p, parse raw = some p ∧ p.id = job.id
        · obtain ⟨p, hp, hpid⟩ := hparse
          rw [onFrame_part hp hpid]
          by_cases hptype : p.type = receipt.type
          · obtain ⟨i, hi, rfl⟩ := halone raw now p rfl hp hpid hptype
            rw [parse_receiptFrame hid hi] at hp
            cases hp
            obtain ⟨hnone | hwhole, hkept⟩ := h.kept.ours hi now
            · rw [hnone]
              exact ⟨h.receipt_eq, h.awake, hkept⟩
            · rw [hwhole]
              exact .of_whole htype hsigned hnames hkept
          · obtain ⟨hother, hkept⟩ := h.kept.other (hpid.trans hjob) hptype now
            split
            · exact ⟨h.receipt_eq, h.awake, hkept⟩
            · next type msg hwhole =>
              have hne : type ≠ .receipt := by
                rintro rfl
                exact hother msg (htype ▸ hwhole)
              unfold onWhole
              split
              · exact .wake h.receipt_eq hkept
              · exact absurd rfl hne
              · exact ⟨h.receipt_eq, h.awake, hkept⟩
        · rw [onFrame_other fun p hp hpid => hparse ⟨p, hp, hpid⟩]
          exact h
  | sent =>
      have hheard : (Sender.step job S s .sent).receipt = s.receipt ∧ (Sender.step job S s .sent).parts = s.parts :=
        heard_step .sent fun _ _ h => (by cases h)
      refine ⟨hheard.1.trans h.receipt_eq, ?_, hheard.2 ▸ h.kept⟩
      rw [Sender.step]
      split
      · unfold sentAll
        rw [if_neg (by rw [h.receipt_eq]; exact Bool.false_ne_true), phase_conclude hsome]
        intro h
        cases h
      · intro h
        cases h
      · exact h.awake
  | timer =>
      have hheard : (Sender.step job S s .timer).receipt = s.receipt ∧ (Sender.step job S s .timer).parts = s.parts :=
        heard_step .timer fun _ _ h => (by cases h)
      exact ⟨hheard.1.trans h.receipt_eq, phase_wake, hheard.2 ▸ h.kept⟩
  | resume =>
      have hheard : (Sender.step job S s .resume).receipt = s.receipt ∧ (Sender.step job S s .resume).parts = s.parts :=
        heard_step .resume fun _ _ h => (by cases h)
      refine ⟨hheard.1.trans h.receipt_eq, ?_, hheard.2 ▸ h.kept⟩
      rw [Sender.step]
      split
      · rw [phase_conclude hsome]
        intro h
        cases h
      · exact h.awake

theorem Settled.run (hid : id.length = 8) (hjob : job.id = Hex.encode id) (htype : receipt.type = .receipt)
    (hsigned : SignedBy S job.pinned receipt.msg) (hnames : Hex.encode (receipt.msg.take 32) = job.txid)
    {events : List SenderEvent} (halone : ∀ raw now p, .frame raw now ∈ events →
      parse raw = some p → p.id = job.id → p.type = receipt.type → Ours receipt id raw)
    (h : Settled receipt id s) : Settled receipt id (run job S s events) := by
  induction events generalizing s with
  | nil => exact h
  | cons ev events ih =>
      refine ih (fun raw now p hmem => halone raw now p (List.mem_cons_of_mem _ hmem)) ?_
      refine h.step hid hjob htype hsigned hnames fun raw now p hev => halone raw now p ?_
      rw [hev]
      exact List.mem_cons_self

/-- What is left of the call once the receipt is in: the round goes out, or the wait goes on. -/
def toEnd (s : Sender) : List SenderEvent :=
  match s.phase with
  | .sending rest => List.replicate (rest.length + 1) .sent
  | .waiting _ => [.resume]
  | .ended => []

theorem not_frame_toEnd (raw : Bytes) (now : Int) : .frame raw now ∉ toEnd s := by
  unfold toEnd
  split
  · intro hmem
    cases List.eq_of_mem_replicate hmem
  · intro hmem
    cases List.mem_singleton.mp hmem
  · exact List.not_mem_nil

/-- With the receipt, the round that is on the air is the last. -/
theorem ended_of_sending (rest : List Nat) (h : s.receipt.isSome = true) (hphase : s.phase = .sending rest) :
    (run job S s (List.replicate (rest.length + 1) .sent)).phase = .ended := by
  induction rest generalizing s with
  | nil =>
      show (step job S s .sent).phase = .ended
      rw [step, hphase]
      show (sentAll job s).phase = .ended
      rw [sentAll, if_neg, phase_conclude h]
      rw [Option.isSome_iff_exists] at h
      obtain ⟨r, hr⟩ := h
      rw [hr]
      exact Bool.false_ne_true
  | cons i rest ih =>
      rw [List.length_cons, List.replicate_succ]
      refine ih ?_ ?_
      · rw [(heard_step .sent fun _ _ h => (by cases h)).1]
        exact h
      · rw [step, hphase]

/-- **The call ends.** -/
theorem ended_toEnd (h : Settled receipt id s) : (run job S s (toEnd s)).phase = .ended := by
  have hsome : s.receipt.isSome = true := by
    rw [h.receipt_eq]
    rfl
  have hawake := h.awake
  unfold toEnd
  cases hphase : s.phase with
  | sending rest => exact ended_of_sending rest hsome hphase
  | waiting woken =>
      cases woken with
      | false => exact absurd hphase hawake
      | true =>
          show (step job S s .resume).phase = .ended
          rw [step, if_pos hphase, phase_conclude hsome]
  | ended => exact hphase

end Course

/-! ## Whole runs -/

/-- The first frame of a message carries its id. -/
theorem parse_first {type : FrameType} {msg id : Bytes} {mtu : Nat} {frames : List Bytes} (hid : id.length = 8)
    (h : split type msg mtu id = .ok frames) :
    ∃ p, parse (frames.getD 0 []) = some p ∧ p.id = Hex.encode id := by
  unfold split at h
  dsimp only at h
  split at h
  · cases h
  · split at h
    · cases h
    · next hshort =>
      cases h
      have hpos : 0 < max 1 ((msg.length + (mtu - header) - 1) / (mtu - header)) :=
        Nat.lt_of_lt_of_le Nat.zero_lt_one (Nat.le_max_left 1 _)
      rw [List.getD_eq_getElem?_getD, List.getElem?_map, List.getElem?_range hpos]
      exact ⟨_, parse_frameAt hid hpos (Nat.not_lt.mp hshort), rfl⟩

/-- The job of a payment carries its id. -/
theorem id_jobOf {S : SenderSdk Tx} {tx : Tx} {beef : Bool} {mtu : Nat} {pinned : JsString} {tries : Nat} {job : Job}
    (hid : (messageId S.toNode (encodePayment S tx beef).2).length = 8)
    (h : jobOf S tx beef mtu pinned tries = .ok job) :
    job.id = Hex.encode (messageId S.toNode (encodePayment S tx beef).2) ∧ job.pinned = pinned := by
  unfold jobOf at h
  obtain ⟨frames, hframes, h⟩ := Outcome.bind_eq_ok.mp h
  obtain ⟨p, hp, hpid⟩ := parse_first hid hframes
  rw [hp] at h
  cases h
  exact ⟨hpid, rfl⟩

/-- **A receipt is accepted whenever it comes in**, if it begins with nothing half received under its id and no other
receipt follows; and what is accepted is signed by the pinned gateway and names the transaction. -/
theorem receipt_accepted (S : SenderSdk Tx) (hlong : LongDigests S.toNode) (tx : Tx) (beef : Bool) (mtu : Nat)
    (pinned : JsString) (hpinned : pinned ≠ []) (tries : Nat) (job : Job)
    (hjob : jobOf S tx beef mtu pinned tries = .ok job) :
    (∀ events r, (run job S.toReceiptSdk (start job) events).receipt = some r →
      Genuine S.toReceiptSdk job r) ∧
    ∀ receipt : Sending, receipt.type = .receipt → SignedBy S.toReceiptSdk pinned receipt.msg →
      Hex.encode (receipt.msg.take 32) = job.txid → ∀ h : Hearing,
      let id := messageId S.toNode (encodePayment S tx beef).2
      h.Arrives receipt id S.toReceiptSdk job → h.Clear receipt id S.toReceiptSdk job →
        let s := run job S.toReceiptSdk (start job) (h.events receipt id)
        let t := run job S.toReceiptSdk s (toEnd s)
        s.receipt = some (receiptOf receipt.msg) ∧ t.phase = .ended ∧
          t.receipt = some (receiptOf receipt.msg) := by
  have hid : (messageId S.toNode (encodePayment S tx beef).2).length = 8 := by
    rw [messageId, List.length_take]
    exact Nat.min_eq_left (hlong _)
  obtain ⟨hjobId, hpin⟩ := id_jobOf hid hjob
  refine ⟨genuine_run (hpin.symm ▸ hpinned), ?_⟩
  intro receipt htype hsigned hnames h id harrives hclear
  rw [← hpin] at hsigned
  have hheld := gathered_front hid hjobId harrives hclear (List.prefix_refl _)
  have hadd := hheld.add (Finset.insert_subset (Finset.mem_range.mpr harrives.last_lt) (framesIn_subset _)) h.now
  dsimp only at hadd
  rw [if_pos harrives.complete] at hadd
  -- The last frame makes the receipt whole.
  have hlast : Settled receipt id (run job S.toReceiptSdk (start job)
      (h.before ++ h.front ++ [.frame (receiptFrame receipt id h.last) h.now])) := by
    rw [run_append]
    show Settled receipt id (step job S.toReceiptSdk _ (.frame (receiptFrame receipt id h.last) h.now))
    rw [step, if_neg harrives.going, onFrame_part (parse_receiptFrame hid harrives.last_lt) hjobId.symm, hadd.1]
    exact .of_whole htype hsigned hnames (.nil hadd.2)
  have hend : Settled receipt id (run job S.toReceiptSdk (start job) (h.events receipt id)) := by
    rw [Hearing.events, ← List.singleton_append, ← List.append_assoc, run_append]
    exact hlast.run hid hjobId htype hsigned hnames hclear.alone
  have hafter : Settled receipt id (run job S.toReceiptSdk
      (run job S.toReceiptSdk (start job) (h.events receipt id))
      (toEnd (run job S.toReceiptSdk (start job) (h.events receipt id)))) :=
    hend.run hid hjobId htype hsigned hnames fun raw now p hmem => absurd hmem (not_frame_toEnd raw now)
  exact ⟨hend.receipt_eq, ended_toEnd hend, hafter.receipt_eq⟩

/-! ## A NACK that lost a frame -/

/-- The payment of the samples, with longer digests. -/
def heardSdk : SenderSdk Unit :=
  { sampleReceiptSdk with
    sha256 := longNode.sha256
    toEF _ := samplePayment
    toBEEF _ := samplePayment }

/-- The id of the payment. -/
def heardId : Bytes := messageId heardSdk.toNode samplePayment

def heardJob : Job where
  frames := [frameAt .payEf samplePayment heardId 187 1 0]
  id := Hex.encode heardId
  txid := List.replicate 64 49
  pinned := Hex.encode (List.replicate 33 2)
  tries := 1

/-- What the gateway signs: the transaction, its status, the time and the id. -/
def heardBody : Bytes := List.replicate 32 17 ++ [1] ++ List.replicate 12 0 ++ List.replicate 33 2

/-- A receipt in one frame. -/
def heardReceipt : Sending where
  type := .receipt
  msg := heardBody ++ (heardSdk.sha256 (domain ++ heardBody)).take 8
  mtu := 200
  header_lt := by decide
  short := by decide +kernel

/-- The same receipt in two frames. -/
def splitReceipt : Sending := { heardReceipt with mtu := 60, header_lt := by decide, short := by decide +kernel }

theorem heardReceipt_signed : SignedBy heardSdk.toReceiptSdk heardJob.pinned heardReceipt.msg :=
  ⟨by decide +kernel, by decide +kernel, by decide +kernel⟩

/-- Its second frame comes first, then half a NACK, and the other frame while the call waits. -/
def splitHearing : Hearing where
  before := [.sent]
  front := [.frame (receiptFrame splitReceipt heardId 1) 0, .frame (receiptFrame twoFrames heardId 0) 0]
  last := 0
  now := 0
  tail := []

/-- The receipt in two frames is accepted. -/
theorem receipt_accepted_split :
    (∀ events r, (run heardJob heardSdk.toReceiptSdk (start heardJob) events).receipt = some r →
      Genuine heardSdk.toReceiptSdk heardJob r) ∧
      let s := run heardJob heardSdk.toReceiptSdk (start heardJob) (splitHearing.events splitReceipt heardId)
      let t := run heardJob heardSdk.toReceiptSdk s (toEnd s)
      s.receipt = some (receiptOf heardReceipt.msg) ∧ t.phase = .ended ∧
        t.receipt = some (receiptOf heardReceipt.msg) := by
  have hall := receipt_accepted heardSdk longNode_longDigests () false 200 heardJob.pinned (by decide +kernel) 1
    heardJob rfl
  have hnack : ∀ p, parse (receiptFrame twoFrames heardId 0) = some p → p.type ≠ .receipt := by decide +kernel
  refine ⟨hall.1, hall.2 splitReceipt rfl heardReceipt_signed (by decide +kernel) splitHearing ?_ ?_⟩
  · exact ⟨by decide +kernel, by decide +kernel, by decide +kernel, by decide +kernel⟩
  · refine ⟨rfl, ?_, ?_, fun raw now p hmem => absurd hmem List.not_mem_nil⟩
    · rintro ev ⟨⟩
      exact ⟨_, rfl, 1, by decide +kernel, rfl⟩
    · intro raw now p hmem hp _ hagrees
      rcases List.mem_pair.mp hmem with hours | hother
      · cases hours
        exact ⟨1, by decide +kernel, rfl⟩
      · cases hother
        exact absurd hagrees.1 (hnack p hp)

/-- **Half a NACK keeps the receipt out**: the receipt comes whole while the call waits, and the call ends without. -/
theorem receipt_kept_out :
    let S := heardSdk.toReceiptSdk
    let s := run heardJob S (start heardJob) [.sent, .frame (receiptFrame twoFrames heardId 0) 0]
    let t := run heardJob S s [.frame (receiptFrame heardReceipt heardId 0) 0, .timer, .resume]
    jobOf heardSdk () false 200 heardJob.pinned 1 = .ok heardJob ∧
      SignedBy S heardJob.pinned heardReceipt.msg ∧ Hex.encode (heardReceipt.msg.take 32) = heardJob.txid ∧
      heardReceipt.count = 1 ∧ s.phase = .waiting false ∧ t.phase = .ended ∧ t.receipt = none :=
  ⟨rfl, heardReceipt_signed, by decide +kernel⟩

end DtnCustody.Radio.Sender
