/-
# DtnCustody.Gateway.Tcpcl3Acks — which send an acknowledgement resolves, in version 3.

Version 3 has no transfer ids: an acknowledgement resolves the send that waits if it names the length
of its bundle. The peer's answers arrive in the order of the segments, so this is the right send as
long as no answer to an earlier one is outstanding. A send that times out leaves such answers behind.

Here the segments and the answers to them carry, beside what is on the wire, the number of the send
they belong to. A send is resolved by an answer to its own last segment if and only if no answer that
belongs to an earlier send, and arrives while another one waits, names the length of the bundle that
waits (`resolves_own`).
-/
import DtnCustody.Gateway.Tcpcl3

namespace DtnCustody

open Base

namespace Tcpcl3

/-! ## A session and a peer that conforms -/

/-- A segment on its way to the peer. -/
structure Piece where
  send : Nat
  flags : UInt8
  data : Bytes
  deriving DecidableEq, Repr

/-- An answer on its way back: the number of bytes acknowledged, or a refusal with its reason. -/
inductive Reply where
  | ack (send value : Nat)
  | refuse (send : Nat) (reason : UInt8)
  deriving DecidableEq, Repr

/-- What the session reads. -/
def Reply.message : Reply → Message
  | .ack _ value => .ack value
  | .refuse _ reason => .refuse reason

def Output.resolved : Output → Option Nat
  | .resolve n => some n
  | _ => none

/-- A session, what is on its way in both directions, and the history of both. -/
structure Bond where
  session : Session
  wire : List Piece := []
  /-- The transfer the peer is receiving: its send, and the bytes received. -/
  rx : Option (Nat × Nat) := none
  replies : List Reply := []
  /-- The lengths of the bundles, in the order of the sends. -/
  sent : List Nat := []
  /-- What the peer has acknowledged: a send, and a number of bytes of it. -/
  acked : List (Nat × Nat) := []
  /-- The sends that were resolved, with the answer that did it. -/
  resolutions : List (Nat × Option Reply) := []

inductive Act where
  | send (bundle : Bytes)
  | runNext
  | written (err : Option JsString)
  /-- The peer takes the next segment, and acknowledges it or refuses the bundle. -/
  | receive (refusal : Option UInt8)
  /-- The next answer of the peer arrives. -/
  | deliver
  /-- Any other message of the peer. -/
  | aside (m : Message)
  | ackTimeout
  | quiet
  | silence
  | close
  | lost (err : Option JsString)

/-- A message that is neither an answer nor the contact header. -/
def Message.isAside : Message → Bool
  | .ack _ => false
  | .refuse _ => false
  | .contact _ _ _ _ => false
  | _ => true

namespace Bond

/-- The session goes on to `s`, on account of an answer or of none. -/
def follow (b : Bond) (s : Session) (cause : Option Reply) : Bond :=
  { b with
    session := s
    resolutions := b.resolutions ++
      ((s.log.drop b.session.log.length).filterMap Output.resolved).map fun n => (n, cause) }

/-- The segments that the next send writes. -/
def pieces (b : Bond) : List Piece :=
  match b.session.running, b.session.queue with
  | none, (n, bundle) :: _ =>
      if b.session.closed then []
      else (Session.cut (max 1 b.session.opts.segmentMru) bundle).map fun c => ⟨n, c.1, c.2⟩
  | _, _ => []

/-- The peer takes a segment. What continues no transfer is passed over, as behind a refusal. -/
def receive (b : Bond) (refusal : Option UInt8) : Bond :=
  match b.wire with
  | [] => b
  | piece :: later =>
      let b := { b with wire := later }
      match if hasBit piece.flags SEG.START then some (piece.send, 0) else b.rx with
      | none => { b with rx := none }
      | some (n, got) =>
          let got := got + piece.data.length
          match refusal with
          | some reason => { b with rx := none, replies := b.replies ++ [.refuse n reason] }
          | none =>
              { b with
                rx := if hasBit piece.flags SEG.END then none else some (n, got)
                replies := b.replies ++ [.ack n got]
                acked := b.acked ++ [(n, got)] }

def step (b : Bond) : Act → Bond
  | .send bundle =>
      { b.follow (b.session.send bundle) none with
        sent := if b.session.state = .established then b.sent ++ [bundle.length] else b.sent }
  | .runNext => { b.follow b.session.runNext none with wire := b.wire ++ b.pieces }
  | .written err => b.follow (b.session.onWritten err) none
  | .receive refusal => b.receive refusal
  | .deliver =>
      match b.replies with
      | [] => b
      | reply :: later =>
          let b := { b with replies := later }
          if b.session.closed then b
          else b.follow (b.session.onMessage reply.message) (some reply)
  | .aside m => if m.isAside then b.follow (b.session.onMessage m) none else b
  | .ackTimeout => b.follow b.session.onAckTimeout none
  | .quiet => b.follow b.session.onQuiet none
  | .silence => b.follow b.session.onSilence none
  | .close => b.follow b.session.close none
  | .lost err => b.follow (b.session.teardown err) none

def run (b : Bond) (as : List Act) : Bond := as.foldl step b

/-- The session when it has read the contact header of the peer. -/
def new (o : Options) (flags : UInt8) (interval : Nat) (eid : JsString) : Bond where
  session := (Session.new o).onContact VERSION flags interval eid

/-- **Every send that was resolved was resolved by an answer to itself**, after the peer had
acknowledged the last byte of its bundle. -/
def Own (b : Bond) : Prop :=
  ∀ r ∈ b.resolutions, ∃ total ∈ b.sent[r.1]?, r.2 = some (.ack r.1 total) ∧ (r.1, total) ∈ b.acked

instance (b : Bond) : Decidable b.Own := by
  unfold Own
  infer_instance

/-- Where an acknowledgement arrives that names the length of the bundle that waits, it belongs to
that bundle. -/
def CleanStep (b : Bond) : Act → Prop
  | .deliver =>
      match b.replies, b.session.cur with
      | .ack n value :: _, some c => value = c.total → n = c.send
      | _, _ => True
  | _ => True

instance (b : Bond) (a : Act) : Decidable (b.CleanStep a) := by
  unfold CleanStep
  split
  · split <;> infer_instance
  · infer_instance

def CleanRun : Bond → List Act → Prop
  | _, [] => True
  | b, a :: as => b.CleanStep a ∧ CleanRun (b.step a) as

instance decidableCleanRun : ∀ (b : Bond) (as : List Act), Decidable (CleanRun b as)
  | _, [] => isTrue trivial
  | b, a :: as =>
      have := decidableCleanRun (b.step a) as
      inferInstanceAs (Decidable (_ ∧ _))

end Bond

/-! ## What each callback does to the send that waits -/

namespace Session

/-- No send is resolved, no other one starts, and the one that waits goes on waiting or is given
up. -/
structure Settles (s s' : Session) : Prop where
  acks : s'.acks = s.acks
  writing : s'.writing = s.writing
  queue : s'.queue = s.queue
  sends : s'.sends = s.sends
  cur : s'.cur = s.cur ∨ s'.cur = none
  closed : s'.closed = true → s.closed = true ∨ s'.cur = none
  log : ∃ outs, s'.log = s.log ++ outs ∧ outs.filterMap Output.resolved = []

theorem Settles.refl (s : Session) : Settles s s :=
  ⟨rfl, rfl, rfl, rfl, .inl rfl, .inl, [], by simp, rfl⟩

theorem Settles.trans {s s' s'' : Session} (h : Settles s s') (h' : Settles s' s'') :
    Settles s s'' := by
  obtain ⟨outs, hlog, hnone⟩ := h.log
  obtain ⟨outs', hlog', hnone'⟩ := h'.log
  refine ⟨h'.acks.trans h.acks, h'.writing.trans h.writing, h'.queue.trans h.queue,
    h'.sends.trans h.sends, ?_, ?_, outs ++ outs', ?_, ?_⟩
  · rcases h'.cur with hsame | hgone
    · rcases h.cur with hcur | hcur
      · exact .inl (hsame.trans hcur)
      · exact .inr (hsame.trans hcur)
    · exact .inr hgone
  · intro hclosed
    rcases h'.closed hclosed with hbefore | hgone
    · rcases h.closed hbefore with hfirst | hgone
      · exact .inl hfirst
      · rcases h'.cur with hsame | hnow
        · exact .inr (hsame.trans hgone)
        · exact .inr hnow
    · exact .inr hgone
  · rw [hlog', hlog, List.append_assoc]
  · rw [List.filterMap_append, hnone, hnone']
    rfl

theorem settles_out (s : Session) {o : Output} (h : o.resolved = none) : Settles s (s.out o) :=
  ⟨rfl, rfl, rfl, rfl, .inl rfl, .inl, [o], rfl, by simp [h]⟩

theorem settles_settle (s : Session) {o : Output} (h : o.resolved = none) : Settles s (s.settle o) :=
  ⟨rfl, rfl, rfl, rfl, .inr rfl, .inl, [o], rfl, by simp [h]⟩

theorem settles_write (s : Session) (bytes : Bytes) : Settles s (s.write bytes) := by
  unfold write
  split
  · exact .refl s
  · exact settles_out s rfl

theorem settles_teardown (s : Session) (err : Option JsString) : Settles s (s.teardown err) := by
  unfold teardown
  split
  · exact .refl s
  · -- What waited is rejected, and nothing waits any more.
    dsimp only
    split
    · rename_i c _
      exact ⟨rfl, rfl, rfl, rfl, .inr rfl, fun _ => .inr rfl,
        [.rejected c.send _, .fail _, .destroyed, .close err], List.append_assoc _ _ _, rfl⟩
    · rename_i hcur
      exact ⟨rfl, rfl, rfl, rfl, .inl rfl, fun _ => .inr hcur, [.fail _, .destroyed, .close err], rfl,
        rfl⟩

theorem settles_onSegment (s : Session) (flags : UInt8) (data : Bytes) :
    Settles s (s.onSegment flags data) := by
  have hrx : ∀ (s : Session) rx rxBytes, Settles s { s with rx := rx, rxBytes := rxBytes } :=
    fun _ _ _ => ⟨rfl, rfl, rfl, rfl, .inl rfl, .inl, [], by simp, rfl⟩
  have hpart : ∀ (s : Session) parts, Settles s (s.onPart flags data parts) := by
    intro s parts
    have hheld := hrx s (some (parts ++ [data])) (s.rxBytes + data.length)
    unfold onPart
    dsimp only
    split
    · exact (hheld.trans (settles_write _ _)).trans (hrx _ none _)
    · have hacked : ∀ b : Bool, Settles s (if b then
          write { s with rx := some (parts ++ [data]), rxBytes := s.rxBytes + data.length }
            (encodeAck (s.rxBytes + data.length))
          else { s with rx := some (parts ++ [data]), rxBytes := s.rxBytes + data.length }) := by
        intro b
        cases b with
        | true => exact hheld.trans (settles_write _ _)
        | false => exact hheld
      replace hacked := hacked s.peerAcks
      revert hacked
      generalize (if s.peerAcks then _ else _ : Session) = t
      intro hacked
      split
      · exact (hacked.trans (hrx t none _)).trans (settles_out _ rfl)
      · exact hacked
  unfold onSegment
  split
  · exact .refl s
  · have hstart : Settles s (if hasBit flags SEG.START then { s with rx := some [], rxBytes := 0 }
        else s) := by
      split
      · exact hrx s _ _
      · exact .refl s
    dsimp only
    split
    · exact hstart
    · exact hstart.trans (hpart _ _)

theorem settles_onRefuse (s : Session) (reason : UInt8) : Settles s (s.onRefuse reason) := by
  unfold onRefuse
  split
  · exact settles_settle s rfl
  · exact .refl s

/-- A message that is no answer resolves nothing. -/
theorem settles_aside (s : Session) {m : Message} (h : m.isAside = true) :
    Settles s (s.onMessage m) := by
  cases m with
  | contact version flags interval eid => cases h
  | ack value => cases h
  | refuse reason => cases h
  | segment flags data => exact settles_onSegment s flags data
  | shutdown => exact (settles_out s rfl).trans (settles_out _ rfl)
  | bad_magic => exact settles_teardown s _
  | bad_header => exact settles_teardown s _
  | too_big len => exact settles_teardown s _
  | length value => exact .refl s
  | keepalive => exact .refl s
  | unknown type => exact .refl s

theorem settles_ackTimeout (s : Session) : Settles s s.onAckTimeout := by
  unfold onAckTimeout
  split
  · exact settles_settle s rfl
  · exact .refl s

theorem settles_quiet (s : Session) : Settles s s.onQuiet := by
  unfold onQuiet
  split
  · exact settles_write s _
  · exact .refl s

theorem settles_silence (s : Session) : Settles s s.onSilence := by
  unfold onSilence
  split
  · exact settles_teardown s _
  · exact .refl s

/-- On an acknowledged session no write has a callback. -/
theorem onWritten_acknowledged {s : Session} (h : s.writing = false) (err : Option JsString) :
    s.onWritten err = s := by
  unfold onWritten
  split
  · rename_i hwriting
    rw [h] at hwriting
    cases hwriting
  · rfl

/-- An acknowledgement says nothing about the send that waits, or resolves it. -/
theorem onAck_cases (s : Session) (value : Nat) :
    s.onAck value = s ∧ (∀ c, s.cur = some c → value ≠ c.total) ∨
      ∃ c, s.cur = some c ∧ value = c.total ∧ s.onAck value = s.settle (.resolve c.send) := by
  unfold onAck
  split
  · rename_i c hcur
    split
    · rename_i htotal
      exact .inr ⟨c, hcur, htotal, rfl⟩
    · rename_i htotal
      refine .inl ⟨rfl, fun c' hc' => ?_⟩
      rw [hcur] at hc'
      cases hc'
      exact htotal
  · rename_i hcur
    refine .inl ⟨rfl, fun c' hc' => ?_⟩
    rw [hcur] at hc'
    cases hc'

/-- `send` puts the bundle at the end of the queue, or is refused. -/
theorem send_cases (s : Session) (bundle : Bytes) :
    s.state ≠ .established ∧ Settles s (s.send bundle) ∨
      s.state = .established ∧ s.send bundle =
        { s with queue := s.queue ++ [(s.sends, bundle)], sends := s.sends + 1 } := by
  unfold send
  by_cases hstate : s.state = .established
  · rw [if_neg (by simp [hstate])]
    exact .inr ⟨hstate, rfl⟩
  · rw [if_pos hstate]
    exact .inl ⟨hstate, settles_out s rfl⟩

/-- The next send is left where it is, or rejected with the session, or written and waits for its
acknowledgements. -/
theorem runNext_cases {s : Session} (hacks : s.acks = true) :
    s.runNext = s ∨
    (∃ n bundle later err, s.queue = (n, bundle) :: later ∧ s.closed = true ∧
      s.runNext = { s with queue := later, log := s.log ++ [.rejected n err] }) ∨
    ∃ n bundle later, s.queue = (n, bundle) :: later ∧ s.closed = false ∧
      s.runNext = { s with
        queue := later
        running := some n
        writing := false
        cur := some { send := n, total := bundle.length }
        log := s.log ++ (cut (max 1 s.opts.segmentMru) bundle).map fun c =>
          .write (encodeSegment c.1 c.2) } := by
  unfold runNext
  split
  · rename_i n bundle later _ hqueue
    dsimp only
    cases hclosed : s.closed with
    | true => exact .inr (.inl ⟨n, bundle, later, _, hqueue, rfl, rfl⟩)
    | false =>
        refine .inr (.inr ⟨n, bundle, later, hqueue, rfl, ?_⟩)
        simp only [hacks, if_true, Bool.not_true, Bool.false_and, Bool.false_eq_true, if_false]
        exact foldl_write (fun c : UInt8 × Bytes => encodeSegment c.1 c.2) _ rfl
  · exact .inl rfl

end Session

/-! ## What holds in every run -/

namespace Bond

structure Inv (b : Bond) : Prop where
  acks : b.session.acks = true
  writing : b.session.writing = false
  closed : b.session.closed = true → b.session.cur = none
  count : b.sent.length = b.session.sends
  queue : ∀ e ∈ b.session.queue, b.sent[e.1]? = some e.2.length
  cur : ∀ c, b.session.cur = some c → b.sent[c.send]? = some c.total
  replies : ∀ n value, .ack n value ∈ b.replies → (n, value) ∈ b.acked

/-- The history grows. -/
structure Grows (b b' : Bond) : Prop where
  sent : b.sent <+: b'.sent
  acked : b.acked <+: b'.acked
  resolutions : b.resolutions <+: b'.resolutions

theorem Grows.refl (b : Bond) : Grows b b :=
  ⟨List.prefix_refl _, List.prefix_refl _, List.prefix_refl _⟩

theorem Grows.trans {b b' b'' : Bond} (h : Grows b b') (h' : Grows b' b'') : Grows b b'' :=
  ⟨h.sent.trans h'.sent, h.acked.trans h'.acked, h.resolutions.trans h'.resolutions⟩

theorem grows_follow (b : Bond) (s : Session) (cause : Option Reply) : Grows b (b.follow s cause) :=
  ⟨List.prefix_refl _, List.prefix_refl _, List.prefix_append _ _⟩

theorem grows_receive (b : Bond) (refusal : Option UInt8) : Grows b (b.receive refusal) := by
  unfold receive
  split
  · exact .refl b
  · dsimp only
    split
    · exact ⟨List.prefix_refl _, List.prefix_refl _, List.prefix_refl _⟩
    · split
      · exact ⟨List.prefix_refl _, List.prefix_refl _, List.prefix_refl _⟩
      · exact ⟨List.prefix_refl _, List.prefix_append _ _, List.prefix_refl _⟩

theorem grows_step (b : Bond) (a : Act) : Grows b (b.step a) := by
  cases a with
  | send bundle =>
      refine ⟨?_, List.prefix_refl _, List.prefix_append _ _⟩
      show b.sent <+: if b.session.state = .established then b.sent ++ [bundle.length] else b.sent
      split
      · exact List.prefix_append _ _
      · exact List.prefix_refl _
  | runNext => exact ⟨List.prefix_refl _, List.prefix_refl _, List.prefix_append _ _⟩
  | receive refusal => exact grows_receive b refusal
  | deliver =>
      unfold step
      dsimp only
      split
      · exact .refl b
      · split
        · exact ⟨List.prefix_refl _, List.prefix_refl _, List.prefix_refl _⟩
        · exact ⟨List.prefix_refl _, List.prefix_refl _, List.prefix_append _ _⟩
  | aside m =>
      unfold step
      dsimp only
      split
      · exact grows_follow b _ _
      · exact .refl b
  | written err => exact grows_follow b _ _
  | ackTimeout => exact grows_follow b _ _
  | quiet => exact grows_follow b _ _
  | silence => exact grows_follow b _ _
  | close => exact grows_follow b _ _
  | lost err => exact grows_follow b _ _

theorem grows_run (b : Bond) (as : List Act) : Grows b (b.run as) := by
  induction as generalizing b with
  | nil => exact .refl b
  | cons a as ih => exact (grows_step b a).trans (ih (b.step a))

/-- What is added to the record of resolved sends. -/
theorem resolutions_follow {b : Bond} {s : Session} (outs : List Output)
    (hlog : s.log = b.session.log ++ outs) (cause : Option Reply) :
    (b.follow s cause).resolutions
      = b.resolutions ++ (outs.filterMap Output.resolved).map fun n => (n, cause) := by
  unfold follow
  rw [hlog, List.drop_left]

/-- A callback that resolves nothing. -/
theorem Inv.settles {b : Bond} (h : b.Inv) {s : Session} (hs : Session.Settles b.session s)
    (cause : Option Reply) :
    (b.follow s cause).Inv ∧ (b.follow s cause).resolutions = b.resolutions := by
  obtain ⟨outs, hlog, hnone⟩ := hs.log
  refine ⟨⟨hs.acks.trans h.acks, hs.writing.trans h.writing, ?_, h.count.trans hs.sends.symm, ?_, ?_,
    h.replies⟩, ?_⟩
  · intro hclosed
    rcases hs.closed hclosed with hbefore | hgone
    · rcases hs.cur with hsame | hgone
      · exact hsame.trans (h.closed hbefore)
      · exact hgone
    · exact hgone
  · intro e he
    apply h.queue e
    rw [← hs.queue]
    exact he
  · intro c hc
    replace hc : s.cur = some c := hc
    rcases hs.cur with hsame | hgone
    · exact h.cur c (hsame.symm.trans hc)
    · rw [hgone] at hc
      cases hc
  · rw [resolutions_follow outs hlog, hnone, List.map_nil, List.append_nil]

theorem Inv.send {b : Bond} (h : b.Inv) (bundle : Bytes) :
    (b.step (.send bundle)).Inv ∧ (b.step (.send bundle)).resolutions = b.resolutions := by
  unfold step
  dsimp only
  rcases Session.send_cases b.session bundle with ⟨hstate, hs⟩ | ⟨hstate, hs⟩
  · rw [if_neg hstate]
    exact h.settles hs none
  · rw [if_pos hstate, hs]
    have hplace : ∀ {n len : Nat}, b.sent[n]? = some len →
        (b.sent ++ [bundle.length])[n]? = some len := by
      intro n len hn
      rw [List.getElem?_append_left (List.getElem?_eq_some_iff.mp hn).1]
      exact hn
    refine ⟨⟨h.acks, h.writing, h.closed, ?_, ?_, fun c hc => hplace (h.cur c hc), h.replies⟩, ?_⟩
    · rw [List.length_append, h.count]
      rfl
    · intro e he
      rcases List.mem_append.mp he with he | he
      · exact hplace (h.queue e he)
      · rw [List.mem_singleton.mp he, ← h.count]
        exact List.getElem?_concat_length
    · exact (resolutions_follow [] (by simp) none).trans (by simp)

theorem Inv.runNext {b : Bond} (h : b.Inv) :
    (b.step .runNext).Inv ∧ (b.step .runNext).resolutions = b.resolutions := by
  unfold step
  dsimp only
  have hlater : ∀ {n bundle later}, b.session.queue = (n, bundle) :: later →
      ∀ e ∈ later, b.sent[e.1]? = some e.2.length := by
    intro n bundle later hqueue e he
    apply h.queue e
    rw [hqueue]
    exact List.mem_cons_of_mem _ he
  rcases Session.runNext_cases h.acks with hs | ⟨n, bundle, later, err, hqueue, hclosed, hs⟩ |
    ⟨n, bundle, later, hqueue, hclosed, hs⟩
  · rw [hs]
    obtain ⟨hinv, hres⟩ := h.settles (.refl b.session) none
    exact ⟨⟨hinv.acks, hinv.writing, hinv.closed, hinv.count, hinv.queue, hinv.cur, hinv.replies⟩,
      hres⟩
  · rw [hs]
    refine ⟨⟨h.acks, h.writing, h.closed, h.count, hlater hqueue, h.cur, h.replies⟩, ?_⟩
    exact (resolutions_follow [.rejected n err] rfl none).trans (by simp [Output.resolved])
  · rw [hs]
    refine ⟨⟨h.acks, rfl, ?_, h.count, hlater hqueue, ?_, h.replies⟩, ?_⟩
    · intro hnow
      replace hnow : b.session.closed = true := hnow
      rw [hclosed] at hnow
      cases hnow
    · intro c hc
      replace hc : some { send := n, total := bundle.length } = some c := hc
      cases hc
      apply h.queue (n, bundle)
      rw [hqueue]
      exact List.mem_cons_self
    · have hwrites : ∀ cs : List (UInt8 × Bytes),
          (cs.map fun c => Output.write (encodeSegment c.1 c.2)).filterMap Output.resolved = [] := by
        intro cs
        induction cs with
        | nil => rfl
        | cons c cs ih => exact ih
      exact (resolutions_follow _ rfl none).trans (by rw [hwrites, List.map_nil, List.append_nil])

theorem Inv.receive {b : Bond} (h : b.Inv) (refusal : Option UInt8) :
    (b.receive refusal).Inv ∧ (b.receive refusal).resolutions = b.resolutions := by
  unfold Bond.receive
  split
  · exact ⟨h, rfl⟩
  · dsimp only
    split
    · exact ⟨⟨h.acks, h.writing, h.closed, h.count, h.queue, h.cur, h.replies⟩, rfl⟩
    · rename_i n got _
      split
      · refine ⟨⟨h.acks, h.writing, h.closed, h.count, h.queue, h.cur, ?_⟩, rfl⟩
        intro k value hreply
        rcases List.mem_append.mp hreply with hreply | hreply
        · exact h.replies k value hreply
        · cases List.mem_singleton.mp hreply
      · refine ⟨⟨h.acks, h.writing, h.closed, h.count, h.queue, h.cur, ?_⟩, rfl⟩
        intro k value hreply
        rcases List.mem_append.mp hreply with hreply | hreply
        · exact List.mem_append_left _ (h.replies k value hreply)
        · cases List.mem_singleton.mp hreply
          exact List.mem_append_right _ (List.mem_singleton.mpr rfl)

/-- An answer arrives: it resolves nothing, or the send that waits, whose length it names. -/
theorem Inv.deliver {b : Bond} (h : b.Inv) :
    (b.step .deliver).Inv ∧
      ((b.step .deliver).resolutions = b.resolutions ∧ b.CleanStep .deliver ∨
        ∃ (n : Nat) (c : Transfer), (b.step .deliver).resolutions
            = b.resolutions ++ [(c.send, some (.ack n c.total))] ∧
          (b.CleanStep .deliver ↔ n = c.send) ∧ b.sent[c.send]? = some c.total ∧
          (n, c.total) ∈ b.acked) := by
  unfold Bond.step CleanStep
  dsimp only
  split
  · rename_i hreplies
    rw [hreplies]
    exact ⟨h, .inl ⟨rfl, trivial⟩⟩
  · rename_i reply later hreplies
    have hlater : ({ b with replies := later } : Bond).Inv := by
      refine ⟨h.acks, h.writing, h.closed, h.count, h.queue, h.cur, fun n value hreply => ?_⟩
      apply h.replies n value
      rw [hreplies]
      exact List.mem_cons_of_mem _ hreply
    rw [hreplies]
    split
    · -- The session is closed, and nothing waits.
      rename_i hclosed
      refine ⟨hlater, .inl ⟨rfl, ?_⟩⟩
      rw [h.closed hclosed]
      cases reply <;> trivial
    · cases reply with
      | refuse n reason =>
          obtain ⟨hinv, hres⟩ :=
            hlater.settles (Session.settles_onRefuse b.session reason) (some (.refuse n reason))
          exact ⟨hinv, .inl ⟨hres, trivial⟩⟩
      | ack n value =>
          show (Bond.follow { b with replies := later } (b.session.onAck value) _).Inv ∧ _
          rcases Session.onAck_cases b.session value with ⟨hs, hother⟩ | ⟨c, hcur, rfl, hs⟩
          · obtain ⟨hinv, hres⟩ := hlater.settles (.refl b.session) (some (.ack n value))
            rw [hs]
            refine ⟨hinv, .inl ⟨?_, ?_⟩⟩
            · show (Bond.follow { b with replies := later } (b.session.onAck value) _).resolutions
                = _
              rw [hs]
              exact hres
            · cases hcur : b.session.cur with
              | none => trivial
              | some c => exact fun hvalue => absurd hvalue (hother c hcur)
          · have hacked : (n, c.total) ∈ b.acked := by
              apply h.replies n c.total
              rw [hreplies]
              exact List.mem_cons_self
            rw [hs, hcur]
            refine ⟨⟨h.acks, h.writing, fun _ => rfl, h.count, h.queue, fun c' hc' => (by cases hc'),
              hlater.replies⟩, .inr ⟨n, c, ?_, ?_, h.cur c hcur, hacked⟩⟩
            · show (Bond.follow { b with replies := later } (b.session.onAck c.total) _).resolutions
                = _
              rw [hs]
              exact resolutions_follow (b := { b with replies := later }) [.resolve c.send] rfl _
            · exact ⟨fun hclean => hclean rfl, fun hown _ => hown⟩

/-- **What a step does**: it resolves nothing, or the send that waits. -/
theorem Inv.step {b : Bond} (h : b.Inv) (a : Act) :
    (b.step a).Inv ∧
      ((b.step a).resolutions = b.resolutions ∧ b.CleanStep a ∨
        ∃ (n : Nat) (c : Transfer),
          (b.step a).resolutions = b.resolutions ++ [(c.send, some (.ack n c.total))] ∧
          (b.CleanStep a ↔ n = c.send) ∧ b.sent[c.send]? = some c.total ∧
          (n, c.total) ∈ b.acked) := by
  have quiet : ∀ {b' : Bond}, b'.Inv ∧ b'.resolutions = b.resolutions →
      b'.Inv ∧ (b'.resolutions = b.resolutions ∧ True ∨ ∃ (n : Nat) (c : Transfer),
        b'.resolutions = b.resolutions ++ [(c.send, some (.ack n c.total))] ∧
          (True ↔ n = c.send) ∧ b.sent[c.send]? = some c.total ∧ (n, c.total) ∈ b.acked) :=
    fun hb' => ⟨hb'.1, .inl ⟨hb'.2, trivial⟩⟩
  cases a with
  | deliver => exact h.deliver
  | send bundle => exact quiet (h.send bundle)
  | runNext => exact quiet h.runNext
  | written err =>
      refine quiet (h.settles ?_ none)
      rw [Session.onWritten_acknowledged h.writing]
      exact .refl _
  | receive refusal => exact quiet (h.receive refusal)
  | aside m =>
      refine quiet ?_
      unfold Bond.step
      dsimp only
      split
      · rename_i haside
        exact h.settles (Session.settles_aside _ haside) none
      · exact ⟨h, rfl⟩
  | ackTimeout => exact quiet (h.settles (Session.settles_ackTimeout _) none)
  | quiet => exact quiet (h.settles (Session.settles_quiet _) none)
  | silence => exact quiet (h.settles (Session.settles_silence _) none)
  | close => exact quiet (h.settles (Session.settles_write _ _) none)
  | lost err => exact quiet (h.settles (Session.settles_teardown _ err) none)

/-- A send that was resolved by an answer to itself stays so. -/
theorem Own.step {b : Bond} (hown : b.Own) (h : b.Inv) {a : Act} (hclean : b.CleanStep a) :
    (b.step a).Own := by
  have hgrows := grows_step b a
  have keeps : ∀ {r : Nat × Option Reply} {total : Nat}, b.sent[r.1]? = some total →
      r.2 = some (.ack r.1 total) → (r.1, total) ∈ b.acked →
      ∃ total ∈ (b.step a).sent[r.1]?,
        r.2 = some (.ack r.1 total) ∧ (r.1, total) ∈ (b.step a).acked := by
    intro r total hsent hcause hacked
    obtain ⟨more, hmore⟩ := hgrows.sent
    refine ⟨total, ?_, hcause, hgrows.acked.subset hacked⟩
    rw [← hmore, List.getElem?_append_left (List.getElem?_eq_some_iff.mp hsent).1]
    exact hsent
  intro r hr
  rcases (h.step a).2 with ⟨hsame, -⟩ | ⟨n, c, hadded, hbelongs, hsent, hacked⟩
  · rw [hsame] at hr
    obtain ⟨total, hsent, hcause, hacked⟩ := hown r hr
    exact keeps hsent hcause hacked
  · rw [hadded] at hr
    rcases List.mem_append.mp hr with hr | hr
    · obtain ⟨total, hsent, hcause, hacked⟩ := hown r hr
      exact keeps hsent hcause hacked
    · obtain rfl := hbelongs.mp hclean
      rw [List.mem_singleton.mp hr]
      exact keeps hsent rfl hacked

/-- A send that is resolved by an answer to another one stays so. -/
theorem clean_of_own {b : Bond} (h : b.Inv) (a : Act) (as : List Act)
    (hown : (b.run (a :: as)).Own) : b.CleanStep a := by
  rcases (h.step a).2 with ⟨-, hclean⟩ | ⟨n, c, hadded, hbelongs, -, -⟩
  · exact hclean
  · have hkept := (grows_run (b.step a) as).resolutions
    rw [hadded] at hkept
    obtain ⟨total, -, hcause, -⟩ := hown (c.send, some (.ack n c.total))
      (hkept.subset (List.mem_append_right _ (List.mem_singleton.mpr rfl)))
    exact hbelongs.mpr (Reply.ack.inj (Option.some.inj hcause)).1

theorem own_iff {b : Bond} (h : b.Inv) (hown : b.Own) (as : List Act) :
    (b.run as).Own ↔ CleanRun b as := by
  induction as generalizing b with
  | nil => exact ⟨fun _ => trivial, fun _ => hown⟩
  | cons a as ih =>
      constructor
      · intro hrun
        have hclean := clean_of_own h a as hrun
        exact ⟨hclean, (ih (h.step a).1 (hown.step h hclean)).mp hrun⟩
      · rintro ⟨hclean, hrest⟩
        exact (ih (h.step a).1 (hown.step h hclean)).mpr hrest

theorem inv_new (o : Options) (flags : UInt8) (interval : Nat) (eid : JsString)
    (hacks : (new o flags interval eid).session.acks = true) : (new o flags interval eid).Inv := by
  have hfresh : ∀ {s : Session}, Session.Settles (Session.new o) s →
      s.writing = false ∧ s.queue = [] ∧ s.sends = 0 ∧ s.cur = none := by
    have hnew : (Session.new o).writing = false ∧ (Session.new o).queue = [] ∧
        (Session.new o).sends = 0 ∧ (Session.new o).cur = none := by
      unfold Session.new Session.sendHeader Session.write
      dsimp only
      split <;> exact ⟨rfl, rfl, rfl, rfl⟩
    intro s hs
    refine ⟨hs.writing.trans hnew.1, hs.queue.trans hnew.2.1, hs.sends.trans hnew.2.2.1, ?_⟩
    rcases hs.cur with hsame | hgone
    · exact hsame.trans hnew.2.2.2
    · exact hgone
  have hsession : (new o flags interval eid).session.writing = false ∧
      (new o flags interval eid).session.queue = [] ∧
      (new o flags interval eid).session.sends = 0 ∧
      (new o flags interval eid).session.cur = none := by
    show ((Session.new o).onContact VERSION flags interval eid).writing = _ ∧ _
    unfold new Session.onContact Session.startKeepalive
    dsimp only
    split
    · exact hfresh (Session.settles_teardown _ _)
    · split
      · exact hfresh (Session.settles_teardown _ _)
      · have hheader : Session.Settles (Session.new o)
            (if (Session.new o).opts.active then Session.new o else (Session.new o).sendHeader) := by
          split
          · exact .refl _
          · exact Session.settles_write _ _
        have hfields := hfresh hheader
        split <;> exact hfields
  obtain ⟨hwriting, hqueue, hsends, hcur⟩ := hsession
  refine ⟨hacks, hwriting, fun _ => hcur, hsends.symm, ?_, ?_, ?_⟩
  · intro e he
    rw [hqueue] at he
    cases he
  · intro c hc
    rw [hcur] at hc
    cases hc
  · intro n value hreply
    cases hreply

end Bond

/-- **Which sends a late acknowledgement leaves alone.** In a run of a TCPCLv3 session that uses
acknowledgements, with a peer that answers every segment in order, every send that is resolved is
resolved by the peer's acknowledgement of its own last byte if and only if no acknowledgement of another
send arrives while a bundle waits whose length it names. -/
theorem resolves_own (o : Options) (flags : UInt8) (interval : Nat) (eid : JsString) (as : List Act)
    (hacks : (Bond.new o flags interval eid).session.acks = true) :
    ((Bond.new o flags interval eid).run as).Own ↔ Bond.CleanRun (.new o flags interval eid) as :=
  Bond.own_iff (Bond.inv_new o flags interval eid hacks) (fun _ hr => (List.not_mem_nil hr).elim) as

/-- A node that asks for acknowledgements. -/
def askingOptions : Options where
  active := true
  nodeId := js "ipn:1.0"
  keepalive_lt := default_keepalive_lt

/-- Bundles of two lengths, the first one given up before its acknowledgement arrives. -/
theorem resolves_own_sample :
    ((Bond.new askingOptions FLAG.REQUEST_ACK 0 (js "ipn:9.0")).run
      [.send [1], .send [2, 3], .runNext, .ackTimeout, .runNext, .receive none, .deliver,
       .receive none, .deliver]).Own :=
  (resolves_own askingOptions FLAG.REQUEST_ACK 0 (js "ipn:9.0") _ (by decide +kernel)).mpr
    (by decide +kernel)

/-- **A late acknowledgement resolves the wrong send**: the first bundle is given up, and the
acknowledgement of it resolves the second one, of the same length, of which the peer has received
nothing. -/
theorem resolves_other :
    ¬ ∀ (o : Options) (flags : UInt8) (interval : Nat) (eid : JsString) (as : List Act),
      (Bond.new o flags interval eid).session.acks = true →
        ((Bond.new o flags interval eid).run as).Own := by
  intro hown
  have hrun := hown askingOptions FLAG.REQUEST_ACK 0 (js "ipn:9.0")
    [.send [1], .send [2], .runNext, .ackTimeout, .runNext, .receive none, .deliver]
    (by decide +kernel)
  exact absurd hrun (by decide +kernel)

end Tcpcl3

end DtnCustody
