/-
# DtnCustody.Gateway.SessionStart — acknowledged bundles at the start of a session.

`connect` and `listen` hand the session over when `ready` is resolved; the caller attaches its
bundle handler in a continuation of that promise. Continuations run when the callback that is running
has returned. So a handler hears the events of the chunks after the one that establishes the session,
and none of those in that chunk: the loop over it goes on and acknowledges what it completes.

In both versions, no acknowledged bundle is lost in a run in which the chunk that establishes the
session ends no transfer behind the message that establishes it (`acknowledged_heard`). A peer that
sends its SESS_INIT and a transfer in one piece loses that transfer (`acknowledged_unheard`).
-/
import DtnCustody.Gateway.Tcpcl3
import DtnCustody.Gateway.Tcpcl4Memory

namespace DtnCustody

open Base

/-- Behind the first element that opens, everything is kept. -/
theorem mem_dropWhile_behind {α : Type} {p : α → Bool} {front back : List α} {opener x : α}
    (hopener : p opener = false) (hx : x ∈ back) :
    x ∈ (front ++ opener :: back).dropWhile p := by
  induction front with
  | nil =>
      rw [List.nil_append, List.dropWhile_cons_of_neg (by simp [hopener])]
      exact List.mem_cons_of_mem _ hx
  | cons a front ih =>
      rw [List.cons_append, List.dropWhile_cons]
      split
      · exact ih
      · exact List.mem_cons_of_mem _ (List.mem_append_right _ (List.mem_cons_of_mem _ hx))

/-- **A loop reads nothing of a kind once it is open**, if there is nothing of that kind behind a
message that opens. -/
theorem reads_apart {π μ σ : Type} {parse : π → Option (μ × π)} {turn : σ → Option σ}
    {parser : σ → π} {Opened : σ → Prop} {opens kind : μ → Bool}
    (hturn : ReadsOn parse turn parser Opened fun m => opens m = true) {n N : Nat} (hn : n < N)
    {s t t' : σ} (hapart : ∀ m ∈ (readAll parse N (parser s)).dropWhile fun m => !opens m,
      kind m = false)
    (hbefore : ¬ Opened s) (ht : drain turn n s = t) (hnext : turn t = some t') {m : μ} {q : π}
    (hread : parse (parser t) = some (m, q)) (hkind : kind m = true) : ¬ Opened t := by
  intro hopened
  obtain ⟨front, opener, back, hall, hopens, hm⟩ :=
    reads_behind hturn hn ht hnext hread hopened hbefore
  have hbehind : m ∈ (front ++ opener :: back).dropWhile fun m => !opens m :=
    mem_dropWhile_behind (by rw [hopens]; rfl) hm
  rw [← hall] at hbehind
  rw [hapart m hbehind] at hkind
  cases hkind

section Record

variable {σ ο : Type} (log : σ → List ο) (Opened : σ → Prop)

/-- Something is added to the record, and nothing opens. -/
def Calm (s s' : σ) : Prop := log s <+: log s' ∧ (Opened s' → Opened s)

/-- What opens says so in the record. -/
def Announced (ready : ο) (s : σ) : Prop := Opened s → ready ∈ log s

variable {log Opened}

theorem Calm.refl (s : σ) : Calm log Opened s s := ⟨List.prefix_refl _, id⟩

theorem Calm.trans {s s' s'' : σ} (h : Calm log Opened s s') (h' : Calm log Opened s' s'') :
    Calm log Opened s s'' :=
  ⟨h.1.trans h'.1, h.2 ∘ h'.2⟩

theorem Announced.calm {ready : ο} {s s' : σ} (h : Announced log Opened ready s)
    (hcalm : Calm log Opened s s') : Announced log Opened ready s' :=
  fun hopened => hcalm.1.subset (h (hcalm.2 hopened))

end Record

/-! ## Version 4 -/

namespace Tcpcl4

/-- The last segment of a transfer. -/
def Message.isFinal : Message → Bool
  | .segment flags _ _ => hasBit flags SEG.END
  | _ => false

def Message.isInit : Message → Bool
  | .sess_init _ _ _ _ => true
  | _ => false

namespace Session

/-- In this chunk, no transfer ends behind a SESS_INIT. -/
def Apart (s : Session) (d : Bytes) : Prop :=
  ∀ m ∈ (readAll Parser.parse (s.parser.buf.length + d.length + 3) (s.parser.push d)).dropWhile
    fun m => !m.isInit, m.isFinal = false

instance (s : Session) (d : Bytes) : Decidable (s.Apart d) :=
  inferInstanceAs (Decidable (∀ m ∈ _, _))

/-- A chunk comes after the handler has been attached, or ends no transfer behind a SESS_INIT. -/
def ApartStep (s : Session) : Event → Prop
  | .data d => .ready ∈ s.log ∨ s.Apart d
  | _ => True

instance (s : Session) : ∀ e : Event, Decidable (s.ApartStep e)
  | .data d => inferInstanceAs (Decidable (.ready ∈ s.log ∨ s.Apart d))
  | .send _ | .quiet | .silence | .ackTimeout _ | .secure _ | .close _ | .lost _ => isTrue trivial

def ApartRun : Session → List Event → Prop
  | _, [] => True
  | s, e :: es => s.ApartStep e ∧ ApartRun (s.handle e) es

instance decidableApartRun : ∀ (s : Session) (es : List Event), Decidable (ApartRun s es)
  | _, [] => isTrue trivial
  | s, e :: es =>
      have := decidableApartRun (s.handle e) es
      inferInstanceAs (Decidable (_ ∧ _))

/-- A turn of the loop ends a transfer and acknowledges it. -/
def Acknowledges (t t' : Session) : Prop :=
  ∃ m p, t.parser.parse = some (m, p) ∧ m.isFinal = true ∧
    ∃ bytes, .write bytes ∈ t'.log.drop t.log.length ∧ bytes.head? = some MSG.XFER_ACK

/-- A turn of the loop emits a bundle. -/
def Emits (t t' : Session) : Prop := ∃ data, .bundle data ∈ t'.log.drop t.log.length

/-- **In this run, every acknowledged bundle is delivered**: it is emitted, in a chunk that comes
after the one in which `ready` was resolved. -/
def Heard (s : Session) (es : List Event) : Prop :=
  ∀ front e back, es = front ++ e :: back → ∀ t ∈ (s.run front).within e, ∀ t', t.turn = some t' →
    t.Acknowledges t' → .ready ∈ (s.run front).log ∧ t.Emits t'

/-! ### What changes the state -/

/-- Something is added to the record, and no session becomes established. -/
abbrev Calm (s s' : Session) : Prop :=
  DtnCustody.Calm Session.log (fun s => s.state = .established) s s'

theorem calm_out (s : Session) (o : Output) : Calm s (s.out o) := ⟨List.prefix_append _ _, id⟩

theorem calm_write (s : Session) (bytes : Bytes) : Calm s (s.write bytes) := by
  unfold write
  split
  · exact .refl s
  · exact calm_out s _

theorem calm_teardown (s : Session) (err : Option JsString) : Calm s (s.teardown err) := by
  unfold teardown
  split
  · exact .refl s
  · refine ⟨?_, fun h => by cases h⟩
    show s.log <+: s.log ++ _ ++ _
    rw [List.append_assoc]
    exact List.prefix_append _ _

theorem calm_onMessage (s : Session) {m : Message} (h : m.isInit = false) :
    Calm s (s.onMessage m) := by
  cases m with
  | sess_init interval segmentMru transferMru nodeId => cases h
  | contact version flags =>
      have hanswer : Calm s s.answer := by
        unfold answer
        split
        · exact .refl s
        · exact calm_write _ _
      have hinit : Calm s { s.answer with state := .init } := ⟨hanswer.1, fun h => by cases h⟩
      show Calm s (s.onContact version flags)
      unfold onContact
      split
      · exact (calm_write _ _).trans (calm_teardown _ _)
      · split
        · exact hanswer.trans ((calm_write _ _).trans (calm_teardown _ _))
        · dsimp only
          split
          · exact hinit
          · split
            · exact hinit.trans (calm_write _ _)
            · exact hinit
  | segment flags transferId data =>
      have hhold : ∀ (s : Session) parts got, Calm s (s.hold transferId parts got) :=
        fun _ _ _ => ⟨List.prefix_refl _, id⟩
      have hpart : ∀ (s : Session) parts, Calm s (s.onPart flags transferId data parts) := by
        intro s parts
        unfold onPart
        dsimp only
        split
        · exact calm_write s _
        · split
          · exact ((hhold s _ _).trans (calm_write _ _)).trans (calm_out (forget _ _) _)
          · exact (hhold s _ _).trans (calm_write _ _)
      show Calm s (s.onSegment flags transferId data)
      unfold onSegment
      split
      · exact calm_write s _
      · have hstart : Calm s (if hasBit flags SEG.START then s.hold transferId [] 0 else s) := by
          split
          · exact hhold s _ _
          · exact .refl s
        dsimp only
        generalize (if hasBit flags SEG.START then s.hold transferId [] 0 else s) = t at hstart
        split
        · exact hstart.trans (calm_write _ _)
        · exact hstart.trans (hpart _ _)
  | ack flags transferId acked =>
      show Calm s (s.onAck flags transferId acked)
      unfold onAck
      split
      · exact calm_out { s with pending := _ } _
      · exact .refl s
  | refuse reason transferId =>
      show Calm s (s.onRefuse reason transferId)
      unfold onRefuse
      split
      · exact calm_out { s with pending := _ } _
      · exact .refl s
  | sess_term flags reason =>
      show Calm s (s.onTerm flags reason)
      have hreply : Calm s (if hasBit flags REPLY then s else s.write (encodeTerm REPLY reason)) := by
        split
        · exact .refl s
        · exact calm_write _ _
      unfold onTerm
      dsimp only
      generalize (if hasBit flags REPLY then s else s.write (encodeTerm REPLY reason)) = t at hreply
      refine ⟨hreply.1.trans ?_, fun h => by cases h⟩
      show t.log <+: t.log ++ [.term reason] ++ [.ended]
      rw [List.append_assoc]
      exact List.prefix_append _ _
  | bad_magic => exact calm_teardown _ _
  | too_big what len => exact (calm_write _ _).trans (calm_teardown _ _)
  | unknown type => exact calm_write _ _
  | keepalive => exact .refl s
  | reject reason header => exact .refl s

theorem calm_handle (s : Session) {e : Event} (h : ∀ d, e ≠ .data d) : Calm s (s.handle e) := by
  cases e with
  | data d => exact absurd rfl (h d)
  | send bundle =>
      have hwrites : ∀ (f : UInt8 × Bytes → Bytes) (cs : List (UInt8 × Bytes)) (t : Session),
          Calm s t → Calm s (cs.foldl (fun t c => t.write (f c)) t) := by
        intro f cs
        induction cs with
        | nil => exact fun t ht => ht
        | cons c cs ih => exact fun t ht => ih _ (ht.trans (calm_write t _))
      have hbegin : ∀ n, Calm s (s.begin n) := fun _ => ⟨List.prefix_refl _, id⟩
      show Calm s (s.send bundle)
      unfold send
      split
      · split
        · exact calm_out s _
        · dsimp only
          split
          · exact (hbegin _).trans (calm_out _ _)
          · exact hwrites _ _ _ (hbegin _)
      · exact calm_out s _
  | quiet =>
      show Calm s s.onQuiet
      unfold onQuiet
      split
      · exact calm_write s _
      · exact .refl s
  | silence =>
      show Calm s s.onSilence
      unfold onSilence
      split
      · exact (calm_write s _).trans (calm_teardown _ _)
      · exact .refl s
  | ackTimeout transferId =>
      show Calm s (s.onAckTimeout transferId)
      unfold onAckTimeout
      split
      · exact calm_out { s with pending := _ } _
      · exact .refl s
  | secure peerNodeIds =>
      show Calm s (s.onSecure peerNodeIds)
      unfold onSecure
      split
      · dsimp only
        have hsecure : Calm s { s with secure := true, securing := false, peerNodeIds } :=
          ⟨List.prefix_refl _, id⟩
        split
        · exact hsecure.trans (calm_write _ _)
        · exact hsecure
      · exact .refl s
  | close reason => exact calm_write s _
  | lost err => exact calm_teardown s err

/-! ### An established session is ready -/

/-- `ready` is resolved when the session becomes established. -/
abbrev Announced (s : Session) : Prop :=
  DtnCustody.Announced Session.log (fun s => s.state = .established) .ready s

theorem announced_onSessInit {s : Session} (h : s.Announced) (interval segmentMru transferMru : Nat)
    (nodeId : JsString) : (s.onSessInit interval segmentMru transferMru nodeId).Announced := by
  unfold onSessInit reject
  split
  · exact h.calm (calm_write s _)
  · split
    · exact h.calm ((calm_write s _).trans (calm_teardown _ _))
    · intro _
      apply List.mem_append_left
      apply List.mem_append_right
      exact List.mem_singleton.mpr rfl

theorem announced_turn {s s' : Session} (h : s.Announced) (hturn : s.turn = some s') :
    s'.Announced := by
  unfold turn at hturn
  split at hturn
  · cases hturn
  obtain ⟨⟨m, p⟩, -, rfl⟩ := Option.map_eq_some_iff.mp hturn
  have hpushed : ({ s with parser := p } : Session).Announced := h
  cases hinit : m.isInit with
  | false => exact hpushed.calm (calm_onMessage _ hinit)
  | true =>
      cases m with
      | sess_init interval segmentMru transferMru nodeId =>
          exact announced_onSessInit hpushed interval segmentMru transferMru nodeId
      | _ => cases hinit

theorem announced_handle {s : Session} (h : s.Announced) (e : Event) : (s.handle e).Announced := by
  by_cases hdata : ∃ d, e = .data d
  · obtain ⟨d, rfl⟩ := hdata
    show Announced (if s.closed then s else s.onData d)
    split
    · exact h
    · exact drain_keeps turn (P := Announced) (fun _ _ => announced_turn) _ (s := s.push d) h
  · exact h.calm (calm_handle s fun d hd => hdata ⟨d, hd⟩)

theorem announced_run {s : Session} (h : s.Announced) (es : List Event) : (s.run es).Announced := by
  induction es generalizing s with
  | nil => exact h
  | cons e es ih => exact ih (announced_handle h e)

theorem announced_new (o : Options) : (Session.new o).Announced := by
  have hstate : (Session.new o).state = .contact := by
    unfold new
    dsimp only
    split <;> rfl
  intro hest
  rw [hstate] at hest
  cases hest

/-! ### What is read of a chunk -/

/-- An emptied buffer holds no message. -/
theorem parse_emptied (p : Parser) : ({ p with buf := [] } : Parser).parse = none := by
  unfold Parser.parse
  split <;> rfl

/-- Only a SESS_INIT establishes a session. -/
theorem readsOn_turn :
    ReadsOn Parser.parse turn Session.parser (fun s => s.state = .established)
      fun m => m.isInit = true := by
  intro s s' hturn
  unfold turn at hturn
  split at hturn
  · cases hturn
  obtain ⟨⟨m, p⟩, hparse, rfl⟩ := Option.map_eq_some_iff.mp hturn
  rcases parser_onMessage { s with parser := p } m with hsame | hempty
  · right
    refine ⟨m, by rw [hparse]; exact congrArg (fun q => some (m, q)) hsame.symm, fun hest => ?_⟩
    cases hinit : m.isInit with
    | true => exact .inr hinit
    | false => exact .inl ((calm_onMessage { s with parser := p } hinit).2 hest)
  · -- The buffer went to the TLS handshake, and the loop is over.
    left
    rw [turn, hempty, parse_emptied]
    split <;> rfl

/-- **A last segment is acknowledged only with its bundle**, in an established session. -/
theorem onSegment_final {s : Session} (h : s.closed = false) {flags : UInt8}
    (hend : hasBit flags SEG.END = true) (key : Nat) (data : Bytes) :
    (∃ bytes, (s.onSegment flags key data).log = s.log ++ [.write bytes] ∧
      bytes.head? ≠ some MSG.XFER_ACK) ∨
    s.state = .established ∧ ∃ bytes bundle,
      (s.onSegment flags key data).log = s.log ++ [.write bytes, .bundle bundle] := by
  have hpart : ∀ {t : Session} (parts : List Bytes), t.closed = false → t.log = s.log →
      (∃ bytes, (t.onPart flags key data parts).log = s.log ++ [.write bytes] ∧
        bytes.head? ≠ some MSG.XFER_ACK) ∨
      ∃ bytes bundle,
        (t.onPart flags key data parts).log = s.log ++ [.write bytes, .bundle bundle] := by
    intro t parts hopen hlog
    unfold onPart
    dsimp only
    split
    · left
      rw [write_open hopen, ← hlog]
      refine ⟨_, rfl, ?_⟩
      show some MSG.XFER_REFUSE ≠ some MSG.XFER_ACK
      decide
    · right
      rw [write_open (s := t.hold key _ _) hopen, ← hlog]
      refine ⟨encodeAck flags key ((t.rxBytes.get? key).getD 0 + data.length),
        (parts ++ [data]).flatten, ?_⟩
      exact List.append_assoc t.log [_] [_]
  have hreject : ∀ {t : Session}, t.closed = false → t.log = s.log →
      ∃ bytes, (t.reject MSG.XFER_SEGMENT).log = s.log ++ [.write bytes] ∧
        bytes.head? ≠ some MSG.XFER_ACK := by
    intro t hopen hlog
    rw [reject, write_open hopen, ← hlog]
    refine ⟨_, rfl, ?_⟩
    show some MSG.MSG_REJECT ≠ some MSG.XFER_ACK
    decide
  unfold onSegment
  split
  · exact .inl (hreject h rfl)
  · rename_i hstate
    have hstarted : (if hasBit flags SEG.START then s.hold key [] 0 else s).closed = false ∧
        (if hasBit flags SEG.START then s.hold key [] 0 else s).log = s.log := by
      split <;> exact ⟨h, rfl⟩
    dsimp only
    generalize (if hasBit flags SEG.START then s.hold key [] 0 else s) = t at hstarted
    obtain ⟨hopen, hlog⟩ := hstarted
    split
    · exact .inl (hreject hopen hlog)
    · rcases hpart _ hopen hlog with hrefused | hemitted
      · exact .inl hrefused
      · exact .inr ⟨not_not.mp hstate, hemitted⟩

/-- What acknowledges a transfer that ends is a turn of an established session, and emits the
bundle. -/
theorem acknowledges_emits {t t' : Session} (hturn : t.turn = some t') (hack : t.Acknowledges t') :
    t.state = .established ∧ t.Emits t' := by
  obtain ⟨m, p, hparse, hfinal, bytes, hbytes, hhead⟩ := hack
  unfold turn at hturn
  split at hturn
  · cases hturn
  rename_i hopen
  rw [hparse] at hturn
  cases hturn
  cases m with
  | segment flags key data =>
      rcases onSegment_final (s := { t with parser := p }) (by simpa using hopen) hfinal key data
        with ⟨other, hlog, hother⟩ | ⟨hstate, other, bundle, hlog⟩
      · -- The one thing that is written is no acknowledgement.
        have hadded : ({ t with parser := p }.onMessage (.segment flags key data)).log
            = t.log ++ [.write other] := hlog
        rw [hadded, List.drop_left] at hbytes
        cases List.mem_singleton.mp hbytes
        exact absurd hhead hother
      · refine ⟨hstate, bundle, ?_⟩
        have hadded : ({ t with parser := p }.onMessage (.segment flags key data)).log
            = t.log ++ [.write other, .bundle bundle] := hlog
        rw [hadded, List.drop_left]
        exact List.mem_cons_of_mem _ List.mem_cons_self
  | _ => cases hfinal

/-! ### Every run -/

theorem apartStep_of_run {s : Session} {front back : List Event} {e : Event}
    (h : ApartRun s (front ++ e :: back)) : (s.run front).ApartStep e := by
  induction front generalizing s with
  | nil => exact h.1
  | cons e' front ih => exact ih h.2

/-- **No acknowledged bundle is lost**, where no chunk that establishes a session ends a transfer. -/
theorem heard_of_apart (o : Options) {es : List Event} (h : ApartRun (.new o) es) :
    Heard (.new o) es := by
  rintro front e back rfl t ht t' hturn hack
  obtain ⟨hestablished, hemits⟩ := acknowledges_emits hturn hack
  refine ⟨?_, hemits⟩
  have hannounced := announced_run (announced_new o) front
  have hstep := apartStep_of_run h
  generalize (Session.new o).run front = s at ht hannounced hstep
  cases e with
  | data d =>
      rcases hstep with hready | hapart
      · exact hready
      · by_contra hnot
        by_cases hclosed : s.closed = true
        · rw [within, if_pos hclosed] at ht
          cases ht
        rw [within, if_neg hclosed] at ht
        obtain ⟨n, hn, hdrain⟩ := List.mem_map.mp ht
        obtain ⟨m, p, hparse, hfinal, -⟩ := hack
        -- Before the chunk the session was not established, so its SESS_INIT is in this chunk.
        have hbefore : ¬ (s.push d).state = .established := fun hstate => hnot (hannounced hstate)
        exact reads_apart (s := s.push d) readsOn_turn (List.mem_range.mp hn) hapart hbefore hdrain
          hturn hparse hfinal hestablished
  | _ => exact (List.not_mem_nil ht).elim

end Session

end Tcpcl4

/-! ## Version 3 -/

namespace Tcpcl3

/-- The last segment of a transfer. -/
def Message.isFinal : Message → Bool
  | .segment flags _ => hasBit flags SEG.END
  | _ => false

def Message.isContact : Message → Bool
  | .contact _ _ _ _ => true
  | _ => false

/-- The next message; what throws is none. -/
def Parser.next (p : Parser) : Option (Message × Parser) :=
  match p.parse with
  | .ok r => r
  | .error _ => none

namespace Session

/-- In this chunk, no transfer ends behind a contact header. -/
def Apart (s : Session) (d : Bytes) : Prop :=
  ∀ m ∈ (readAll Parser.next (s.parser.buf.length + d.length + 3) (s.parser.push d)).dropWhile
    fun m => !m.isContact, m.isFinal = false

instance (s : Session) (d : Bytes) : Decidable (s.Apart d) :=
  inferInstanceAs (Decidable (∀ m ∈ _, _))

/-- A chunk comes after the handler has been attached, or ends no transfer behind a contact header. -/
def ApartStep (s : Session) : Event → Prop
  | .data d => .ready ∈ s.log ∨ s.Apart d
  | _ => True

instance (s : Session) : ∀ e : Event, Decidable (s.ApartStep e)
  | .data d => inferInstanceAs (Decidable (.ready ∈ s.log ∨ s.Apart d))
  | .send _ | .runNext | .written _ | .quiet | .silence | .ackTimeout | .close | .lost _ => isTrue trivial

def ApartRun : Session → List Event → Prop
  | _, [] => True
  | s, e :: es => s.ApartStep e ∧ ApartRun (s.handle e) es

instance decidableApartRun : ∀ (s : Session) (es : List Event), Decidable (ApartRun s es)
  | _, [] => isTrue trivial
  | s, e :: es =>
      have := decidableApartRun (s.handle e) es
      inferInstanceAs (Decidable (_ ∧ _))

/-- A turn of the loop ends a transfer and acknowledges it. -/
def Acknowledges (t t' : Session) : Prop :=
  ∃ m p, t.parser.parse = .ok (some (m, p)) ∧ m.isFinal = true ∧
    ∃ bytes, .write bytes ∈ t'.log.drop t.log.length ∧ bytes.head? = some (typeByte T.ACK_SEGMENT 0)

/-- A turn of the loop emits a bundle. -/
def Emits (t t' : Session) : Prop := ∃ data, .bundle data ∈ t'.log.drop t.log.length

/-- **In this run, every acknowledged bundle is delivered**: it is emitted, in a chunk that comes
after the one in which `ready` was resolved. -/
def Heard (s : Session) (es : List Event) : Prop :=
  ∀ front e back, es = front ++ e :: back → ∀ t ∈ (s.run front).within e, ∀ t', t.turn = some t' →
    t.Acknowledges t' → .ready ∈ (s.run front).log ∧ t.Emits t'

/-! ### What changes the state -/

/-- Something is added to the record, and no session becomes established. -/
abbrev Calm (s s' : Session) : Prop :=
  DtnCustody.Calm Session.log (fun s => s.state = .established) s s'

theorem calm_out (s : Session) (o : Output) : Calm s (s.out o) := ⟨List.prefix_append _ _, id⟩

theorem calm_settle (s : Session) (o : Output) : Calm s (s.settle o) := ⟨List.prefix_append _ _, id⟩

theorem calm_write (s : Session) (bytes : Bytes) : Calm s (s.write bytes) := by
  unfold write
  split
  · exact .refl s
  · exact calm_out s _

theorem calm_teardown (s : Session) (err : Option JsString) : Calm s (s.teardown err) := by
  unfold teardown
  split
  · exact .refl s
  · have hclosed : Calm s { s with closed := true, state := .closed, kaTimer := false } :=
      ⟨List.prefix_refl _, fun h => by cases h⟩
    dsimp only
    split
    · exact (hclosed.trans (calm_settle _ _)).trans ⟨List.prefix_append _ _, id⟩
    · exact hclosed.trans ⟨List.prefix_append _ _, id⟩

theorem calm_onSegment (s : Session) (flags : UInt8) (data : Bytes) :
    Calm s (s.onSegment flags data) := by
  have hpart : ∀ (s : Session) parts, Calm s (s.onPart flags data parts) := by
    intro s parts
    have hheld :
        Calm s { s with rx := some (parts ++ [data]), rxBytes := s.rxBytes + data.length } :=
      ⟨List.prefix_refl _, id⟩
    unfold onPart
    dsimp only
    split
    · exact hheld.trans (calm_write { s with rx := some (parts ++ [data]), rxBytes := _ } _)
    · have hacked : ∀ b : Bool, Calm s (if b then
          write { s with rx := some (parts ++ [data]), rxBytes := s.rxBytes + data.length }
            (encodeAck (s.rxBytes + data.length))
          else { s with rx := some (parts ++ [data]), rxBytes := s.rxBytes + data.length }) := by
        intro b
        cases b with
        | true => exact hheld.trans (calm_write _ _)
        | false => exact hheld
      replace hacked := hacked s.peerAcks
      revert hacked
      generalize (if s.peerAcks then _ else _ : Session) = t
      intro hacked
      split
      · exact hacked.trans (calm_out { t with rx := none } _)
      · exact hacked
  unfold onSegment
  split
  · exact .refl s
  · have hstart : Calm s (if hasBit flags SEG.START then { s with rx := some [], rxBytes := 0 }
        else s) := by
      split
      · exact ⟨List.prefix_refl _, id⟩
      · exact .refl s
    dsimp only
    split
    · exact hstart
    · exact hstart.trans (hpart _ _)

theorem calm_onMessage (s : Session) {m : Message} (h : m.isContact = false) :
    Calm s (s.onMessage m) := by
  cases m with
  | contact version flags interval eid => cases h
  | segment flags data => exact calm_onSegment s flags data
  | ack value =>
      show Calm s (s.onAck value)
      unfold onAck
      split
      · split
        · exact calm_settle s _
        · exact .refl s
      · exact .refl s
  | refuse reason =>
      show Calm s (s.onRefuse reason)
      unfold onRefuse
      split
      · exact calm_settle s _
      · exact .refl s
  | shutdown => exact (calm_out s _).trans (calm_out _ _)
  | bad_magic => exact calm_teardown s _
  | bad_header => exact calm_teardown s _
  | too_big len => exact calm_teardown s _
  | length value => exact .refl s
  | keepalive => exact .refl s
  | unknown type => exact .refl s

theorem calm_handle (s : Session) {e : Event} (h : ∀ d, e ≠ .data d) : Calm s (s.handle e) := by
  cases e with
  | data d => exact absurd rfl (h d)
  | send bundle =>
      show Calm s (s.send bundle)
      unfold send
      split
      · exact calm_out s _
      · exact ⟨List.prefix_refl _, id⟩
  | runNext =>
      have hwrites : ∀ (f : UInt8 × Bytes → Bytes) (cs : List (UInt8 × Bytes)) (t : Session),
          Calm s t → Calm s (cs.foldl (fun t c => t.write (f c)) t) := by
        intro f cs
        induction cs with
        | nil => exact fun t ht => ht
        | cons c cs ih => exact fun t ht => ih _ (ht.trans (calm_write t _))
      show Calm s s.runNext
      unfold runNext
      split
      · dsimp only
        split
        · exact calm_out { s with queue := _ } _
        · apply hwrites
          split <;> exact ⟨List.prefix_refl _, id⟩
      · exact .refl s
  | written err =>
      show Calm s (s.onWritten err)
      unfold onWritten
      split
      · exact calm_out { s with running := none, writing := false } _
      · exact .refl s
  | quiet =>
      show Calm s s.onQuiet
      unfold onQuiet
      split
      · exact calm_write s _
      · exact .refl s
  | silence =>
      show Calm s s.onSilence
      unfold onSilence
      split
      · exact calm_teardown s _
      · exact .refl s
  | ackTimeout =>
      show Calm s s.onAckTimeout
      unfold onAckTimeout
      split
      · exact calm_settle s _
      · exact .refl s
  | close => exact calm_write s _
  | lost err => exact calm_teardown s err

/-! ### An established session is ready -/

/-- `ready` is resolved when the session becomes established. -/
abbrev Announced (s : Session) : Prop :=
  DtnCustody.Announced Session.log (fun s => s.state = .established) .ready s

theorem announced_onContact {s : Session} (h : s.Announced) (version flags : UInt8) (interval : Nat)
    (eid : JsString) : (s.onContact version flags interval eid).Announced := by
  unfold onContact
  split
  · exact h.calm (calm_teardown s _)
  · split
    · exact h.calm (calm_teardown s _)
    · intro _
      apply List.mem_append_left
      apply List.mem_append_right
      exact List.mem_singleton.mpr rfl

theorem announced_turn {s s' : Session} (h : s.Announced) (hturn : s.turn = some s') :
    s'.Announced := by
  unfold turn at hturn
  split at hturn
  · cases hturn
  split at hturn
  · cases hturn
    exact h.calm (calm_teardown s _)
  · cases hturn
  · rename_i m p _
    cases hturn
    have hpushed : ({ s with parser := p } : Session).Announced := h
    cases hcontact : m.isContact with
    | false => exact hpushed.calm (calm_onMessage _ hcontact)
    | true =>
        cases m with
        | contact version flags interval eid =>
            exact announced_onContact hpushed version flags interval eid
        | _ => cases hcontact

theorem announced_handle {s : Session} (h : s.Announced) (e : Event) : (s.handle e).Announced := by
  by_cases hdata : ∃ d, e = .data d
  · obtain ⟨d, rfl⟩ := hdata
    show Announced (if s.closed then s else s.onData d)
    split
    · exact h
    · exact drain_keeps turn (P := Announced) (fun _ _ => announced_turn) _ (s := s.push d) h
  · exact h.calm (calm_handle s fun d hd => hdata ⟨d, hd⟩)

theorem announced_run {s : Session} (h : s.Announced) (es : List Event) : (s.run es).Announced := by
  induction es generalizing s with
  | nil => exact h
  | cons e es ih => exact ih (announced_handle h e)

theorem announced_new (o : Options) : (Session.new o).Announced := by
  have hstate : (Session.new o).state = .contact := by
    unfold new
    dsimp only
    split
    · unfold sendHeader write
      split <;> rfl
    · rfl
  intro hest
  rw [hstate] at hest
  cases hest

/-! ### What is read of a chunk -/

@[simp] theorem parser_write (s : Session) (bytes : Bytes) : (s.write bytes).parser = s.parser := by
  unfold write
  split <;> rfl

@[simp] theorem parser_teardown (s : Session) (err : Option JsString) :
    (s.teardown err).parser = s.parser := by
  unfold teardown
  split
  · rfl
  · dsimp only
    split <;> rfl

theorem closed_teardown (s : Session) (err : Option JsString) : (s.teardown err).closed = true := by
  unfold teardown
  split
  · assumption
  · dsimp only
    split <;> rfl

/-- A message leaves the buffer as it is. -/
theorem parser_onMessage (s : Session) (m : Message) : (s.onMessage m).parser = s.parser := by
  cases m with
  | contact version flags interval eid =>
      show (s.onContact version flags interval eid).parser = _
      unfold onContact startKeepalive sendHeader
      split
      · simp
      · split
        · simp
        · dsimp only
          split <;> split <;> simp [out]
  | segment flags data =>
      have hpart : ∀ (s : Session) parts, (s.onPart flags data parts).parser = s.parser := by
        intro s parts
        unfold onPart
        dsimp only
        split
        · simp
        · split <;> split <;> simp [out]
      show (s.onSegment flags data).parser = _
      unfold onSegment
      split
      · rfl
      · dsimp only
        split
        · split <;> rfl
        · rw [hpart]
          split <;> rfl
  | ack value =>
      show (s.onAck value).parser = _
      unfold onAck
      split
      · split <;> rfl
      · rfl
  | refuse reason =>
      show (s.onRefuse reason).parser = _
      unfold onRefuse
      split <;> rfl
  | bad_magic => exact parser_teardown s _
  | bad_header => exact parser_teardown s _
  | too_big len => exact parser_teardown s _
  | _ => rfl

/-- Only a contact header establishes a session. -/
theorem readsOn_turn :
    ReadsOn Parser.next turn Session.parser (fun s => s.state = .established)
      fun m => m.isContact = true := by
  intro s s' hturn
  unfold turn at hturn
  split at hturn
  · cases hturn
  split at hturn
  · -- What the parser throws ends the session, and the loop.
    cases hturn
    left
    rw [turn, if_pos (closed_teardown s _)]
  · cases hturn
  · rename_i m p hparse
    cases hturn
    right
    refine ⟨m, ?_, fun hest => ?_⟩
    · rw [parser_onMessage, Parser.next, hparse]
    · cases hcontact : m.isContact with
      | true => exact .inr hcontact
      | false => exact .inl ((calm_onMessage { s with parser := p } hcontact).2 hest)

/-- **A last segment is acknowledged only with its bundle**, in an established session. -/
theorem onSegment_final {s : Session} (h : s.closed = false) {flags : UInt8}
    (hend : hasBit flags SEG.END = true) (data : Bytes) :
    (∀ bytes, .write bytes ∈ (s.onSegment flags data).log.drop s.log.length →
      bytes.head? ≠ some (typeByte T.ACK_SEGMENT 0)) ∨
    s.state = .established ∧
      ∃ bundle, .bundle bundle ∈ (s.onSegment flags data).log.drop s.log.length := by
  have hnothing : ∀ {t : Session}, t.log = s.log → ∀ bytes, .write bytes ∈ t.log.drop s.log.length →
      bytes.head? ≠ some (typeByte T.ACK_SEGMENT 0) := by
    intro t hlog bytes hbytes
    rw [hlog, List.drop_length] at hbytes
    exact (List.not_mem_nil hbytes).elim
  have hpart : ∀ {t : Session} (parts : List Bytes), t.closed = false → t.log = s.log →
      (∀ bytes, .write bytes ∈ (t.onPart flags data parts).log.drop s.log.length →
        bytes.head? ≠ some (typeByte T.ACK_SEGMENT 0)) ∨
      ∃ bundle, .bundle bundle ∈ (t.onPart flags data parts).log.drop s.log.length := by
    intro t parts hopen hlog
    have hwrite := write_open
      (s := { t with rx := some (parts ++ [data]), rxBytes := t.rxBytes + data.length }) hopen
    unfold onPart
    dsimp only
    split
    · left
      intro bytes hbytes
      rw [hwrite] at hbytes
      replace hbytes : Output.write bytes ∈
          (t.log ++ [Output.write [typeByte T.REFUSE_BUNDLE 0x2]]).drop s.log.length := hbytes
      rw [hlog, List.drop_left] at hbytes
      cases List.mem_singleton.mp hbytes
      decide
    · right
      refine ⟨(parts ++ [data]).flatten, ?_⟩
      split
      · rw [hwrite]
        show _ ∈ (t.log ++ [_] ++ [_]).drop s.log.length
        rw [hlog, List.append_assoc, List.drop_left]
        exact List.mem_cons_of_mem _ List.mem_cons_self
      · show _ ∈ (t.log ++ [_]).drop s.log.length
        rw [hlog, List.drop_left]
        exact List.mem_cons_self
  unfold onSegment
  split
  · exact .inl (hnothing rfl)
  · rename_i hstate
    have hstarted : (if hasBit flags SEG.START then { s with rx := some [], rxBytes := 0 }
          else s).closed = false ∧
        (if hasBit flags SEG.START then { s with rx := some [], rxBytes := 0 } else s).log
          = s.log := by
      split <;> exact ⟨h, rfl⟩
    dsimp only
    generalize (if hasBit flags SEG.START then { s with rx := some [], rxBytes := 0 } else s) = t
      at hstarted
    obtain ⟨hopen, hlog⟩ := hstarted
    split
    · exact .inl (hnothing hlog)
    · rcases hpart _ hopen hlog with hrefused | hemitted
      · exact .inl hrefused
      · exact .inr ⟨not_not.mp hstate, hemitted⟩

/-- What acknowledges a transfer that ends is a turn of an established session, and emits the
bundle. -/
theorem acknowledges_emits {t t' : Session} (hturn : t.turn = some t') (hack : t.Acknowledges t') :
    t.state = .established ∧ t.Emits t' := by
  obtain ⟨m, p, hparse, hfinal, bytes, hbytes, hhead⟩ := hack
  unfold turn at hturn
  split at hturn
  · cases hturn
  rename_i hopen
  rw [hparse] at hturn
  cases hturn
  cases m with
  | segment flags data =>
      rcases onSegment_final (s := { t with parser := p }) (by simpa using hopen) hfinal data
        with hother | ⟨hstate, bundle, hbundle⟩
      · exact absurd hhead (hother bytes hbytes)
      · exact ⟨hstate, bundle, hbundle⟩
  | _ => cases hfinal

/-! ### Every run -/

theorem apartStep_of_run {s : Session} {front back : List Event} {e : Event}
    (h : ApartRun s (front ++ e :: back)) : (s.run front).ApartStep e := by
  induction front generalizing s with
  | nil => exact h.1
  | cons e' front ih => exact ih h.2

/-- **No acknowledged bundle is lost**, where no chunk that establishes a session ends a transfer. -/
theorem heard_of_apart (o : Options) {es : List Event} (h : ApartRun (.new o) es) :
    Heard (.new o) es := by
  rintro front e back rfl t ht t' hturn hack
  obtain ⟨hestablished, hemits⟩ := acknowledges_emits hturn hack
  refine ⟨?_, hemits⟩
  have hannounced := announced_run (announced_new o) front
  have hstep := apartStep_of_run h
  generalize (Session.new o).run front = s at ht hannounced hstep
  cases e with
  | data d =>
      rcases hstep with hready | hapart
      · exact hready
      · by_contra hnot
        by_cases hclosed : s.closed = true
        · rw [within, if_pos hclosed] at ht
          cases ht
        rw [within, if_neg hclosed] at ht
        obtain ⟨n, hn, hdrain⟩ := List.mem_map.mp ht
        obtain ⟨m, p, hparse, hfinal, -⟩ := hack
        have hnext : t.parser.next = some (m, p) := by rw [Parser.next, hparse]
        -- Before the chunk the session was not established, so its contact header is in this chunk.
        have hbefore : ¬ (s.push d).state = .established := fun hstate => hnot (hannounced hstate)
        exact reads_apart (s := s.push d) readsOn_turn (List.mem_range.mp hn) hapart hbefore hdrain
          hturn hnext hfinal hestablished
  | _ => exact (List.not_mem_nil ht).elim

end Session

end Tcpcl3

/-! ## Both versions -/

/-- **What keeps every acknowledged bundle at the start of a session**: in every run of a TCPCLv4
session in which the chunk that completes the peer's SESS_INIT ends no transfer behind it, and in every
run of a TCPCLv3 session in which the chunk that completes the peer's contact header ends none behind
it, each transfer with a final acknowledgement is emitted after the handler has been attached. -/
theorem acknowledged_heard (o₄ : Tcpcl4.Options) (es₄ : List Tcpcl4.Event) (o₃ : Tcpcl3.Options)
    (es₃ : List Tcpcl3.Event) :
    (Tcpcl4.Session.ApartRun (.new o₄) es₄ → Tcpcl4.Session.Heard (.new o₄) es₄) ∧
    (Tcpcl3.Session.ApartRun (.new o₃) es₃ → Tcpcl3.Session.Heard (.new o₃) es₃) :=
  ⟨Tcpcl4.Session.heard_of_apart o₄, Tcpcl3.Session.heard_of_apart o₃⟩

/-- A node that connects. -/
def joiningOptions : Tcpcl4.Options where
  active := true
  nodeId := js "ipn:9.0"
  keepalive := 0
  segmentMru := 1
  transferMru := 1
  keepalive_lt := by decide
  segmentMru_lt := Tcpcl4.tinyMru_lt
  transferMru_lt := Tcpcl4.tinyMru_lt
  nodeId_lt := by decide +kernel

/-- The node it connects to: a session of this code that has a bundle to send, and sends it when the
SESS_INITs have been exchanged. -/
def waitingPeer : Tcpcl4.Session :=
  (Tcpcl4.Session.new Tcpcl4.tinyOptions).run (Tcpcl4.peerHandshake ++ [.send [1]])

/-- A version 3 node that connects. -/
def joiningOptions₃ : Tcpcl3.Options where
  active := true
  nodeId := js "ipn:9.0"
  keepalive_lt := Tcpcl3.default_keepalive_lt

/-- Cut behind the SESS_INIT, or behind the contact header, the bundle is delivered. -/
theorem acknowledged_heard_sample :
    Tcpcl4.Session.Heard (.new joiningOptions)
      [.data (waitingPeer.written.take 6), .data ((waitingPeer.written.drop 6).take 32),
       .data (waitingPeer.written.drop 38)] ∧
    Tcpcl3.Session.Heard (.new joiningOptions₃)
      [.data (Tcpcl3.encodeContactHeader 1 0 (js "ipn:1.0")),
       .data (Tcpcl3.encodeSegment 3 [1])] :=
  ⟨(acknowledged_heard _ _ joiningOptions₃ []).1 (by decide +kernel),
   (acknowledged_heard joiningOptions [] _ _).2 (by decide +kernel)⟩

/-- What the node that connects writes is what that peer has read. -/
example :
    ((Tcpcl4.Session.new joiningOptions).run [.data (waitingPeer.written.take 6)]).written
      = Tcpcl4.encodeContactHeader false ++ Tcpcl4.encodeSessInit 0 1 1 (js "ipn:9.0") := by
  decide +kernel

/-- The session of the node that connects, before the piece with the SESS_INIT. -/
def joining : Tcpcl4.Session :=
  (Tcpcl4.Session.new joiningOptions).run [.data (waitingPeer.written.take 6)]

/-- The same session when it has read the SESS_INIT and not yet the transfer behind it. -/
def joined : Tcpcl4.Session :=
  drain Tcpcl4.Session.turn 1 (joining.push (waitingPeer.written.drop 6))

theorem joined_reads : joined.parser.parse.isSome := by decide +kernel

/-- The transfer. -/
def coalesced : Tcpcl4.Message × Tcpcl4.Parser := joined.parser.parse.get joined_reads

/-- **An acknowledged bundle is lost**: the peer's SESS_INIT and its first transfer come in one
piece. -/
theorem acknowledged_unheard :
    ¬ ∀ (o : Tcpcl4.Options) (es : List Tcpcl4.Event), Tcpcl4.Session.Heard (.new o) es := by
  intro hheard
  have hopen : joining.closed = false := by decide +kernel
  have hin : joined ∈ joining.within (.data (waitingPeer.written.drop 6)) := by
    rw [Tcpcl4.Session.within, if_neg (by rw [hopen]; simp)]
    exact List.mem_map.mpr ⟨1, List.mem_range.mpr (by omega), rfl⟩
  have hparse : joined.parser.parse = some coalesced := (Option.some_get joined_reads).symm
  have hturn : joined.turn = some ({ joined with parser := coalesced.2 }.onMessage coalesced.1) := by
    rw [Tcpcl4.Session.turn, if_neg (by decide +kernel), hparse]
    rfl
  -- The bundle is acknowledged, while `ready` has not been resolved before this piece.
  have hack : joined.Acknowledges ({ joined with parser := coalesced.2 }.onMessage coalesced.1) :=
    ⟨coalesced.1, coalesced.2, hparse, by decide +kernel, Tcpcl4.encodeAck 3 0 1, by decide +kernel,
      by decide⟩
  have hready := (hheard joiningOptions
    [.data (waitingPeer.written.take 6), .data (waitingPeer.written.drop 6)]
    [.data (waitingPeer.written.take 6)] _ [] rfl joined hin _ hturn hack).1
  exact absurd hready (by decide +kernel)

end DtnCustody
