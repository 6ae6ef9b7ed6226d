/-
# DtnCustody.Gateway.Tcpcl4Exact — transfers between two TCPCLv4 sessions are exact.

One lemma for each thing that can happen at an end; the other end is the same connection seen from the
other side. A session that is not established yet can still be ended by its own checks (the TLS policy,
the certificate, the allowed list); afterwards nothing in an exchange between two sessions ends it.
-/
import DtnCustody.Gateway.Tcpcl4Link

namespace DtnCustody

open Base

namespace Tcpcl4

section Acts

variable {x y : Options} {l : Link}

/-- The near end writes some messages and reads what `hback` says. -/
theorem Good.near_writes (h : Good x y l) {e : End} (ws : List Message) {outs : List Output}
    (hsound : Sound e y) (hopts : e.session.opts = l.near.session.opts)
    (hhello : hello e.session = hello l.near.session)
    (hlog : e.session.log = l.near.session.log ++ outs)
    (hwritten : outs.flatMap Output.written = ws.flatMap Message.bytes)
    (hest : e.session.state ≠ .established → ws = [] ∧ l.near.session.state ≠ .established)
    (hcarried : ∀ m ∈ ws, Carried e l.far m) (hsent : l.near.sent <+: e.sent)
    (hreceiving : ∀ segs, Receiving l.far.session.opts.segmentMru l.near.sent l.far.session segs →
      Receiving l.far.session.opts.segmentMru e.sent l.far.session
        (segs ++ ws.filter Message.isSegment))
    (hresolved : ∀ id, .resolve id ∈ outs → Acknowledged e l.far id)
    (hback : ∃ body, Flow l.far e body) : Good x y { l with near := e } := by
  obtain ⟨body, hout⟩ := h.out
  refine { near := hopts.trans h.near, far := h.far, sound_near := hsound, sound_far := h.sound_far,
           out := ⟨body ++ ws, ?_⟩, back := hback }
  refine hout.write [] ws (by rw [hhello, List.append_nil]) (fun hne => absurd rfl hne) hlog hwritten
    ?_ hcarried ?_ hsent hresolved
  · intro hne
    obtain ⟨hws, hbefore⟩ := hest hne
    rw [hout.body_nil hbefore, hws]
    rfl
  · rw [List.filter_append]
    exact hreceiving _ hout.receiving

/-- The far end has nothing new to receive. -/
theorem receiving_nil {seg : Nat} {sent : List Bytes} {s : Session} {ws : List Message}
    (hws : ws.filter Message.isSegment = []) :
    ∀ segs, Receiving seg sent s segs → Receiving seg sent s (segs ++ ws.filter Message.isSegment) := by
  intro segs h
  rw [hws, List.append_nil]
  exact h

/-! ## Bytes arrive -/

theorem Good.arrive (h : Good x y l) (n : Nat) : Good x y (l.step (.near, .arrive n)) := by
  obtain ⟨body, hout⟩ := h.out
  obtain ⟨answers, hback⟩ := h.back
  refine { near := h.near, far := h.far, sound_near := { h.sound_near with }, sound_far := h.sound_far,
           out := ⟨body, { hout with }⟩, back := ⟨answers, ?_⟩ }
  refine hback.read rfl ?_ ?_ hback.seen_le (fun _ hm => hm) (List.prefix_refl _)
    (List.append_nil _).symm (hback.receiving.congr rfl rfl rfl)
  · show l.near.arrived + ((l.far.session.written.drop l.near.arrived).take n).length ≤ _
    have := hback.arrived
    rw [List.length_take, List.length_drop]
    omega
  · -- The chunk moves from the flight into the buffer.
    show l.near.session.parser.buf ++ (l.far.session.written.drop l.near.arrived).take n ++
      l.far.session.written.drop
        (l.near.arrived + ((l.far.session.written.drop l.near.arrived).take n).length) = _
    rw [← List.drop_drop, List.append_assoc]
    refine Eq.trans ?_ hback.stream
    congr 1
    rw [List.length_take]
    rcases Nat.le_total n (l.far.session.written.drop l.near.arrived).length with hle | hle
    · rw [Nat.min_eq_left hle, List.take_append_drop]
    · rw [Nat.min_eq_right hle, List.take_of_length_le hle, List.drop_length, List.append_nil]

/-! ## Timers -/

theorem Good.quiet (h : Good x y l) : Good x y (l.step (.near, .quiet)) := by
  show Good x y { l with near := { l.near with session := l.near.session.onQuiet } }
  unfold Session.onQuiet
  split
  · rename_i htimer
    have hest := h.sound_near.timer htimer
    obtain ⟨answers, hback⟩ := h.back
    rw [Session.write_open h.sound_near.closed]
    refine h.near_writes [.keepalive] { h.sound_near with } rfl rfl rfl rfl (absurd hest) ?_
      (List.prefix_refl _) (receiving_nil rfl) (by simp)
      ⟨answers, hback.aside rfl rfl rfl rfl (List.prefix_refl _) rfl rfl rfl rfl⟩
    intro m hm
    rw [List.mem_singleton.mp hm]
    trivial
  · exact h

theorem Good.ackTimeout (h : Good x y l) (id : Nat) : Good x y (l.step (.near, .ackTimeout id)) := by
  show Good x y { l with near := { l.near with session := l.near.session.onAckTimeout id } }
  unfold Session.onAckTimeout
  split
  · obtain ⟨answers, hback⟩ := h.back
    exact h.near_writes []
      { h.sound_near with
        pending := fun id total hget => h.sound_near.pending id total (JsMap.get?_of_delete hget) }
      rfl rfl rfl rfl (fun hne => ⟨rfl, hne⟩) (by simp) (List.prefix_refl _) (receiving_nil rfl)
      (by simp) ⟨answers, hback.aside rfl rfl rfl rfl (List.prefix_refl _) rfl rfl rfl rfl⟩
  · exact h

/-! ## A bundle is sent -/

/-- The segments of a transfer fit: by the receiver's limit, which `send` keeps to. -/
theorem carried_pieces {e f : End} {id fuel off : Nat} {bundle : Bytes} (hid : id < 256 ^ 8)
    (hsize : bundle.length < 256 ^ 8) :
    ∀ m ∈ pieces f.session.opts.segmentMru id bundle fuel off, Carried e f m := by
  intro m hm
  obtain ⟨c, hc, rfl⟩ := List.mem_map.mp hm
  obtain ⟨hseg, hbundle⟩ := length_of_mem_cutFrom hc
  exact ⟨hid, hseg, by omega⟩

theorem Good.send (h : Good x y l) (hseg : 1 ≤ y.segmentMru) (bundle : Bytes) :
    Good x y (l.step (.near, .send bundle)) := by
  obtain ⟨answers, hback⟩ := h.back
  have hs := h.sound_near
  show Good x y { l with near := { l.near with
    session := l.near.session.send bundle
    sent := if l.near.Sends l.far.session.opts bundle then l.near.sent ++ [bundle] else l.near.sent } }
  rcases Session.send_cases hs.closed bundle with
    ⟨o, howritten, hoemitted, horesolve, hsend, hrefused⟩ | ⟨p, hest, hpeer, hsize, hsend⟩
  · have hnot : ¬ l.near.Sends l.far.session.opts bundle := by
      rintro ⟨hest, hsize, -⟩
      obtain ⟨p, hpeer, -, htransfer⟩ := hs.mrus hest
      rw [h.far, ← htransfer] at hsize
      exact hrefused ⟨hest, p, hpeer, hsize⟩
    rw [if_neg hnot, hsend]
    have hlog : (l.near.session.out o).log = l.near.session.log ++ [o] := rfl
    refine h.near_writes [] { hs with } rfl rfl hlog (by simp [howritten])
      (fun hne => ⟨rfl, hne⟩) (by simp) (List.prefix_refl _) (receiving_nil rfl) ?_
      ⟨answers, hback.aside rfl rfl rfl rfl (List.prefix_refl _) hlog (by simp [hoemitted]) rfl rfl⟩
    intro id hid
    exact absurd (List.mem_singleton.mp hid).symm (horesolve id)
  · obtain ⟨q, hq, hsegment, htransfer⟩ := hs.mrus hest
    have hqp : q = p := Option.some.inj (hq.symm.trans hpeer)
    subst hqp
    rcases hsend with ⟨hid, hsend⟩ | ⟨hid, hsend⟩
    · -- No transfer id is left: nothing is written.
      have hnot : ¬ l.near.Sends l.far.session.opts bundle := fun hsends => by
        have := hsends.2.2
        omega
      rw [if_neg hnot, hsend]
      refine h.near_writes [] { hs with count := ?_, pending := ?_, fresh := absurd hest } rfl rfl rfl
        rfl (absurd hest) (by simp) (List.prefix_refl _) (receiving_nil rfl) (by simp)
        ⟨answers, hback.aside rfl rfl rfl rfl (List.prefix_refl _) rfl rfl rfl rfl⟩
      · have := hs.count
        show l.near.sent.length = min (l.near.session.nextTransferId + 1) (256 ^ 8)
        omega
      · intro id total hget hlt
        rw [show _ = _ from JsMap.get?_set_ne _ (by omega) _] at hget
        exact hs.pending id total hget hlt
    · have hsends : l.near.Sends l.far.session.opts bundle := by
        refine ⟨hest, ?_, hid⟩
        rw [h.far, ← htransfer]
        exact hsize
      have hplace : l.near.sent.length = l.near.session.nextTransferId := by
        have := hs.count
        omega
      have hmru : max 1 q.segmentMru = l.far.session.opts.segmentMru := by
        rw [h.far, hsegment]
        omega
      have hbound : bundle.length < 256 ^ 8 := by
        have := y.transferMru_lt
        omega
      rw [if_pos hsends, hsend, hmru]
      refine h.near_writes (pieces l.far.session.opts.segmentMru l.near.session.nextTransferId bundle
          (bundle.length + 1) 0)
        { hs with count := ?_, sizes := ?_, pending := ?_, fresh := absurd hest } rfl rfl rfl ?_
        (absurd hest) (carried_pieces hid hbound) (List.prefix_append _ _) ?_ ?_
        ⟨answers, hback.aside rfl rfl rfl rfl (List.prefix_append _ _) rfl ?_ rfl rfl⟩
      · show (l.near.sent ++ [bundle]).length = min (l.near.session.nextTransferId + 1) (256 ^ 8)
        rw [List.length_append, List.length_singleton]
        omega
      · intro b hb
        rcases List.mem_append.mp hb with hb | hb
        · exact hs.sizes b hb
        · rw [List.mem_singleton.mp hb, ← htransfer]
          exact hsize
      · intro id total hget hlt
        show ∃ b, (l.near.sent ++ [bundle])[id]? = some b ∧ b.length = total
        by_cases heq : id = l.near.session.nextTransferId
        · subst heq
          rw [show _ = _ from JsMap.get?_set_self _ _ _] at hget
          refine ⟨bundle, ?_, Option.some.inj hget⟩
          rw [← hplace, List.getElem?_append_right le_rfl, Nat.sub_self]
          rfl
        · rw [show _ = _ from JsMap.get?_set_ne _ heq _] at hget
          obtain ⟨b, hb, hlen⟩ := hs.pending id total hget hlt
          exact ⟨b, sent_kept (List.prefix_append _ _) hb, hlen⟩
      · rw [pieces, List.flatMap_map, List.flatMap_map]
        rfl
      · intro segs hsegs
        rw [filter_pieces, ← hplace]
        exact hsegs.snoc bundle
      · intro id hid
        simp at hid
      · rw [List.filterMap_eq_nil_iff]
        intro o ho
        obtain ⟨c, -, rfl⟩ := List.mem_map.mp ho
        rfl

/-! ## The handshake -/

/-- The near end writes a message of the handshake. -/
theorem Good.near_greets (h : Good x y l) {e : End} (greeting : List Message) {outs : List Output}
    (hsound : Sound e y) (hopts : e.session.opts = l.near.session.opts)
    (hhello : hello e.session = hello l.near.session ++ greeting)
    (hlog : e.session.log = l.near.session.log ++ outs)
    (hwritten : outs.flatMap Output.written = greeting.flatMap Message.bytes)
    (hstate : l.near.session.state ≠ .established) (hsent : e.sent = l.near.sent)
    (hresolve : ∀ id, .resolve id ∉ outs) (hback : ∃ body, Flow l.far e body) :
    Good x y { l with near := e } := by
  obtain ⟨body, hout⟩ := h.out
  have hnil : body = [] := hout.body_nil hstate
  subst hnil
  refine { near := hopts.trans h.near, far := h.far, sound_near := hsound, sound_far := h.sound_far,
           out := ⟨[] ++ [], ?_⟩, back := hback }
  refine hout.write greeting [] hhello (fun _ => rfl) hlog (by rw [hwritten, List.append_nil])
    (fun _ => rfl) (by simp) ?_ (by rw [hsent]) fun id hid => absurd hid (hresolve id)
  rw [hsent]
  exact hout.receiving

theorem Good.secure (h : Good x y l) (peerNodeIds : List JsString) :
    Good x y (l.step (.near, .secure peerNodeIds)) := by
  obtain ⟨answers, hback⟩ := h.back
  have hs := h.sound_near
  show Good x y { l with near := { l.near with session := l.near.session.onSecure peerNodeIds } }
  unfold Session.onSecure
  split
  · rename_i hsecuring
    cases hactive : l.near.session.opts.active with
    | true =>
        have hinit : l.near.session.state = .init := hs.securing hactive hsecuring
        simp only [hactive, if_true, Session.sendInit]
        rw [Session.write_open (by exact hs.closed)]
        refine h.near_greets [initMessage l.near.session.opts]
          { hs with
            not_securing := fun _ => rfl
            securing := fun _ hfalse => (by cases hfalse) }
          rfl ?_ rfl ?_ (by rw [hinit]; simp) rfl (by simp)
          ⟨answers, hback.aside rfl rfl rfl rfl (List.prefix_refl _) rfl rfl rfl rfl⟩
        · refine Eq.trans (hello_init ?_) ?_
          · exact hinit
          rw [if_pos ⟨hactive, rfl⟩, hello_init hinit, if_neg (by simp [hsecuring])]
          rfl
        · show encodeSessInit _ _ _ _ ++ [] = (initMessage _).bytes ++ []
          rw [bytes_initMessage]
    | false =>
        simp only [hactive, Bool.false_eq_true, if_false]
        refine h.near_writes []
          { hs with
            not_securing := fun _ => rfl
            securing := fun hactive' => absurd (hactive.symm.trans hactive') (by simp) }
          rfl ?_ (List.append_nil _).symm rfl (fun hne => ⟨rfl, hne⟩) (by simp) (List.prefix_refl _)
          (receiving_nil rfl) (by simp)
          ⟨answers, hback.aside rfl rfl rfl rfl (List.prefix_refl _) (List.append_nil _).symm rfl rfl
            rfl⟩
        simp [hello, hactive]
  · exact h

/-! ## A message is read -/

/-- A turn of the near end, and what it is afterwards. -/
def Link.nearTurn (l : Link) (s : Session) : Link := { l with near := { l.near with session := s } }

/-- An end goes on as it was, or has been ended by its own checks before it was established. -/
def Onward (x y : Options) (l l' : Link) : Prop :=
  Good x y l' ∧ (l.near.session.state = .established → l'.near.session.state = .established) ∨
    l'.near.session.Dead ∧ l.near.session.state ≠ .established

/-- Until the near end has the contact header of its peer, that is all its peer has written. -/
theorem Good.hello_far (h : Good x y l) (hroles : x.active ≠ y.active)
    (hcontact : l.near.session.state = .contact) :
    (hello l.far.session = [] ∨ hello l.far.session = [contactMessage y]) ∧
      l.far.session.state ≠ .established := by
  obtain ⟨body, hout⟩ := h.out
  have hseen := hout.seen_le
  rw [hello_contact hcontact, h.near] at hseen
  have hfar := h.far
  rcases h.sound_far.state with hstate | hstate | hstate
  · rw [hello_contact hstate, hfar, hstate]
    refine ⟨?_, by simp⟩
    split
    · exact .inr rfl
    · exact .inl rfl
  · rw [hstate] at hseen
    have hactive : x.active = true := by
      by_contra hpassive
      rw [if_neg hpassive] at hseen
      simp [seen] at hseen
    have hpassive : ¬ (y.active = true ∧ l.far.session.securing = false) := fun hy =>
      hroles (hactive.trans hy.1.symm)
    rw [hello_init hstate, hfar, if_neg hpassive, hstate]
    exact ⟨.inr rfl, by simp⟩
  · rw [hstate] at hseen
    split at hseen <;> simp [seen] at hseen

theorem Good.turn_contact (h : Good x y l) (hroles : x.active ≠ y.active)
    (hcontact : l.near.session.state = .contact) {m : Message} {p : Parser}
    (hparse : l.near.session.parser.parse = some (m, p)) :
    Onward x y l (l.nearTurn ({ l.near.session with parser := p }.onMessage m)) := by
  obtain ⟨answers, hback⟩ := h.back
  have hs := h.sound_near
  obtain ⟨hhello, hfar⟩ := h.hello_far hroles hcontact
  have hnil : answers = [] := hback.body_nil hfar
  subst hnil
  have hheader : l.near.session.parser.headerDone = false := by
    cases hdone : l.near.session.parser.headerDone with
    | false => rfl
    | true => exact absurd hcontact (hs.header.mp hdone)
  have hstream := hback.stream
  rw [hcontact] at hstream
  simp only [seen, List.drop_zero, List.append_nil] at hstream
  rw [Parser.parse, hheader] at hparse
  simp only [Bool.false_eq_true, if_false, Option.map_eq_some_iff, Prod.mk.injEq] at hparse
  obtain ⟨⟨m', rest⟩, hread, rfl, rfl⟩ := hparse
  rcases hhello with hhello | hhello
  · -- The peer has written nothing.
    rw [hhello] at hstream
    rw [(List.append_eq_nil_iff.mp hstream).1] at hread
    cases hread
  rw [hhello, List.flatMap_cons] at hstream
  obtain ⟨rfl, hrest⟩ := framed_header.front ⟨_, _, rfl⟩ hstream hread
  obtain ⟨hrestnil, hflight⟩ := List.append_eq_nil_iff.mp hrest
  subst hrestnil
  generalize hsession : ({ l.near.session with
    parser := { l.near.session.parser with buf := [], headerDone := true } } : Session) = s
  have hopen : s.closed = false := by
    rw [← hsession]
    exact hs.closed
  show Onward x y l (l.nearTurn (s.onContact VERSION (if y.tlsOpts.isSome then 1 else 0)))
  generalize hflags : (if y.tlsOpts.isSome then 1 else 0 : UInt8) = flags
  rcases Session.onContact_cases hopen flags with hdead | hgoes
  · exact .inr ⟨hdead, by rw [hcontact]; simp⟩
  · left
    refine ⟨?_, fun hest => by rw [hcontact] at hest; cases hest⟩
    rw [hgoes, Link.nearTurn]
    have hsecuring : s.securing = false := by
      rw [← hsession]
      exact hs.not_securing hcontact
    have hparser : (if s.both flags then { s.parser with buf := [] } else s.parser) = s.parser := by
      rw [← hsession]
      split <;> rfl
    rw [hparser, hsecuring, Bool.false_or]
    generalize s.both flags = both
    subst hsession
    refine h.near_greets ((if x.active then [] else [contactMessage x]) ++
        if x.active && !both then [initMessage x] else [])
      { hs with
        state := .inr (.inl rfl)
        header := by simp
        not_securing := fun hfalse => by cases hfalse
        securing := fun _ _ => rfl
        mrus := fun hfalse => by cases hfalse
        timer := fun htimer => by
          have := hs.timer htimer
          rw [hcontact] at this
          cases this
        fresh := fun _ => hs.fresh (by rw [hcontact]; simp) }
      rfl ?_ rfl ?_ (by rw [hcontact]; simp) rfl ?_ ⟨[], ?_⟩
    · refine Eq.trans (hello_init ?_) ?_
      · rfl
      rw [hello_contact hcontact, ← h.near]
      show contactMessage l.near.session.opts ::
        (if l.near.session.opts.active ∧ both = false then _ else _) = _
      cases l.near.session.opts.active <;> cases both <;> rfl
    · rw [Session.contactAnswer, ← h.near]
      cases l.near.session.opts.active <;> cases both <;>
        simp [Output.written, bytes_initMessage, bytes_contactMessage]
    · intro id hid
      rw [Session.contactAnswer] at hid
      split at hid <;> split at hid <;> simp at hid
    · refine hback.read rfl hback.arrived ?_ ?_ (fun _ hm => hm) (List.prefix_refl _) rfl ?_
      · rw [hhello]
        exact hflight
      · rw [hhello]
        exact le_rfl
      · refine hback.receiving.congr ?_ rfl rfl
        rw [Session.bundles_of_log rfl, Session.contactAnswer]
        show l.near.session.bundles ++ _ = _
        split <;> split <;> simp [Output.emitted]

/-- What an open session past the contact header reads. -/
theorem parse_message {e : End} {peer : Options} (hs : Sound e peer)
    (hstate : e.session.state ≠ .contact) {m : Message} {p : Parser}
    (hparse : e.session.parser.parse = some (m, p)) :
    ∃ rest, parseMessage e.session.opts.segmentMru e.session.parser.buf = some (m, rest) ∧
      p = { e.session.parser with buf := rest } := by
  rw [Parser.parse, hs.header.mpr hstate, hs.limit, if_pos rfl] at hparse
  simp only [Option.map_eq_some_iff, Prod.mk.injEq] at hparse
  obtain ⟨⟨m', rest⟩, hread, rfl, rfl⟩ := hparse
  refine ⟨rest, hread, ?_⟩
  rw [← hs.limit, ← hs.header.mpr hstate]

theorem Good.turn_init (h : Good x y l) (hroles : x.active ≠ y.active)
    (hinit : l.near.session.state = .init) {m : Message} {p : Parser}
    (hparse : l.near.session.parser.parse = some (m, p)) :
    Onward x y l (l.nearTurn ({ l.near.session with parser := p }.onMessage m)) := by
  obtain ⟨body, hout⟩ := h.out
  obtain ⟨answers, hback⟩ := h.back
  have hs := h.sound_near
  obtain ⟨rest, hread, rfl⟩ := parse_message hs (by rw [hinit]; simp) hparse
  have hstream := hback.stream
  have hseen := hback.seen_le
  rw [hinit] at hstream hseen
  -- The peer has written its SESS_INIT; otherwise there is nothing to read.
  obtain ⟨c, hhello⟩ : ∃ c, hello l.far.session = [c, initMessage y] := by
    rcases h.sound_far.state with hstate | hstate | hstate
    · rw [hello_contact hstate] at hseen hstream
      rw [hback.body_nil (by rw [hstate]; simp)] at hstream
      split at hstream
      · rw [(List.append_eq_nil_iff.mp hstream).1] at hread
        cases hread
      · rename_i hpassive
        rw [if_neg hpassive] at hseen
        simp [seen] at hseen
    · rw [hello_init hstate] at hstream ⊢
      rw [h.far] at hstream ⊢
      split
      · exact ⟨_, rfl⟩
      · rename_i hnot
        rw [if_neg hnot, hback.body_nil (by rw [hstate]; simp)] at hstream
        rw [(List.append_eq_nil_iff.mp hstream).1] at hread
        cases hread
    · rw [hello_established hstate, h.far]
      exact ⟨_, rfl⟩
  rw [hhello] at hstream
  obtain ⟨rfl, hrest⟩ := (framed_message _).front (fits_initMessage y _) hstream hread
  -- A side that connects does not get here with the TLS handshake still going on.
  have hunsecured : l.near.session.opts.active = true → l.near.session.securing = false := by
    intro hactive
    by_contra hsecuring
    have hfar : l.far.session.state = .established := by
      by_contra hne
      have hpassive : ¬ (l.far.session.opts.active = true) := fun hboth =>
        hroles (h.near ▸ h.far ▸ hactive.trans hboth.symm)
      simp [hello, hne, hpassive] at hhello
      split at hhello <;> simp at hhello
    have hless := hout.seen_le
    rw [hfar, hello_init hinit, if_neg (fun hn => hsecuring hn.2)] at hless
    simp [seen] at hless
  generalize hsession : ({ l.near.session with
    parser := { l.near.session.parser with buf := rest } } : Session) = s
  have hopen : s.closed = false := by
    rw [← hsession]
    exact hs.closed
  have hstate : s.state = .init := by
    rw [← hsession]
    exact hinit
  show Onward x y l (l.nearTurn (s.onSessInit y.keepalive y.segmentMru y.transferMru _))
  rcases Session.onSessInit_cases hopen hstate y.keepalive y.segmentMru y.transferMru
    (ofUtf8 (toUtf8 y.nodeId)) with hdead | ⟨timer, hgoes⟩
  · exact .inr ⟨hdead, by rw [hinit]; simp⟩
  · left
    refine ⟨?_, fun hest => by rw [hinit] at hest; cases hest⟩
    rw [hgoes, Link.nearTurn]
    subst hsession
    refine h.near_greets (if x.active then [] else [initMessage x])
      { hs with
        state := .inr (.inr rfl)
        header := ⟨fun _ => (by simp), fun _ => hs.header.mpr (by rw [hinit]; simp)⟩
        not_securing := fun hfalse => by cases hfalse
        securing := fun hactive hsecuring =>
          absurd ((hunsecured hactive).symm.trans hsecuring) (by simp)
        mrus := fun _ => ⟨_, rfl, rfl, rfl⟩
        timer := fun _ => rfl
        fresh := fun hfalse => absurd rfl hfalse }
      rfl ?_ rfl ?_ (by rw [hinit]; simp) rfl ?_ ⟨answers, ?_⟩
    · refine Eq.trans (hello_established ?_) ?_
      · rfl
      rw [hello_init hinit, ← h.near]
      cases hactive : l.near.session.opts.active with
      | true => rw [if_pos ⟨rfl, hunsecured hactive⟩]; rfl
      | false => rfl
    · rw [Session.initAnswer, ← h.near]
      cases hactive : l.near.session.opts.active <;>
        simp [Output.written, bytes_initMessage]
    · intro id hid
      rw [Session.initAnswer] at hid
      split at hid <;> simp at hid
    · refine hback.read rfl hback.arrived ?_ ?_ (fun _ hm => hm) (List.prefix_refl _) rfl ?_
      · rw [hhello]
        exact hrest
      · rw [hhello]
        exact le_rfl
      · refine hback.receiving.congr ?_ rfl rfl
        rw [Session.bundles_of_log rfl, Session.initAnswer]
        show l.near.session.bundles ++ _ = _
        split <;> simp [Output.emitted]

theorem Good.turn_established (h : Good x y l) (hseg : 1 ≤ x.segmentMru)
    (hest : l.near.session.state = .established) {m : Message} {p : Parser}
    (hparse : l.near.session.parser.parse = some (m, p)) :
    Onward x y l (l.nearTurn ({ l.near.session with parser := p }.onMessage m)) := by
  obtain ⟨answers, hback⟩ := h.back
  have hs := h.sound_near
  obtain ⟨rest, hread, rfl⟩ := parse_message hs (by rw [hest]; simp) hparse
  have hstream := hback.stream
  have hseen := hback.seen_le
  rw [hest] at hstream hseen
  have hdrop : (hello l.far.session).drop 2 = [] := by
    apply List.drop_eq_nil_of_le
    unfold hello
    split <;> split <;> simp
  rw [show seen .established = 2 from rfl, hdrop, List.nil_append] at hstream
  obtain ⟨later, rfl, hrest⟩ := (framed_message _).next
    (fun m hm => Carried.fits (hback.carried m hm)) hstream hread
  have hstream' : rest ++ l.far.session.written.drop l.near.arrived =
      ((hello l.far.session).drop (seen State.established) ++ later).flatMap Message.bytes := by
    rw [show seen .established = 2 from rfl, hdrop, List.nil_append, hrest]
  have hnext : Receiving l.near.session.opts.segmentMru l.far.sent l.near.session
      ((m :: later).filter Message.isSegment) := hback.receiving
  have hcarried := hback.carried m List.mem_cons_self
  generalize hsession : ({ l.near.session with
    parser := { l.near.session.parser with buf := rest } } : Session) = s
  have hstay : Receiving l.near.session.opts.segmentMru l.far.sent s
      ((m :: later).filter Message.isSegment) := by
    refine hnext.congr ?_ ?_ ?_ <;> rw [← hsession]
    rfl
  have hlog : s.log = l.near.session.log := by rw [← hsession]
  suffices hgood : Good x y (l.nearTurn (s.onMessage m)) ∧ (s.onMessage m).state = .established by
    exact .inl ⟨hgood.1, fun _ => hgood.2⟩
  cases m with
  | segment flags id data =>
      rw [List.filter_cons_of_pos rfl] at hstay
      obtain ⟨flags', id', data', hmessage, hanswered, hreceiving⟩ := hstay.take
        (by rw [← hsession]; exact hs.closed) (by rw [← hsession]; exact hest) (by rw [h.near]; exact hseg)
        (by rw [← hsession]; show ∀ b ∈ _, _ ≤ l.near.session.opts.transferMru
            rw [h.near]; exact h.sound_far.sizes)
      cases hmessage
      obtain ⟨rx, rxBytes, got, parts, hgoes, bundle, hsent, hgot, hend⟩ := hanswered
      have hbound : id < 256 ^ 8 := hcarried.1
      have hsize : bundle.length ≤ x.transferMru := h.sound_far.sizes _ (List.mem_of_getElem? hsent)
      have htransfer := x.transferMru_lt
      show Good x y (l.nearTurn (s.onSegment flags id data)) ∧ (s.onSegment flags id data).state = _
      rw [hgoes] at hend hreceiving ⊢
      subst hsession
      refine ⟨?_, hest⟩
      refine h.near_writes [.ack flags id got] { hs with } rfl rfl rfl ?_ (absurd hest) ?_
        (List.prefix_refl _) (receiving_nil rfl) ?_ ⟨later, ?_⟩
      · unfold Session.segmentAnswer
        split <;> rfl
      · intro m hm
        rw [List.mem_singleton.mp hm]
        refine ⟨hbound, by omega, fun hflag => ⟨bundle, hsent, (hend hflag).1.symm, ?_, (hend hflag).2⟩⟩
        exact List.mem_append_right _ List.mem_cons_self
      · intro id hid
        unfold Session.segmentAnswer at hid
        split at hid <;> simp at hid
      · refine hback.read rfl hback.arrived ?_ ?_ (fun m hm => List.mem_cons_of_mem _ hm)
          (List.prefix_refl _) rfl hreceiving
        · show rest ++ _ = ((hello _).drop (seen l.near.session.state) ++ later).flatMap _
          rw [hest]
          exact hstream'
        · show seen l.near.session.state ≤ _
          rw [hest]
          exact hseen
  | ack flags id acked =>
      rw [List.filter_cons_of_neg (by simp [Message.isSegment])] at hstay
      show Good x y (l.nearTurn (s.onAck flags id acked)) ∧ (s.onAck flags id acked).state = _
      have hkept : ∀ {e : End} {outs}, e.session.opts = l.near.session.opts →
          e.session.state = l.near.session.state → e.session.parser.buf = rest →
          e.arrived = l.near.arrived → e.sent = l.near.sent →
          e.session.log = l.near.session.log ++ outs → outs.filterMap Output.emitted = [] →
          e.session.rx = l.near.session.rx → e.session.rxBytes = l.near.session.rxBytes →
          Flow l.far e later := by
        intro e outs hopts hstate hbuf harrived hsent hmore hemitted hrx hbytes
        refine hback.read hopts (harrived ▸ hback.arrived) ?_ ?_ (fun m hm => List.mem_cons_of_mem _ hm)
          (by rw [hsent]) hmore ?_
        · rw [hbuf, harrived, hstate, hest]
          exact hstream'
        · rw [hstate, hest]
          exact hseen
        · refine Receiving.congr hstay ?_ ?_ ?_
          · rw [Session.bundles_of_log hmore, hemitted, List.append_nil, Session.bundles, Session.bundles,
              hlog]
          · rw [hrx, ← hsession]
          · rw [hbytes, ← hsession]
      rcases Session.onAck_cases s flags id acked with hsame | ⟨hpending, hflag, hgoes⟩
      · rw [hsame]
        subst hsession
        refine ⟨?_, hest⟩
        exact h.near_writes [] { hs with } rfl rfl (List.append_nil _).symm rfl
          (fun hne => ⟨rfl, hne⟩) (by simp) (List.prefix_refl _) (receiving_nil rfl) (by simp)
          ⟨later, hkept rfl rfl rfl rfl rfl (List.append_nil _).symm rfl rfl rfl⟩
      · rw [hgoes]
        subst hsession
        refine ⟨?_, hest⟩
        refine h.near_writes []
          { hs with
            pending := fun id total hget => hs.pending id total (JsMap.get?_of_delete hget) }
          rfl rfl rfl rfl (fun hne => ⟨rfl, hne⟩) (by simp) (List.prefix_refl _) (receiving_nil rfl) ?_
          ⟨later, hkept rfl rfl rfl rfl rfl rfl rfl rfl rfl⟩
        intro id' hid'
        cases List.mem_singleton.mp hid'
        obtain ⟨bundle, hbundle, hlen, hack, hemitted⟩ := hcarried.2.2 hflag
        refine ⟨bundle, flags, hbundle, hflag, ?_, hemitted⟩
        rw [hlen]
        exact hack
  | keepalive =>
      rw [List.filter_cons_of_neg (by simp [Message.isSegment])] at hstay
      show Good x y (l.nearTurn s) ∧ s.state = _
      subst hsession
      refine ⟨?_, hest⟩
      refine h.near_writes [] { hs with } rfl rfl (List.append_nil _).symm rfl
        (fun hne => ⟨rfl, hne⟩) (by simp) (List.prefix_refl _) (receiving_nil rfl) (by simp)
        ⟨later, hback.read rfl hback.arrived ?_ ?_ (fun m hm => List.mem_cons_of_mem _ hm)
          (List.prefix_refl _) (List.append_nil _).symm hstay⟩
      · show rest ++ _ = ((hello _).drop (seen l.near.session.state) ++ later).flatMap _
        rw [hest]
        exact hstream'
      · show seen l.near.session.state ≤ _
        rw [hest]
        exact hseen
  | _ => exact hcarried.elim

/-! ## Every act, every run -/

/-- A session that has been torn down stays so. -/
theorem dead_act {e : End} (h : e.session.Dead) (far : Session) (a : Act) :
    (e.act far a).session.Dead := by
  obtain ⟨hclosed, hstate⟩ := h
  cases a with
  | arrive n => exact ⟨hclosed, hstate⟩
  | turn =>
      have hnone : e.session.turn = none := by
        rw [Session.turn, if_pos hclosed]
      show (e.session.turn.getD e.session).Dead
      rw [hnone]
      exact ⟨hclosed, hstate⟩
  | send bundle =>
      show (e.session.send bundle).Dead
      unfold Session.send
      split
      · rename_i hest _
        rw [hstate] at hest
        cases hest
      · exact ⟨hclosed, hstate⟩
  | quiet =>
      show e.session.onQuiet.Dead
      unfold Session.onQuiet
      split
      · rw [Session.write_closed hclosed]
        exact ⟨hclosed, hstate⟩
      · exact ⟨hclosed, hstate⟩
  | ackTimeout id =>
      show (e.session.onAckTimeout id).Dead
      unfold Session.onAckTimeout
      split <;> exact ⟨hclosed, hstate⟩
  | secure peerNodeIds =>
      show (e.session.onSecure peerNodeIds).Dead
      unfold Session.onSecure
      split
      · dsimp only
        split
        · rw [Session.sendInit, Session.write_closed (by exact hclosed)]
          exact ⟨hclosed, hstate⟩
        · exact ⟨hclosed, hstate⟩
      · exact ⟨hclosed, hstate⟩

/-- The near end does anything. -/
theorem Good.near_step (h : Good x y l) (hroles : x.active ≠ y.active) (hx : 1 ≤ x.segmentMru)
    (hy : 1 ≤ y.segmentMru) (a : Act) : Onward x y l (l.step (.near, a)) := by
  have keeps : ∀ {l'}, Good x y l' →
      (l.near.session.state = .established → l'.near.session.state = .established) →
      Onward x y l l' := fun hgood hstate => .inl ⟨hgood, hstate⟩
  cases a with
  | arrive n => exact keeps (h.arrive n) id
  | turn =>
      show Onward x y l (l.nearTurn (l.near.session.turn.getD l.near.session))
      rw [Session.turn, if_neg (by rw [h.sound_near.closed]; simp)]
      cases hparse : l.near.session.parser.parse with
      | none => exact keeps h id
      | some r =>
          obtain ⟨m, p⟩ := r
          rcases h.sound_near.state with hstate | hstate | hstate
          · exact h.turn_contact hroles hstate hparse
          · exact h.turn_init hroles hstate hparse
          · exact h.turn_established hx hstate hparse
  | send bundle =>
      refine keeps (h.send hy bundle) fun hest => ?_
      have hgood := (h.send hy bundle).sound_near.state
      show (l.near.session.send bundle).state = .established
      rcases Session.send_cases h.sound_near.closed bundle with
        ⟨o, -, -, -, hsend, -⟩ | ⟨p, -, -, -, ⟨-, hsend⟩ | ⟨-, hsend⟩⟩ <;> rw [hsend] <;> exact hest
  | quiet =>
      refine keeps h.quiet fun hest => ?_
      show l.near.session.onQuiet.state = .established
      unfold Session.onQuiet
      split
      · rw [Session.write_open h.sound_near.closed]
        exact hest
      · exact hest
  | ackTimeout id =>
      refine keeps (h.ackTimeout id) fun hest => ?_
      show (l.near.session.onAckTimeout id).state = .established
      unfold Session.onAckTimeout
      split <;> exact hest
  | secure peerNodeIds =>
      refine keeps (h.secure peerNodeIds) fun hest => ?_
      show (l.near.session.onSecure peerNodeIds).state = .established
      unfold Session.onSecure
      split
      · dsimp only
        split
        · rw [Session.sendInit, Session.write_open (by exact h.sound_near.closed)]
          exact hest
        · exact hest
      · exact hest

end Acts

/-- Both sessions are open, or one of them has been torn down. -/
def Standing (x y : Options) (l : Link) : Prop :=
  Good x y l ∨ l.near.session.Dead ∨ l.far.session.Dead

section Runs

variable {x y : Options} (hroles : x.active ≠ y.active) (hx : 1 ≤ x.segmentMru) (hy : 1 ≤ y.segmentMru)

include hroles hx hy

/-- **One step of a connection**: two sessions that are both established stay so. -/
theorem Good.step {l : Link} (h : Good x y l) (a : Side × Act) :
    Standing x y (l.step a) ∧ (l.Established → Good x y (l.step a) ∧ (l.step a).Established) := by
  obtain ⟨side, a⟩ := a
  cases side with
  | near =>
      rcases h.near_step hroles hx hy a with ⟨hgood, hstate⟩ | ⟨hdead, hne⟩
      · exact ⟨.inl hgood, fun hest => ⟨hgood, hstate hest.1, hest.2⟩⟩
      · exact ⟨.inr (.inl hdead), fun hest => absurd hest.1 hne⟩
  | far =>
      rcases h.swap.near_step hroles.symm hy hx a with ⟨hgood, hstate⟩ | ⟨hdead, hne⟩
      · exact ⟨.inl hgood.swap, fun hest => ⟨hgood.swap, hest.1, hstate hest.2⟩⟩
      · exact ⟨.inr (.inr hdead), fun hest => absurd hest.2 hne⟩

theorem Standing.run {l : Link} (h : Standing x y l) (acts : List (Side × Act)) :
    Standing x y (l.run acts) := by
  induction acts generalizing l with
  | nil => exact h
  | cons a acts ih =>
      refine ih ?_
      rcases h with hgood | hdead | hdead
      · exact (hgood.step hroles hx hy a).1
      · obtain ⟨side, a⟩ := a
        cases side with
        | near => exact .inr (.inl (dead_act hdead _ a))
        | far => exact .inr (.inl hdead)
      · obtain ⟨side, a⟩ := a
        cases side with
        | near => exact .inr (.inr hdead)
        | far => exact .inr (.inr (dead_act hdead _ a))

theorem Good.run {l : Link} (h : Good x y l) (hest : l.Established) (acts : List (Side × Act)) :
    Good x y (l.run acts) ∧ (l.run acts).Established := by
  induction acts generalizing l with
  | nil => exact ⟨h, hest⟩
  | cons a acts ih =>
      obtain ⟨hgood, hstays⟩ := (h.step hroles hx hy a).2 hest
      exact ih hgood hstays

end Runs

/-- A session that has just been made. -/
theorem sound_new (x y : Options) : Sound { session := .new x } y := by
  have hnew : ∃ os, Session.new x =
      { opts := x, parser := { maxSegment := x.segmentMru }, log := os } := by
    unfold Session.new
    dsimp only
    split <;> exact ⟨_, rfl⟩
  obtain ⟨os, hnew⟩ := hnew
  constructor <;> simp [hnew, JsMap.get?_empty]

theorem flow_new (x y : Options) : Flow { session := .new x } { session := .new y } [] := by
  have hstate : ∀ o, (Session.new o).state = .contact ∧ (Session.new o).opts = o ∧
      (Session.new o).parser.buf = [] ∧ (Session.new o).bundles = [] ∧
      (Session.new o).written =
        (if o.active then [contactMessage o] else []).flatMap Message.bytes := by
    intro o
    unfold Session.new
    dsimp only
    split
    · exact ⟨rfl, rfl, rfl, rfl, by simp [Session.written, Session.out, Output.written,
        bytes_contactMessage]⟩
    · exact ⟨rfl, rfl, rfl, rfl, rfl⟩
  obtain ⟨hcontact, hopts, -, -, hwritten⟩ := hstate x
  obtain ⟨hcontact', -, hbuf, hbundles, -⟩ := hstate y
  refine { arrived := Nat.zero_le _, stream := ?_, seen_le := ?_, body_nil := fun _ => rfl,
           carried := by simp, receiving := ?_, resolved := ?_ }
  · show (Session.new y).parser.buf ++ (Session.new x).written.drop 0 = _
    rw [hbuf, hcontact', hello_contact hcontact, hopts, List.drop_zero, hwritten]
    simp [seen]
  · rw [hcontact']
    exact Nat.zero_le _
  · exact .between (Nat.zero_le _) hbundles
  · intro id hid
    unfold Session.new at hid
    dsimp only at hid
    split at hid <;> simp [Session.out] at hid

theorem good_new (x y : Options) : Good x y (Link.new x y) where
  near := by
    unfold Link.new Session.new
    dsimp only
    split <;> rfl
  far := by
    unfold Link.new Session.new
    dsimp only
    split <;> rfl
  sound_near := sound_new x y
  sound_far := sound_new y x
  out := ⟨[], flow_new x y⟩
  back := ⟨[], flow_new y x⟩

/-! ## What a transfer comes to -/

/-- Nothing is in flight from `x` to `y`, and the loop of `y` waits for more. -/
def Drained (x y : End) : Prop :=
  x.session.written.drop y.arrived = [] ∧ y.session.parser.parse = none

instance (x y : End) : Decidable (Drained x y) := inferInstanceAs (Decidable (_ ∧ _))

/-- What `y` emits is what `x` sent; a send resolves after its bundle has been emitted and its whole
length acknowledged. -/
structure Exact (x y : End) : Prop where
  emitted : y.session.bundles <+: x.sent
  all : Drained x y → y.session.bundles = x.sent
  resolved : ∀ id, .resolve id ∈ x.session.log → Acknowledged x y id

theorem Good.exact {x y : Options} {l : Link} (h : Good x y l) (hest : l.Established) :
    Exact l.near l.far := by
  obtain ⟨body, hout⟩ := h.out
  refine ⟨hout.receiving.bundles_front, ?_, hout.resolved⟩
  rintro ⟨hflight, hwaits⟩
  have hstream := hout.stream
  rw [hflight, List.append_nil, hest.2, hello_established hest.1] at hstream
  have hs := h.sound_far
  rw [Parser.parse, hs.header.mpr (by rw [hest.2]; simp), hs.limit, if_pos rfl,
    Option.map_eq_none_iff] at hwaits
  have hnil : body = [] :=
    (framed_message _).settled (fun m hm => Carried.fits (hout.carried m hm)) hstream hwaits
  have hreceiving := hout.receiving
  rw [hnil] at hreceiving
  exact hreceiving.bundles_all

/-- **TCPCLv4 transfers are exact.** Two sessions, one that connects and one that listens, with segment
MRUs of at least one; any run, cut into chunks in any way. Once both sessions are established they stay
so, each emits the bundles sent to it once and in order, all of them when the bytes have arrived and
been handled, and a send resolves only after the receiver has written the END acknowledgement for that
transfer with its full length. -/
theorem transfers_exact {x y : Options} (hroles : x.active ≠ y.active) (hx : 1 ≤ x.segmentMru)
    (hy : 1 ≤ y.segmentMru) (acts more : List (Side × Act))
    (hest : ((Link.new x y).run acts).Established) :
    ((Link.new x y).run (acts ++ more)).Established ∧
      Exact ((Link.new x y).run (acts ++ more)).near ((Link.new x y).run (acts ++ more)).far ∧
      Exact ((Link.new x y).run (acts ++ more)).far ((Link.new x y).run (acts ++ more)).near := by
  have hgood : Good x y ((Link.new x y).run acts) := by
    rcases Standing.run hroles hx hy (.inl (good_new x y)) acts with hgood | ⟨-, hdead⟩ | ⟨-, hdead⟩
    · exact hgood
    · rw [hest.1] at hdead
      cases hdead
    · rw [hest.2] at hdead
      cases hdead
  obtain ⟨hlater, hstays⟩ := hgood.run hroles hx hy hest more
  rw [Link.run_append]
  exact ⟨hstays, hlater.exact hstays, hlater.swap.exact ⟨hstays.2, hstays.1⟩⟩

/-- A node with small limits, on the side that connects or on the side that listens. -/
def sampleOptions (active : Bool) : Options where
  active := active
  nodeId := js "ipn:1.0"
  segmentMru := 2
  transferMru := 16
  keepalive_lt := default_keepalive_lt
  segmentMru_lt := by decide
  transferMru_lt := by decide
  nodeId_lt := sampleNodeId_lt

/-- A handshake, the SESS_INIT of the listening side cut in two. -/
def sampleHandshake : List (Side × Act) :=
  [(.far, .arrive 6), (.far, .turn), (.near, .arrive 6), (.near, .turn),
   (.far, .arrive 64), (.far, .turn), (.near, .arrive 20), (.near, .turn),
   (.near, .arrive 64), (.near, .turn)]

/-- Three bytes and an empty bundle, sent in segments of two bytes and arriving in odd pieces. -/
def sampleTransfers : List (Side × Act) :=
  [(.near, .send [1, 2, 3]), (.near, .quiet), (.near, .send []),
   (.far, .arrive 17), (.far, .turn), (.far, .arrive 20), (.far, .turn), (.far, .turn),
   (.far, .arrive 64), (.far, .turn), (.far, .turn), (.far, .turn)]

theorem transfers_exact_sample :
    ((Link.new (sampleOptions true) (sampleOptions false)).run
      (sampleHandshake ++ sampleTransfers)).far.session.bundles = [[1, 2, 3], []] := by
  have hexact := transfers_exact (x := sampleOptions true) (y := sampleOptions false) (by decide)
    (by decide) (by decide) sampleHandshake sampleTransfers (by decide +kernel)
  exact (hexact.2.1.all (by decide +kernel)).trans (by decide +kernel)

end Tcpcl4

end DtnCustody
