/-
# DtnCustody.Gateway.Tcpcl4Promise — how the promise of a TCPCLv4 transfer is settled.

A transfer that has begun has its promise in `pending`, until an output settles it, once (`Spends`). It
is resolved by one thing only: the turn of the receive loop in which the final acknowledgement of all
its bytes is the next message (`spends_handle`). `send` opens a promise only together with the segments
that it writes (`send_starts`).
-/
import DtnCustody.Gateway.Tcpcl4Memory

namespace DtnCustody

open Base

namespace Tcpcl4

/-- How an output settles the promise of a transfer. -/
def Output.settles (id : Nat) : Output → Option Bool
  | .resolve i => if i = id then some true else none
  | .rejected i _ => if i = id then some false else none
  | _ => none

def settlement (id : Nat) (outs : List Output) : Option Bool := outs.findSome? (Output.settles id)

theorem settlement_append (id : Nat) (outs outs' : List Output) :
    settlement id (outs ++ outs') = (settlement id outs).or (settlement id outs') :=
  List.findSome?_append

/-- The final acknowledgement of a transfer of `n` bytes. -/
def Message.finalAck (id n : Nat) : Message → Bool
  | .ack flags transferId acked => transferId = id && acked = n && hasBit flags SEG.END
  | _ => false

namespace Session

/-- The next message is the final acknowledgement of `n` bytes, and the promise of the transfer is
open. -/
def finalAck (s : Session) (id n : Nat) : Bool :=
  !s.closed && s.pending.has id && s.parser.parse.any fun r => r.1.finalAck id n

/-- From `s` to `s'`, the promise is settled as `r` says, or not at all. -/
structure Spends (id : Nat) (s s' : Session) (r : Option Bool) : Prop where
  log : ∃ outs, s'.log = s.log ++ outs ∧ settlement id outs = r
  kept : r = none → s'.pending.get? id = s.pending.get? id
  gone : r ≠ none → s'.pending.get? id = none ∧ s.pending.get? id ≠ none

section Spends

variable {id : Nat}

theorem Spends.refl (s : Session) : Spends id s s none :=
  ⟨⟨[], by simp, rfl⟩, fun _ => rfl, fun h => absurd rfl h⟩

theorem Spends.trans {s s' s'' : Session} {r r' : Option Bool} (h : Spends id s s' r)
    (h' : Spends id s' s'' r') : Spends id s s'' (r.or r') := by
  obtain ⟨outs, hlog, hr⟩ := h.log
  obtain ⟨outs', hlog', hr'⟩ := h'.log
  refine ⟨⟨outs ++ outs', ?_, ?_⟩, ?_, ?_⟩
  · rw [hlog', hlog, List.append_assoc]
  · rw [settlement_append, hr, hr']
  · intro hnone
    obtain ⟨rfl, rfl⟩ := Option.or_eq_none_iff.mp hnone
    exact (h'.kept rfl).trans (h.kept rfl)
  · intro hsome
    cases r with
    | none =>
        -- Settled on the second way.
        have hgone := h'.gone hsome
        rw [h.kept rfl] at hgone
        exact hgone
    | some b =>
        obtain ⟨hnow, hbefore⟩ := h.gone (by simp)
        refine ⟨?_, hbefore⟩
        cases r' with
        | none => exact (h'.kept rfl).trans hnow
        | some b' => exact (h'.gone (by simp)).1

theorem Spends.of_log {s s' : Session} (outs : List Output) (hlog : s'.log = s.log ++ outs)
    (hnone : settlement id outs = none) (hpending : s'.pending = s.pending) : Spends id s s' none :=
  ⟨⟨outs, hlog, hnone⟩, fun _ => by rw [hpending], fun h => absurd rfl h⟩

theorem Spends.of_fields {s s' : Session} (hlog : s'.log = s.log) (hpending : s'.pending = s.pending) :
    Spends id s s' none :=
  .of_log [] (by rw [hlog, List.append_nil]) rfl hpending

theorem spends_out (s : Session) {o : Output} (h : o.settles id = none) :
    Spends id s (s.out o) none :=
  .of_log [o] rfl (by simp [settlement, h]) rfl

theorem spends_write (s : Session) (bytes : Bytes) : Spends id s (s.write bytes) none := by
  unfold write
  split
  · exact .refl s
  · exact spends_out s rfl

/-- A transfer that is refused or timed out is rejected if it is still open. -/
theorem spends_rejected (s : Session) (transferId : Nat) (why : JsString) :
    ∃ r, r ≠ some true ∧ Spends id s (if s.pending.has transferId then
      { s with pending := s.pending.delete transferId }.out (.rejected transferId why) else s) r := by
  split
  · rename_i hopen
    obtain ⟨total, htotal⟩ := Option.isSome_iff_exists.mp hopen
    by_cases hid : transferId = id
    · subst hid
      refine ⟨some false, by simp, ⟨[_], rfl, ?_⟩, by simp, fun _ => ⟨?_, ?_⟩⟩
      · simp [settlement, Output.settles]
      · exact JsMap.get?_delete_self _ _
      · rw [htotal]
        simp
    · refine ⟨none, by simp, ⟨[_], rfl, ?_⟩, fun _ => ?_, by simp⟩
      · simp [settlement, Output.settles, hid]
      · exact JsMap.get?_delete_ne _ fun h => hid h.symm
  · exact ⟨none, by simp, .refl s⟩

/-- What is torn down rejects every open promise. -/
theorem spends_teardown (s : Session) (err : Option JsString) :
    ∃ r, r ≠ some true ∧ Spends id s (s.teardown err) r := by
  unfold teardown
  split
  · exact ⟨none, by simp, .refl s⟩
  · have hrejected : ∀ (reason : JsString) (keys : List Nat) (outs : List Output),
        settlement id outs = none →
          settlement id (keys.map (fun i => .rejected i reason) ++ outs)
            = if id ∈ keys then some false else none := by
      intro reason keys outs houts
      induction keys with
      | nil => exact houts
      | cons i keys ih =>
          show settlement id ([.rejected i reason] ++ (keys.map _ ++ outs)) = _
          rw [settlement_append, ih]
          by_cases hi : i = id
          · simp [settlement, Output.settles, hi]
          · have hne : ¬ id = i := fun h => hi h.symm
            simp [settlement, Output.settles, hi, hne]
    refine ⟨if id ∈ s.pending.keys then some false else none, by split <;> simp,
      ⟨_, List.append_assoc _ _ _, hrejected _ _ _ rfl⟩, ?_, ?_⟩
    · intro hnone
      rw [ite_eq_right_iff] at hnone
      have hkeys : id ∉ s.pending.keys := fun h => by simpa using hnone h
      show (JsMap.empty : JsMap Nat Nat).get? id = _
      rw [JsMap.get?_empty, JsMap.get?_eq_none_iff.mpr hkeys]
    · intro hsome
      have hkeys : id ∈ s.pending.keys := by
        by_contra hnot
        rw [if_neg hnot] at hsome
        exact hsome rfl
      exact ⟨rfl, fun hnone => JsMap.get?_eq_none_iff.mp hnone hkeys⟩

/-- A message settles a promise with an acknowledgement, or without resolving it. -/
theorem spends_onMessage (s : Session) {m : Message} (h : ∀ flags i acked, m ≠ .ack flags i acked) :
    ∃ r, r ≠ some true ∧ Spends id s (s.onMessage m) r := by
  have still : ∀ {s' : Session}, Spends id s s' none → ∃ r, r ≠ some true ∧ Spends id s s' r :=
    fun hs' => ⟨none, by simp, hs'⟩
  have ends : ∀ {s' : Session} (err : Option JsString), Spends id s s' none →
      ∃ r, r ≠ some true ∧ Spends id s (s'.teardown err) r := by
    intro s' err hs'
    obtain ⟨r, hr, hteardown⟩ := @spends_teardown id s' err
    exact ⟨r, hr, hs'.trans hteardown⟩
  cases m with
  | ack flags transferId acked => exact absurd rfl (h flags transferId acked)
  | contact version flags =>
      have hanswer : Spends id s s.answer none := by
        unfold answer
        split
        · exact .refl s
        · exact spends_write _ _
      have hinit : Spends id s { s.answer with state := .init } none :=
        hanswer.trans (.of_fields rfl rfl)
      show ∃ r, r ≠ some true ∧ Spends id s (s.onContact version flags) r
      unfold onContact
      split
      · exact ends _ (spends_write _ _)
      · split
        · exact ends _ (hanswer.trans (spends_write _ _))
        · dsimp only
          split
          · exact still (hinit.trans (.of_fields rfl rfl))
          · split
            · exact still (hinit.trans (spends_write _ _))
            · exact still hinit
  | sess_init interval segmentMru transferMru nodeId =>
      show ∃ r, r ≠ some true ∧ Spends id s (s.onSessInit interval segmentMru transferMru nodeId) r
      unfold onSessInit reject startKeepalive
      split
      · exact still (spends_write _ _)
      · split
        · exact ends _ (spends_write _ _)
        · have hinit : Spends id s (if s.opts.active then s else s.sendInit) none := by
            split
            · exact .refl s
            · exact spends_write _ _
          dsimp only
          generalize (if s.opts.active then s else s.sendInit) = t at hinit
          split
          · exact still ((hinit.trans (.of_fields rfl rfl)).trans
              (.of_log [.ready, .established] (List.append_assoc _ _ _) rfl rfl))
          · exact still ((hinit.trans (.of_fields rfl rfl)).trans
              (.of_log [.ready, .established] (List.append_assoc _ _ _) rfl rfl))
  | segment flags transferId data =>
      have hrx : ∀ (s : Session) rx rxBytes,
          Spends id s { s with rx := rx, rxBytes := rxBytes } none :=
        fun _ _ _ => .of_fields rfl rfl
      have hpart : ∀ (s : Session) parts, Spends id s (s.onPart flags transferId data parts) none := by
        intro s parts
        unfold onPart
        dsimp only
        split
        · exact (spends_write _ _).trans (hrx _ _ _)
        · have hacked := (hrx s (s.rx.set transferId (parts ++ [data])) (s.rxBytes.set transferId
            ((s.rxBytes.get? transferId).getD 0 + data.length))).trans (spends_write _
              (encodeAck flags transferId ((s.rxBytes.get? transferId).getD 0 + data.length)))
          split
          · exact (hacked.trans (hrx _ _ _)).trans (spends_out _ rfl)
          · exact hacked
      show ∃ r, r ≠ some true ∧ Spends id s (s.onSegment flags transferId data) r
      unfold onSegment reject
      split
      · exact still (spends_write _ _)
      · have hstart : Spends id s (if hasBit flags SEG.START then s.hold transferId [] 0 else s)
            none := by
          split
          · exact hrx s _ _
          · exact .refl s
        dsimp only
        generalize (if hasBit flags SEG.START then s.hold transferId [] 0 else s) = t at hstart
        split
        · exact still (hstart.trans (spends_write _ _))
        · exact still (hstart.trans (hpart _ _))
  | refuse reason transferId => exact spends_rejected s transferId _
  | sess_term flags reason =>
      have hreply : Spends id s (if hasBit flags REPLY then s else s.write (encodeTerm REPLY reason))
          none := by
        split
        · exact .refl s
        · exact spends_write _ _
      show ∃ r, r ≠ some true ∧ Spends id s (s.onTerm flags reason) r
      unfold onTerm
      dsimp only
      generalize (if hasBit flags REPLY then s else s.write (encodeTerm REPLY reason)) = t at hreply
      exact still ((hreply.trans (.of_fields rfl rfl)).trans
        (.of_log [.term reason, .ended] (List.append_assoc _ _ _) rfl rfl))
  | bad_magic => exact ends _ (.refl s)
  | too_big what len => exact ends _ (spends_write _ _)
  | unknown type => exact still (spends_write _ _)
  | keepalive => exact still (.refl s)
  | reject reason header => exact still (.refl s)

/-- **An acknowledgement resolves the promise of its transfer, if it is the final one of all its
bytes**, and does nothing otherwise. -/
theorem spends_onAck (s : Session) (flags : UInt8) (i acked : Nat) {total : Nat}
    (h : s.pending.get? id = some total) :
    ∃ r, Spends id s (s.onAck flags i acked) r ∧
      (r = some true ↔ i = id ∧ acked = total ∧ hasBit flags SEG.END = true) := by
  unfold onAck
  split
  · rename_i hdone
    rw [Bool.and_eq_true, decide_eq_true_eq] at hdone
    by_cases hid : i = id
    · subst hid
      have htotal : acked = total := Option.some.inj (hdone.1.symm.trans h)
      refine ⟨some true, ⟨⟨[.resolve i], rfl, ?_⟩, by simp, fun _ => ⟨?_, ?_⟩⟩, ?_⟩
      · simp [settlement, Output.settles]
      · exact JsMap.get?_delete_self _ _
      · rw [h]
        simp
      · exact ⟨fun _ => ⟨rfl, htotal, hdone.2⟩, fun _ => rfl⟩
    · refine ⟨none, ⟨⟨[.resolve i], rfl, ?_⟩, fun _ => ?_, by simp⟩, ?_⟩
      · simp [settlement, Output.settles, hid]
      · exact JsMap.get?_delete_ne _ fun h => hid h.symm
      · simp [hid]
  · rename_i hnot
    refine ⟨none, .refl s, ?_⟩
    constructor
    · rintro ⟨⟩
    · rintro ⟨rfl, rfl, hend⟩
      rw [h, hend] at hnot
      simp at hnot

/-- **A turn resolves an open promise exactly with the final acknowledgement of all its bytes.** -/
theorem spends_turn {s t : Session} (hturn : s.turn = some t) {total : Nat}
    (h : s.pending.get? id = some total) :
    ∃ r, Spends id s t r ∧ (r = some true ↔ s.finalAck id total = true) := by
  unfold turn at hturn
  split at hturn
  · cases hturn
  rename_i hopen
  obtain ⟨⟨m, p⟩, hparse, rfl⟩ := Option.map_eq_some_iff.mp hturn
  have hread : Spends id s { s with parser := p } none := .of_fields rfl rfl
  have hclosed : s.closed = false := by simpa using hopen
  have hhas : s.pending.has id = true := by rw [JsMap.has, h]; rfl
  have hvalue : s.finalAck id total = m.finalAck id total := by
    unfold finalAck
    rw [hparse, hclosed, hhas]
    rfl
  rw [hvalue]
  by_cases hack : ∃ flags i acked, m = .ack flags i acked
  · obtain ⟨flags, i, acked, rfl⟩ := hack
    obtain ⟨r, hspends, hiff⟩ := @spends_onAck id { s with parser := p } flags i acked total h
    refine ⟨r, hread.trans hspends, ?_⟩
    rw [hiff]
    simp [Message.finalAck, and_assoc]
  · obtain ⟨r, hr, hspends⟩ := @spends_onMessage id { s with parser := p } m
      fun flags i acked heq => hack ⟨flags, i, acked, heq⟩
    refine ⟨r, hread.trans hspends, ⟨fun hsome => absurd hsome hr, fun hfinal => ?_⟩⟩
    cases m with
    | ack flags i acked => exact absurd ⟨flags, i, acked, rfl⟩ hack
    | _ => cases hfinal

/-- What is settled stays so. -/
theorem spends_turn_of_none {s t : Session} (hturn : s.turn = some t)
    (h : s.pending.get? id = none) : Spends id s t none := by
  unfold turn at hturn
  split at hturn
  · cases hturn
  obtain ⟨⟨m, p⟩, -, rfl⟩ := Option.map_eq_some_iff.mp hturn
  have hread : Spends id s { s with parser := p } none := .of_fields rfl rfl
  have hnone : ∀ {s' r}, Spends id { s with parser := p } s' r → Spends id s s' none := by
    intro s' r hs'
    cases r with
    | none => exact hread.trans hs'
    | some b => exact absurd h (hs'.gone (by simp)).2
  by_cases hack : ∃ flags i acked, m = .ack flags i acked
  · obtain ⟨flags, i, acked, rfl⟩ := hack
    show Spends id s (onAck { s with parser := p } flags i acked) none
    rcases onAck_cases { s with parser := p } flags i acked with hsame | ⟨hpending, -, hs⟩
    · rw [hsame]
      exact hread
    · have hid : i ≠ id := by
        rintro rfl
        have hthis : s.pending.get? i = some acked := hpending
        rw [h] at hthis
        cases hthis
      rw [hs]
      refine ⟨⟨[.resolve i], rfl, ?_⟩, fun _ => ?_, by simp⟩
      · simp [settlement, Output.settles, hid]
      · exact JsMap.get?_delete_ne _ fun h => hid h.symm
  · obtain ⟨r, -, hspends⟩ := @spends_onMessage id { s with parser := p } m
      fun flags i acked heq => hack ⟨flags, i, acked, heq⟩
    exact hnone hspends

theorem finalAck_of_none {s : Session} (h : s.pending.get? id = none) (n : Nat) :
    s.finalAck id n = false := by
  rw [finalAck, JsMap.has, h]
  simp

theorem finalAck_of_settled {s : Session} (h : s.turn = none) (n : Nat) : s.finalAck id n = false := by
  unfold turn at h
  unfold finalAck
  split at h
  · rename_i hclosed
    rw [hclosed]
    rfl
  · rw [Option.map_eq_none_iff.mp h]
    exact Bool.and_false _

/-- A loop over a chunk that begins with the promise settled. -/
theorem spends_drain_of_none {s : Session} (h : s.pending.get? id = none) (k : Nat) :
    Spends id s (drain turn k s) none := by
  refine drain_keeps turn (P := fun t => Spends id s t none) ?_ k (.refl s)
  intro t t' ht hturn
  exact ht.trans (spends_turn_of_none hturn ((ht.kept rfl).trans h))

/-- **A loop over a chunk resolves an open promise exactly when one of its turns reads the final
acknowledgement.** -/
theorem spends_drain {s : Session} {total : Nat} (h : s.pending.get? id = some total) (k : Nat) :
    ∃ r, Spends id s (drain turn k s) r ∧
      (r = some true ↔ ∃ j < k, (drain turn j s).finalAck id total = true) := by
  induction k generalizing s with
  | zero => exact ⟨none, .refl s, by simp⟩
  | succ k ih =>
      cases hturn : s.turn with
      | none =>
          refine ⟨none, ?_, ?_⟩
          · rw [drain_of_none turn hturn]
            exact .refl s
          · refine ⟨fun hnone => (by cases hnone), ?_⟩
            rintro ⟨j, -, hfinal⟩
            rw [drain_of_none turn hturn, finalAck_of_settled hturn] at hfinal
            cases hfinal
      | some t =>
          have hnext : ∀ j, drain turn (j + 1) s = drain turn j t := fun j => by
            simp only [drain, hturn]
          obtain ⟨r, hspends, hiff⟩ := spends_turn hturn h
          rw [hnext]
          -- What the first turn leaves open, the others settle.
          cases r with
          | some b =>
              have hsettled := (hspends.gone (by simp)).1
              refine ⟨some b, ?_, ?_⟩
              · have hrest := hspends.trans (spends_drain_of_none hsettled k)
                exact hrest
              · rw [hiff]
                constructor
                · exact fun hfinal => ⟨0, Nat.succ_pos k, hfinal⟩
                · rintro ⟨j, -, hfinal⟩
                  cases j with
                  | zero => exact hfinal
                  | succ j =>
                      have hkept := (spends_drain_of_none hsettled j).kept rfl
                      rw [hnext, finalAck_of_none (hkept.trans hsettled)] at hfinal
                      cases hfinal
          | none =>
              obtain ⟨r', hrest, hiff'⟩ := ih ((hspends.kept rfl).trans h)
              refine ⟨r', ?_, ?_⟩
              · have hboth := hspends.trans hrest
                rwa [Option.none_or] at hboth
              · rw [hiff']
                constructor
                · rintro ⟨j, hj, hfinal⟩
                  exact ⟨j + 1, by omega, by rw [hnext]; exact hfinal⟩
                · rintro ⟨j, hj, hfinal⟩
                  cases j with
                  | zero =>
                      have hnot := hiff.mpr hfinal
                      cases hnot
                  | succ j =>
                      rw [hnext] at hfinal
                      exact ⟨j, by omega, hfinal⟩

/-- Nothing but a chunk resolves a promise. -/
theorem spends_aside (s : Session) {e : Event} (hdata : ∀ d, e ≠ .data d)
    (hsend : ∀ bundle, e ≠ .send bundle) : ∃ r, r ≠ some true ∧ Spends id s (s.handle e) r := by
  have still : ∀ {s' : Session}, Spends id s s' none → ∃ r, r ≠ some true ∧ Spends id s s' r :=
    fun hs' => ⟨none, by simp, hs'⟩
  cases e with
  | data d => exact absurd rfl (hdata d)
  | send bundle => exact absurd rfl (hsend bundle)
  | quiet =>
      show ∃ r, r ≠ some true ∧ Spends id s s.onQuiet r
      unfold onQuiet
      split
      · exact still (spends_write s _)
      · exact still (.refl s)
  | silence =>
      show ∃ r, r ≠ some true ∧ Spends id s s.onSilence r
      unfold onSilence
      split
      · have hwrite := @spends_write id s (encodeTerm 0 TERM.IDLE_TIMEOUT)
        obtain ⟨r, hr, hteardown⟩ :=
          @spends_teardown id (s.write (encodeTerm 0 TERM.IDLE_TIMEOUT)) _
        exact ⟨r, hr, hwrite.trans hteardown⟩
      · exact still (.refl s)
  | ackTimeout transferId => exact spends_rejected s transferId _
  | secure peerNodeIds =>
      show ∃ r, r ≠ some true ∧ Spends id s (s.onSecure peerNodeIds) r
      unfold onSecure
      split
      · dsimp only
        have hsecure : Spends id s { s with secure := true, securing := false, peerNodeIds } none :=
          .of_fields rfl rfl
        split
        · exact still (hsecure.trans (spends_write _ _))
        · exact still hsecure
      · exact still (.refl s)
  | close reason => exact still (spends_write s _)
  | lost err => exact spends_teardown s err

/-- **What resolves a promise**: an event resolves it exactly when it is a chunk in which the final
acknowledgement of all the bytes of the transfer is read. -/
theorem spends_handle {s : Session} {total : Nat} (h : s.pending.get? id = some total) {e : Event}
    (hsend : ∀ bundle, e ≠ .send bundle) :
    ∃ r, Spends id s (s.handle e) r ∧
      (r = some true ↔ ∃ t ∈ s.within e, t.finalAck id total = true) := by
  by_cases hdata : ∃ d, e = .data d
  · obtain ⟨d, rfl⟩ := hdata
    show ∃ r, Spends id s (if s.closed then s else s.onData d) r ∧
      (r = some true ↔ ∃ t ∈ s.within (.data d), t.finalAck id total = true)
    unfold within
    split
    · exact ⟨none, .refl s, by simp⟩
    · have hpush : Spends id s (s.push d) none := .of_fields rfl rfl
      obtain ⟨r, hspends, hiff⟩ := @spends_drain id (s.push d) total h
        (s.parser.buf.length + d.length + 2)
      refine ⟨r, ?_, ?_⟩
      · have hboth := hpush.trans hspends
        rwa [Option.none_or] at hboth
      · rw [hiff]
        constructor
        · rintro ⟨j, hj, hfinal⟩
          exact ⟨_, List.mem_map.mpr ⟨j, List.mem_range.mpr (by omega), rfl⟩, hfinal⟩
        · rintro ⟨t, ht, hfinal⟩
          obtain ⟨j, hj, rfl⟩ := List.mem_map.mp ht
          have hj' := List.mem_range.mp hj
          by_cases hlast : j = s.parser.buf.length + d.length + 2
          · -- The loop is over.
            subst hlast
            have hsettled : (drain turn (s.parser.buf.length + d.length + 2) (s.push d)).turn = none :=
              settled_onData s d
            rw [finalAck_of_settled hsettled] at hfinal
            cases hfinal
          · exact ⟨j, by omega, hfinal⟩
  · obtain ⟨r, hr, hspends⟩ := @spends_aside id s e (fun d hd => hdata ⟨d, hd⟩) hsend
    refine ⟨r, hspends, fun hsome => absurd hsome hr, ?_⟩
    rintro ⟨t, ht, -⟩
    cases e with
    | data d => exact absurd ⟨d, rfl⟩ hdata
    | _ => exact (List.not_mem_nil ht).elim

end Spends

/-! ## A session that has been torn down -/

/-- A closed session is in the state `closed`, in which nothing is sent. -/
def Steady (s : Session) : Prop := s.closed = true → s.state = .closed

theorem Steady.of_open {s : Session} (h : s.closed = false) : s.Steady := by
  intro hclosed
  rw [h] at hclosed
  cases hclosed

theorem Steady.of_same {s s' : Session} (h : s.Steady) (hclosed : s'.closed = s.closed)
    (hstate : s'.state = s.state) : s'.Steady := by
  intro hnow
  rw [hstate]
  exact h (hclosed.symm.trans hnow)

theorem Steady.write {s : Session} (h : s.Steady) (bytes : Bytes) : (s.write bytes).Steady := by
  refine h.of_same (closed_write s bytes) ?_
  unfold Session.write
  split <;> rfl

theorem Steady.teardown {s : Session} (h : s.Steady) (err : Option JsString) :
    (s.teardown err).Steady := by
  unfold Session.teardown
  split
  · exact h
  · exact fun _ => rfl

/-- A message leaves an open session open, or tears it down. -/
theorem steady_onMessage {s : Session} (h : s.closed = false) (m : Message) :
    (s.onMessage m).Steady := by
  have hopen : ∀ {s' : Session}, s'.closed = s.closed → s'.Steady := fun hs' =>
    .of_open (hs'.trans h)
  have hends : ∀ {s' : Session} (err : Option JsString), s'.closed = s.closed →
      (s'.teardown err).Steady := fun err hs' => (hopen hs').teardown err
  cases m with
  | contact version flags =>
      have hanswer : s.answer.closed = s.closed := by
        unfold answer
        split
        · rfl
        · exact closed_write _ _
      show (s.onContact version flags).Steady
      unfold onContact
      split
      · exact hends _ (closed_write _ _)
      · split
        · exact hends _ ((closed_write _ _).trans hanswer)
        · dsimp only
          split
          · exact hopen hanswer
          · split
            · exact hopen ((closed_write _ _).trans hanswer)
            · exact hopen hanswer
  | sess_init interval segmentMru transferMru nodeId =>
      show (s.onSessInit interval segmentMru transferMru nodeId).Steady
      unfold onSessInit reject startKeepalive
      split
      · exact hopen (closed_write _ _)
      · split
        · exact hends _ (closed_write _ _)
        · have hinit : (if s.opts.active then s else s.sendInit).closed = s.closed := by
            split
            · rfl
            · exact closed_write _ _
          dsimp only
          generalize (if s.opts.active then s else s.sendInit) = t at hinit
          split <;> exact hopen hinit
  | segment flags transferId data =>
      have hpart : ∀ (s : Session) parts, (s.onPart flags transferId data parts).closed = s.closed := by
        intro s parts
        unfold onPart forget
        dsimp only
        split
        · exact closed_write _ _
        · split
          · exact closed_write (s.hold _ _ _) _
          · exact closed_write (s.hold _ _ _) _
      show (s.onSegment flags transferId data).Steady
      unfold onSegment reject
      split
      · exact hopen (closed_write _ _)
      · have hstart : (if hasBit flags SEG.START then s.hold transferId [] 0 else s).closed
            = s.closed := by
          split <;> rfl
        dsimp only
        generalize (if hasBit flags SEG.START then s.hold transferId [] 0 else s) = t at hstart
        split
        · exact hopen ((closed_write _ _).trans hstart)
        · exact hopen ((hpart _ _).trans hstart)
  | ack flags transferId acked =>
      show (s.onAck flags transferId acked).Steady
      unfold onAck
      split <;> exact hopen rfl
  | refuse reason transferId =>
      show (s.onRefuse reason transferId).Steady
      unfold onRefuse
      split <;> exact hopen rfl
  | sess_term flags reason =>
      show (s.onTerm flags reason).Steady
      unfold onTerm
      dsimp only
      split
      · exact hopen rfl
      · exact hopen (closed_write _ _)
  | bad_magic => exact hends _ rfl
  | too_big what len => exact hends _ (closed_write _ _)
  | unknown type => exact hopen (closed_write _ _)
  | keepalive => exact hopen rfl
  | reject reason header => exact hopen rfl

theorem Steady.turn {s t : Session} (hturn : s.turn = some t) : t.Steady := by
  unfold Session.turn at hturn
  split at hturn
  · cases hturn
  rename_i hopen
  obtain ⟨⟨m, p⟩, -, rfl⟩ := Option.map_eq_some_iff.mp hturn
  exact steady_onMessage (s := { s with parser := p }) (by simpa using hopen) m

theorem Steady.send {s : Session} (h : s.Steady) (bundle : Bytes) : (s.send bundle).Steady := by
  have hwrites : ∀ (f : UInt8 × Bytes → Bytes) (cs : List (UInt8 × Bytes)) {t : Session}, t.Steady →
      (cs.foldl (fun t c => t.write (f c)) t).Steady := by
    intro f cs
    induction cs with
    | nil => exact fun ht => ht
    | cons c cs ih => exact fun ht => ih (ht.write _)
  unfold Session.send
  split
  · split
    · exact h.of_same rfl rfl
    · dsimp only
      split
      · exact h.of_same rfl rfl
      · exact hwrites _ _ (h.of_same rfl rfl)
  · exact h.of_same rfl rfl

theorem Steady.handle {s : Session} (h : s.Steady) (e : Event) : (s.handle e).Steady := by
  cases e with
  | data d =>
      show Steady (if s.closed then s else s.onData d)
      split
      · exact h
      · exact drain_keeps Session.turn (P := Steady) (fun _ _ _ => Steady.turn) _ (s := s.push d) h
  | send bundle => exact h.send bundle
  | quiet =>
      show s.onQuiet.Steady
      unfold onQuiet
      split
      · exact h.write _
      · exact h
  | silence =>
      show s.onSilence.Steady
      unfold onSilence
      split
      · exact (h.write _).teardown _
      · exact h
  | ackTimeout transferId =>
      show (s.onAckTimeout transferId).Steady
      unfold onAckTimeout
      split
      · exact h.of_same rfl rfl
      · exact h
  | secure peerNodeIds =>
      show (s.onSecure peerNodeIds).Steady
      unfold onSecure
      have hsecure : ({ s with secure := true, securing := false, peerNodeIds } : Session).Steady :=
        h.of_same rfl rfl
      split
      · dsimp only
        split
        · exact hsecure.write _
        · exact hsecure
      · exact h
  | close reason => exact h.write _
  | lost err => exact h.teardown err

theorem steady_new (o : Options) : (new o).Steady := by
  unfold new
  dsimp only
  split <;> exact .of_open rfl

theorem Steady.run {s : Session} (h : s.Steady) (es : List Event) : (s.run es).Steady := by
  induction es generalizing s with
  | nil => exact h
  | cons e es ih => exact ih (h.handle e)

/-! ## The start of a transfer -/

theorem cut_ne_nil (seg : Nat) (bundle : Bytes) : cut seg bundle ≠ [] := by
  unfold cut cutFrom
  exact List.cons_ne_nil _ _

/-- **`send` refuses, or starts a transfer**: then its promise is open and its segments are written, or
it is rejected at once. -/
theorem send_starts {s : Session} (h : s.Steady) (bundle : Bytes) :
    (∃ err, s.send bundle = s.out (.refused err)) ∨
    ∃ outs, (s.send bundle).log = s.log ++ outs ∧
      ((∃ err, outs = [.rejected s.nextTransferId err]) ∨
        (s.send bundle).pending.get? s.nextTransferId = some bundle.length ∧
          ∃ bytes more, outs = (bytes :: more).map .write) := by
  unfold send
  split
  · rename_i peer hstate _
    have hopen : s.closed = false := by
      rw [← Bool.not_eq_true]
      intro hclosed
      rw [h hclosed] at hstate
      cases hstate
    split
    · exact .inl ⟨_, rfl⟩
    · right
      dsimp only
      split
      · exact ⟨[.rejected s.nextTransferId _], rfl, .inl ⟨_, rfl⟩⟩
      · rw [foldl_write (fun c : UInt8 × Bytes => encodeSegment c.1 s.nextTransferId c.2) _
          (s := s.begin bundle.length) hopen]
        obtain ⟨c, cs, hcut⟩ := List.exists_cons_of_ne_nil (cut_ne_nil (max 1 peer.segmentMru) bundle)
        rw [hcut]
        refine ⟨_, rfl, .inr ⟨JsMap.get?_set_self _ _ _, encodeSegment c.1 s.nextTransferId c.2,
          cs.map fun c => encodeSegment c.1 s.nextTransferId c.2, ?_⟩⟩
        rw [List.map_cons, List.map_cons, List.map_map]
        rfl
  · exact .inl ⟨_, rfl⟩

end Session

end Tcpcl4

end DtnCustody
