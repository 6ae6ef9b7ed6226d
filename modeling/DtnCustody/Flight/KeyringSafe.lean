/-
# DtnCustody.Flight.KeyringSafe — the keyring on board touches no memory but its own.

Every reader stays in its buffer and goes on in it (`After`), whatever the bytes are; the record that is parsed fits its
arrays (`Shaped`). So no call faults, whatever was received: the tables have room, the buffer of a signature is large
enough, and a key that a chain has reached is one that `pub_of` finds (`chainAt_fine`).
-/
import DtnCustody.Flight.Keyring

namespace DtnCustody

open Base

namespace Onboard

variable {H : KeyHost}

/-! ## Readers -/

/-- The reader is in its buffer, and its buffer in memory. -/
structure R.Ok (r : R) : Prop where
  pos : r.i ≤ r.n
  size : r.n ≤ r.p.length

/-- One reader is another one, later. -/
structure After (r r' : R) : Prop where
  p : r'.p = r.p
  n : r'.n = r.n
  later : r.i ≤ r'.i
  pos : r'.i ≤ r'.n

theorem After.ok {r r' : R} (h : After r r') (hr : r.Ok) : r'.Ok where
  pos := h.pos
  size := by
    rw [h.n, h.p]
    exact hr.size

theorem After.trans {r r' r'' : R} (h : After r r') (h' : After r' r'') : After r r'' where
  p := h'.p.trans h.p
  n := h'.n.trans h.n
  later := Nat.le_trans h.later h'.later
  pos := h'.pos

theorem head_fine {r : R} (hr : r.Ok) : Fine (fun x => After r x.2 ∧ r.i < x.2.i) (head r) := by
  have hpos := hr.pos
  have hsize := hr.size
  unfold head
  refine Fine.ite (fun _ => Fine.refused) fun hmore => ?_
  refine Fine.step (load_ok (by omega)) ?_
  refine Fine.ite (fun _ => Fine.given ⟨⟨rfl, rfl, Nat.le_succ _, ?_⟩, Nat.lt_succ_self _⟩) fun _ => ?_
  · show r.i + 1 ≤ r.n
    omega
  · dsimp only
    split
    · exact Fine.refused
    · next len _ =>
      refine Fine.ite (fun _ => Fine.refused) fun hlen => ?_
      refine Fine.step (loads_ok (by omega)) (Fine.given ⟨⟨rfl, rfl, ?_, ?_⟩, ?_⟩)
      · show r.i ≤ r.i + 1 + len
        omega
      · show r.i + 1 + len ≤ r.n
        omega
      · show r.i < r.i + 1 + len
        omega

/-- A string that is read is in the buffer. -/
theorem bytes_fine {want : Nat} {r : R} (hr : r.Ok) :
    Fine (fun x => After r x.2 ∧ x.1.start + x.1.len ≤ r.n) (bytes want r) := by
  unfold bytes
  refine (head_fine hr).bind rfl ?_
  rintro ⟨⟨m, v⟩, r'⟩ ⟨hafter, _⟩
  dsimp only
  have hn := hafter.n
  have hpos := hafter.pos
  have hlater := hafter.later
  dsimp only at hn hpos hlater
  refine Fine.ite (fun _ => Fine.refused) fun hv => Fine.given ⟨⟨hafter.p, hafter.n, ?_, ?_⟩, ?_⟩
  · show r.i ≤ r'.i + v
    omega
  · show r'.i + v ≤ r'.n
    omega
  · show r'.i + v ≤ r.n
    omega

theorem readValue_fine {q : R} (hq : q.Ok) :
    Fine (fun x => After q x.2 ∧ ∀ s, x.1.s = some s → s.start + s.len ≤ q.n) (readValue q) := by
  unfold readValue
  refine (head_fine hq).bind rfl ?_
  rintro ⟨⟨m, num⟩, q'⟩ ⟨hafter, _⟩
  refine Fine.ite (fun _ => ?_) fun _ => Fine.ite (fun _ => Fine.refused) fun _ => Fine.given ⟨hafter, fun s hs => by cases hs⟩
  refine (bytes_fine hq).bind rfl ?_
  rintro ⟨s, q''⟩ ⟨hafter', hspan⟩
  exact Fine.given ⟨hafter', fun s' hs' => by cases hs'; exact hspan⟩

/-! ## Records -/

/-- A record that fits its arrays, with the id of its key, or with none. -/
structure Shaped (H : KeyHost) (f : Record) : Prop where
  sig : f.sig.length = 64
  payload : f.payload.length ≤ maxPayload
  subject : f.subject.length < maxEid
  pub : f.pub.length = 32
  issuer : f.issuer.length = 16
  target : f.target.length = 16
  keyid : f.keyid = keyId H f.pub ∨ f.keyid = List.replicate 16 0

theorem fixedBytes_fine {p : Bytes} {s : Option Span} (len : Nat) (hs : ∀ t, s = some t → t.start + t.len ≤ p.length) :
    ∃ b, fixedBytes p s len = .ok b ∧ ∀ c, b = some c → c.length = len := by
  unfold fixedBytes
  cases s with
  | none => exact ⟨none, rfl, fun c hc => by cases hc⟩
  | some t =>
      dsimp only
      by_cases hlen : t.len = len
      · have hroom := hs t rfl
        rw [if_neg (not_not_intro hlen), hlen, copy_ok (by omega) (Nat.le_refl _)]
        refine ⟨_, rfl, fun c hc => ?_⟩
        cases hc
        exact length_loaded (by omega)
      · rw [if_pos hlen]
        exact ⟨none, rfl, fun c hc => by cases hc⟩

/-- A field that is a byte string of one length, put where it belongs. -/
theorem setBytes_fine {P : Record → Prop} {p : Bytes} {s : Option Span} {len : Nat} {g : Bytes → Record}
    (hs : ∀ t, s = some t → t.start + t.len ≤ p.length) (hg : ∀ b, b.length = len → P (g b)) :
    Fine P (do return (← fixedBytes p s len).map g) := by
  obtain ⟨b, hb, hlen⟩ := fixedBytes_fine len hs
  refine Fine.step hb ?_
  cases b with
  | none => exact Fine.refused
  | some b => exact Fine.given (hg b (hlen b rfl))

theorem setField_fine {p : Bytes} {key : Nat} {v : Value} {f : Record} (hf : Shaped H f)
    (hs : ∀ t, v.s = some t → t.start + t.len ≤ p.length) : Fine (Shaped H) (setField H p key v f) := by
  have hkeep : ∀ {g : Record}, g.sig = f.sig → g.payload = f.payload → g.subject = f.subject → g.pub = f.pub →
      g.issuer = f.issuer → g.target = f.target → g.keyid = f.keyid → Shaped H g := by
    intro g h1 h2 h3 h4 h5 h6 h7
    exact ⟨h1 ▸ hf.sig, h2 ▸ hf.payload, h3 ▸ hf.subject, h4 ▸ hf.pub, h5 ▸ hf.issuer, h6 ▸ hf.target,
      h4 ▸ h7 ▸ hf.keyid⟩
  unfold setField
  split
  · exact Fine.given (hkeep rfl rfl rfl rfl rfl rfl rfl)
  · split
    · exact Fine.refused
    · next s hsome =>
      have hroom := hs s hsome
      refine Fine.ite (fun _ => Fine.refused) fun hlen => ?_
      refine Fine.step (copy_ok hroom (by omega)) (Fine.given ⟨hf.sig, hf.payload, ?_, hf.pub, hf.issuer, hf.target,
        hf.keyid⟩)
      show ((p.drop s.start).take s.len).length < maxEid
      rw [length_loaded hroom]
      omega
  · exact setBytes_fine hs fun b hb => ⟨hf.sig, hf.payload, hf.subject, hb, hf.issuer, hf.target, Or.inl rfl⟩
  · exact Fine.given (hkeep rfl rfl rfl rfl rfl rfl rfl)
  · exact Fine.given (hkeep rfl rfl rfl rfl rfl rfl rfl)
  · exact Fine.given (hkeep rfl rfl rfl rfl rfl rfl rfl)
  · exact Fine.given (hkeep rfl rfl rfl rfl rfl rfl rfl)
  · exact setBytes_fine hs fun b hb => ⟨hf.sig, hf.payload, hf.subject, hf.pub, hb, hf.target, hf.keyid⟩
  · exact setBytes_fine hs fun b hb => ⟨hf.sig, hf.payload, hf.subject, hf.pub, hf.issuer, hb, hf.keyid⟩
  · exact Fine.given (hkeep rfl rfl rfl rfl rfl rfl rfl)
  · exact Fine.given (hkeep rfl rfl rfl rfl rfl rfl rfl)

theorem readEntries_fine {count : Nat} : ∀ {q : R} {f : Record}, q.Ok → Shaped H f →
    Fine (Shaped H) (readEntries H count q f) := by
  induction count with
  | zero => exact fun _ hf => Fine.given hf
  | succ count ih =>
      intro q f hq hf
      refine (head_fine hq).bind rfl ?_
      rintro ⟨⟨m, key⟩, q₁⟩ ⟨hafter, _⟩
      have hq₁ := hafter.ok hq
      refine Fine.ite (fun _ => Fine.refused) fun _ => ?_
      refine (readValue_fine hq₁).bind rfl ?_
      rintro ⟨v, q₂⟩ ⟨hafter', hspan⟩
      refine (setField_fine hf fun t ht => ?_).bind rfl fun g hg => ih (hafter'.ok hq₁) hg
      have hsize := hq₁.size
      have hin := hspan t ht
      show t.start + t.len ≤ q₂.p.length
      rw [hafter'.p]
      omega

theorem readPayload_fine {q : R} {f : Record} (hq : q.Ok) (hf : Shaped H f) : Fine (Shaped H) (readPayload H q f) := by
  refine (head_fine hq).bind rfl ?_
  rintro ⟨⟨m, count⟩, q'⟩ ⟨hafter, _⟩
  exact Fine.ite (fun _ => Fine.refused) fun _ => readEntries_fine (hafter.ok hq) hf

theorem readSign1_fine {r : R} (hr : r.Ok) : Fine (fun x => After r x.2 ∧ r.i < x.2.i ∧
    x.1.1.start + x.1.1.len ≤ r.n ∧ x.1.2.1.start + x.1.2.1.len ≤ r.n ∧ x.1.2.2.start + x.1.2.2.len ≤ r.n)
    (readSign1 r) := by
  refine (head_fine hr).bind rfl ?_
  rintro ⟨⟨m, v⟩, r₁⟩ ⟨h₁, hlt⟩
  refine Fine.ite (fun _ => Fine.refused) fun _ => ?_
  refine (bytes_fine (h₁.ok hr)).bind rfl ?_
  rintro ⟨prot, r₂⟩ ⟨h₂, hprot⟩
  refine (head_fine (h₂.ok (h₁.ok hr))).bind rfl ?_
  rintro ⟨⟨m', v'⟩, r₃⟩ ⟨h₃, _⟩
  refine Fine.ite (fun _ => Fine.refused) fun _ => ?_
  refine (bytes_fine (h₃.ok (h₂.ok (h₁.ok hr)))).bind rfl ?_
  rintro ⟨pl, r₄⟩ ⟨h₄, hpl⟩
  refine (bytes_fine (h₄.ok (h₃.ok (h₂.ok (h₁.ok hr))))).bind rfl ?_
  rintro ⟨sig, r₅⟩ ⟨h₅, hsig⟩
  have hafter := h₁.trans (h₂.trans (h₃.trans (h₄.trans h₅)))
  have hlater := (h₂.trans (h₃.trans (h₄.trans h₅))).later
  have n₁ := h₁.n
  have n₂ := h₂.n
  have n₃ := h₃.n
  have n₄ := h₄.n
  dsimp only at hlt hlater hprot hpl hsig n₁ n₂ n₃ n₄
  refine Fine.given ⟨hafter, ?_, ?_, ?_, ?_⟩ <;> dsimp only <;> omega

/-- **Whatever the bytes are**, a record is parsed within them, and fits its arrays. -/
theorem parseItem_fine {r : R} (hr : r.Ok) : Fine (fun x => After r x.2 ∧ r.i < x.2.i ∧ Shaped H x.1 ∧
    (x.1.kind = 1 ∨ x.1.kind = 2)) (parseItem H r) := by
  have hsize := hr.size
  refine (readSign1_fine hr).bind rfl ?_
  rintro ⟨⟨prot, pl, sig⟩, r'⟩ ⟨hafter, hlt, hprot, hpl, hsig⟩
  have hp := hafter.p
  dsimp only at hp hprot hpl hsig
  refine Fine.ite (fun _ => Fine.refused) fun hlens => ?_
  obtain ⟨hsiglen, hpllen⟩ := not_or.mp hlens
  rw [hp]
  have halg : ∃ b, readAlg r.p prot = .ok b := by
    unfold readAlg
    by_cases hthree : prot.len = 3
    · rw [if_neg (not_not_intro hthree), loads_ok (by omega)]
      exact ⟨_, rfl⟩
    · rw [if_pos hthree]
      exact ⟨_, rfl⟩
  obtain ⟨algOk, halg⟩ := halg
  have h64 : sig.start + 64 ≤ r.p.length := by omega
  have hplmem : pl.start + pl.len ≤ r.p.length := by omega
  refine Fine.step halg (Fine.step (copy_ok h64 (Nat.le_refl _)) (Fine.step (copy_ok hplmem (by omega)) ?_))
  have hempty : ∀ {s payload : Bytes}, s.length = 64 → payload.length ≤ maxPayload →
      Shaped H { algOk, sig := s, payload } := fun hs hpayload =>
    ⟨hs, hpayload, Nat.succ_pos 63, List.length_replicate, List.length_replicate, List.length_replicate, Or.inr rfl⟩
  have hwhole : ((r.p.drop pl.start).take pl.len).length ≤ maxPayload := by
    rw [length_loaded hplmem]
    omega
  refine (readPayload_fine ⟨Nat.zero_le _, ?_⟩ (hempty (length_loaded h64) hwhole)).bind rfl fun f hf => ?_
  · show pl.len ≤ (r.p.drop pl.start).length
    rw [List.length_drop]
    omega
  · dsimp only
    by_cases hkind : f.kind = 1 ∨ f.kind = 2
    · rw [if_pos hkind]
      exact Fine.given ⟨hafter, hlt, hf, hkind⟩
    · rw [if_neg hkind]
      exact Fine.refused

/-! ## The tables -/

/-- **What is in the tables.** Nothing is in them twice. -/
structure Ring.Inv (H : KeyHost) (kr : Ring) : Prop where
  anchorRoom : kr.anchors.length ≤ maxAnchors
  anchors : ∀ a ∈ kr.anchors, a.id = keyId H a.pub ∧ a.eid.length < maxEid
  recordRoom : kr.records.length ≤ maxRecords
  records : ∀ r ∈ kr.records, Shaped H r ∧ (r.kind = 1 ∨ r.kind = 2)
  once : kr.records.Pairwise fun o r => same o r = false

theorem init_inv (skewMs : UInt64) : (init skewMs).Inv H :=
  ⟨Nat.zero_le _, fun _ h => absurd h List.not_mem_nil, Nat.zero_le _, fun _ h => absurd h List.not_mem_nil, .nil⟩

theorem addAnchor_inv {kr kr' : Ring} {pub : Bytes} {eid : Option Bytes} (h : kr.Inv H)
    (hadd : addAnchor H kr pub eid = .ok kr') : kr'.Inv H := by
  unfold addAnchor at hadd
  split at hadd
  · cases hadd
  · next hroom =>
    split at hadd
    · cases hadd
    · next heid =>
      cases hadd
      refine ⟨?_, fun a ha => ?_, h.recordRoom, h.records, h.once⟩
      · rw [List.length_append, List.length_singleton]
        omega
      · rcases List.mem_append.mp ha with ha | ha
        · exact h.anchors a ha
        · rw [List.mem_singleton.mp ha]
          exact ⟨rfl, Nat.lt_of_not_le heid⟩

theorem same_sight (seen : UInt64) (o r : Record) : same { o with seenAt := seen } r = same o r ∧
    same r { o with seenAt := seen } = same r o := ⟨rfl, rfl⟩

/-- A record that is there is not added: only its sighting can change. -/
theorem sight_some {seenAt : UInt64} {r : Record} {os os' : List Record} (h : sight seenAt r os = some os') :
    ∃ front o back seen, os = front ++ o :: back ∧ os' = front ++ { o with seenAt := seen } :: back ∧
      same o r = true ∧ (∀ x ∈ front, same x r = false) ∧ seen = if seenAt < o.seenAt then seenAt else o.seenAt := by
  induction os generalizing os' with
  | nil => cases h
  | cons o os ih =>
      rw [sight] at h
      split at h
      · next hsame =>
        cases h
        exact ⟨[], o, os, _, rfl, rfl, hsame, fun x hx => absurd hx List.not_mem_nil, rfl⟩
      · next hother =>
        obtain ⟨os'', hos, rfl⟩ := Option.map_eq_some_iff.mp h
        obtain ⟨front, o', back, seen, rfl, rfl, hsame, hfront, hseen⟩ := ih hos
        exact ⟨o :: front, o', back, seen, rfl, rfl, hsame,
          List.forall_mem_cons.mpr ⟨eq_false_of_ne_true hother, hfront⟩, hseen⟩

theorem sight_none {seenAt : UInt64} {r : Record} {os : List Record} (h : sight seenAt r os = none) :
    ∀ o ∈ os, same o r = false := by
  induction os with
  | nil => exact fun o ho => absurd ho List.not_mem_nil
  | cons o os ih =>
      rw [sight] at h
      split at h
      · cases h
      · next hother =>
        exact List.forall_mem_cons.mpr ⟨eq_false_of_ne_true hother, ih (Option.map_eq_none_iff.mp h)⟩

/-- A call that does not fault, and leaves the tables in order. -/
def Keeps (H : KeyHost) (x : Checked (Ring × Except CkError Nat)) : Prop := ∃ kr res, x = .ok (kr, res) ∧ kr.Inv H

theorem add_keeps {kr : Ring} {item : Bytes} {n : Nat} (seenAt : UInt64) (h : kr.Inv H) (hn : n ≤ item.length) :
    Keeps H (add H kr item n seenAt) := by
  obtain ⟨parsed, hparse, hfine⟩ := parseItem_fine (H := H) (r := ⟨item, n, 0⟩) ⟨Nat.zero_le _, hn⟩
  unfold add
  rw [hparse, Checked.ok_bind]
  cases parsed with
  | none => exact ⟨kr, _, rfl, h⟩
  | some x =>
      obtain ⟨r, rest⟩ := x
      obtain ⟨_, _, hshaped, hkind⟩ := hfine _ rfl
      dsimp only
      split
      · exact ⟨kr, _, rfl, h⟩
      · split
        · next records hsight =>
          refine ⟨_, _, rfl, ?_⟩
          obtain ⟨front, o, back, seen, hos, rfl, _, _, _⟩ := sight_some hsight
          have hrecords := h.records
          have honce := h.once
          have hroom := h.recordRoom
          rw [hos] at hrecords honce hroom
          refine ⟨h.anchorRoom, h.anchors, ?_, fun x hx => ?_, ?_⟩
          · rw [List.length_append, List.length_cons] at hroom ⊢
            exact hroom
          · rcases List.mem_append.mp hx with hx | hx
            · exact hrecords x (List.mem_append_left _ hx)
            · rcases List.mem_cons.mp hx with rfl | hx
              · obtain ⟨ho, hokind⟩ := hrecords o (List.mem_append_right _ List.mem_cons_self)
                exact ⟨⟨ho.sig, ho.payload, ho.subject, ho.pub, ho.issuer, ho.target, ho.keyid⟩, hokind⟩
              · exact hrecords x (List.mem_append_right _ (List.mem_cons_of_mem _ hx))
          · have hsplit := List.pairwise_append.mp honce
            have hcons := List.pairwise_cons.mp hsplit.2.1
            refine List.pairwise_append.mpr ⟨hsplit.1, List.pairwise_cons.mpr ⟨hcons.1, hcons.2⟩, fun x hx y hy => ?_⟩
            rcases List.mem_cons.mp hy with rfl | hy
            · exact hsplit.2.2 x hx o List.mem_cons_self
            · exact hsplit.2.2 x hx y (List.mem_cons_of_mem _ hy)
        · next hsight =>
          split
          · exact ⟨kr, _, rfl, h⟩
          · next hroom =>
            refine ⟨_, _, rfl, h.anchorRoom, h.anchors, ?_, fun x hx => ?_, ?_⟩
            · rw [List.length_append, List.length_singleton]
              omega
            · rcases List.mem_append.mp hx with hx | hx
              · exact h.records x hx
              · rw [List.mem_singleton.mp hx]
                exact ⟨⟨hshaped.sig, hshaped.payload, hshaped.subject, hshaped.pub, hshaped.issuer, hshaped.target,
                  hshaped.keyid⟩, hkind⟩
            · refine List.pairwise_append.mpr ⟨h.once, List.pairwise_singleton _ _, fun x hx y hy => ?_⟩
              rw [List.mem_singleton.mp hy]
              exact sight_none hsight x hx

theorem ingestItems_keeps {seenAt : UInt64} {count : Nat} : ∀ {r : R} {kr : Ring} {added : Nat}, r.Ok → kr.Inv H →
    Keeps H (ingestItems H seenAt count r kr added) := by
  induction count with
  | zero => exact fun _ h => ⟨_, _, rfl, h⟩
  | succ count ih =>
      intro r kr added hr h
      obtain ⟨parsed, hparse, hfine⟩ := parseItem_fine (H := H) hr
      rw [ingestItems, hparse, Checked.ok_bind]
      cases parsed with
      | none => exact ⟨kr, _, rfl, h⟩
      | some x =>
          obtain ⟨f, rest⟩ := x
          obtain ⟨hafter, hlt, _, _⟩ := hfine _ rfl
          have hp := hafter.p
          have hn := hafter.n
          have hpos := hafter.pos
          have hsize := hr.size
          dsimp only at hp hn hpos hlt ⊢
          have hitem : rest.i - r.i ≤ (r.p.drop r.i).length := by
            rw [List.length_drop]
            omega
          obtain ⟨kr', res, hadd, hinv⟩ := add_keeps seenAt h hitem
          rw [hadd, Checked.ok_bind]
          cases res with
          | error e => exact ⟨kr', _, rfl, hinv⟩
          | ok a => exact ih (hafter.ok hr) hinv

theorem ingestBlock_keeps {kr : Ring} {data : Bytes} {n : Nat} (seenAt : UInt64) (h : kr.Inv H)
    (hn : n ≤ data.length) : Keeps H (ingestBlock H kr data n seenAt) := by
  have hr : R.Ok ⟨data, n, 0⟩ := ⟨Nat.zero_le _, hn⟩
  obtain ⟨x, hx, hfine⟩ := head_fine hr
  unfold ingestBlock
  rw [hx, Checked.ok_bind]
  cases x with
  | none => exact ⟨kr, _, rfl, h⟩
  | some x =>
      obtain ⟨⟨m, count⟩, r⟩ := x
      obtain ⟨hafter, _⟩ := hfine _ rfl
      dsimp only
      split
      · exact ⟨kr, _, rfl, h⟩
      · exact ingestItems_keeps (hafter.ok hr) h

/-! ## Chains -/

/-- The bytes that a record is signed over. -/
def message (r : Record) : Bytes := sigPrefix ++ byteHead r.payload.length ++ r.payload

theorem verify_fine {r : Record} (hr : Shaped H r) (pub : Bytes) :
    verify H r (some pub) = .ok (r.algOk && H.signOpen pub (message r) r.sig) := by
  have hhead : (byteHead r.payload.length).length ≤ 3 := by
    unfold byteHead
    split
    · exact Nat.le_of_ble_eq_true rfl
    · split <;> exact Nat.le_of_ble_eq_true rfl
  have hsig := hr.sig
  have hpayload := hr.payload
  have hsize : ¬ r.sig.length + (sigPrefix ++ byteHead r.payload.length ++ r.payload).length > smSize := by
    rw [List.length_append, List.length_append, show sigPrefix.length = 17 from rfl, show smSize = 352 from rfl]
    unfold maxPayload at hpayload
    omega
  unfold verify
  cases r.algOk with
  | false => rfl
  | true =>
      show (if _ then _ else _) = _
      rw [if_neg hsize, Bool.true_and]
      rfl

/-- **Who vouches for a key**: an anchor for itself, and for any other key somebody who is vouched for and may issue,
by a record that is signed, was made while its issuer was valid, and was here before its issuer was revoked. -/
inductive Vouched (H : KeyHost) (kr : Ring) : Bytes → Chain → Prop
  | anchor {id : Bytes} {i : Nat} (h : anchorOf kr id = some i) : Vouched H kr id (anchorChain id i)
  | record {id pub : Bytes} {r : Record} {u : Chain} (hmem : r ∈ kr.records) (hkey : isKeyOf id r = true)
      (hup : Vouched H kr r.issuer u) (hrole : u.roles &&& roleIssue ≠ 0) (hpub : pubOf kr r.issuer = some pub)
      (halg : r.algOk = true) (hsigned : H.signOpen pub (message r) r.sig = true)
      (hwindow : ∀ h, u.holder = some h → inWindow kr h r.issuedAt = true)
      (hrevoked : ∃ left T, revokedAt H kr left r.issuer = .ok T ∧ (T = none64 ∨ r.seenAt < T)) :
      Vouched H kr id ⟨some r, u.anchor, r.roles, id :: u.chain⟩

/-- What a chain within the limit of depth is like. -/
structure Within (H : KeyHost) (kr : Ring) (left : Nat) (id : Bytes) (c : Chain) : Prop where
  vouched : Vouched H kr id c
  length : c.chain.length ≤ left + 1
  anchor : c.anchor < kr.anchors.length
  pub : ∃ pub, pubOf kr id = some pub

variable {kr : Ring}

theorem anchorOf_lt {id : Bytes} {i : Nat} (h : anchorOf kr id = some i) : i < kr.anchors.length :=
  (List.findIdx?_eq_some_iff_getElem.mp h).1

theorem within_anchor {id : Bytes} {i : Nat} (left : Nat) (h : anchorOf kr id = some i) :
    Within H kr left id (anchorChain id i) where
  vouched := .anchor h
  length := Nat.succ_le_succ (Nat.zero_le _)
  anchor := anchorOf_lt h
  pub := by
    obtain ⟨hi, hid, _⟩ := List.findIdx?_eq_some_iff_getElem.mp h
    unfold pubOf
    split
    · exact ⟨_, rfl⟩
    · next hnone => exact absurd hid (List.find?_eq_none.mp hnone _ (List.getElem_mem hi))

theorem pubOf_of_key {id : Bytes} {r : Record} (hmem : r ∈ kr.records) (hkey : isKeyOf id r = true) :
    ∃ pub, pubOf kr id = some pub := by
  unfold pubOf
  split
  · exact ⟨_, rfl⟩
  · cases hfind : kr.records.find? (isKeyOf id) with
    | none => exact absurd hkey (List.find?_eq_none.mp hfind r hmem)
    | some x => exact ⟨x.pub, rfl⟩

section Step

variable {left : Nat} (hinv : kr.Inv H) (hleft : left + 1 ≤ maxDepth)
  (hup : ∀ id, ∃ res, chainAt H kr left id = .ok res ∧ ∀ c, res = .ok c → Within H kr left id c)
  (hrev : ∀ id, ∃ T, revokedAt H kr left id = .ok T)
include hinv hleft hup hrev

/-- One record: no fault, and a chain only where it is vouched for. -/
theorem judgeRecord_fine {id : Bytes} {r : Record} (hmem : r ∈ kr.records) (hkey : isKeyOf id r = true) :
    ∃ res, judgeRecord H kr (chainAt H kr left) (revokedAt H kr left) id r = .ok res ∧
      ∀ c, res = .ok c → Within H kr (left + 1) id c := by
  obtain ⟨res, hres, hwithin⟩ := hup r.issuer
  unfold judgeRecord
  rw [hres, Checked.ok_bind]
  cases res with
  | error reason => exact ⟨_, rfl, fun c hc => by cases hc⟩
  | ok u =>
      -- an issuer with a chain has a key, so `verify` is not given a null pointer
      obtain ⟨hvouched, hlength, hanchor, pub, hpub⟩ := hwithin u rfl
      dsimp only
      by_cases hrole : u.roles &&& roleIssue = 0
      · rw [if_pos hrole]
        exact ⟨_, rfl, fun c hc => by cases hc⟩
      · rw [if_neg hrole, hpub, verify_fine (hinv.records r hmem).1, Checked.ok_bind]
        by_cases hsigned : (r.algOk && H.signOpen pub (message r) r.sig) = true
        · rw [hsigned]
          by_cases hwindow : (u.holder.any fun h => !inWindow kr h r.issuedAt) = true
          · rw [if_neg (by simp), if_pos hwindow]
            exact ⟨_, rfl, fun c hc => by cases hc⟩
          · obtain ⟨T, hT⟩ := hrev r.issuer
            rw [if_neg (by simp), if_neg hwindow, hT, Checked.ok_bind]
            by_cases hlate : T ≠ none64 ∧ ¬ r.seenAt < T
            · rw [if_pos hlate]
              exact ⟨_, rfl, fun c hc => by cases hc⟩
            · rw [if_neg hlate]
              refine ⟨_, rfl, fun c hc => ?_⟩
              cases hc
              -- the array of the chain is long enough, so nothing is cut off
              have htake : (id :: u.chain).take maxChain = id :: u.chain := by
                refine List.take_of_length_le ?_
                rw [List.length_cons]
                unfold maxChain
                omega
              rw [htake]
              refine ⟨.record hmem hkey hvouched hrole hpub (Bool.and_eq_true_iff.mp hsigned).1
                (Bool.and_eq_true_iff.mp hsigned).2 (fun h hholder => ?_) ⟨left, T, hT, ?_⟩, ?_, hanchor,
                pubOf_of_key hmem hkey⟩
              · by_contra hout
                exact hwindow (by rw [hholder]; simpa using hout)
              · by_cases hnone : T = none64
                · exact Or.inl hnone
                · exact Or.inr (not_not.mp fun h => hlate ⟨hnone, h⟩)
              · rw [List.length_cons]
                omega
        · rw [eq_false_of_ne_true hsigned]
          exact ⟨_, rfl, fun c hc => by cases hc⟩

theorem searchRecords_fine {id : Bytes} {missing : Reason} {rs : List Record} (hrs : ∀ r ∈ rs, r ∈ kr.records) :
    ∀ {last : Option Reason}, ∃ res, searchRecords id missing
      (judgeRecord H kr (chainAt H kr left) (revokedAt H kr left) id) rs last = .ok res ∧
        ∀ c, res = .ok c → Within H kr (left + 1) id c := by
  induction rs with
  | nil => exact fun {last} => ⟨_, rfl, fun c hc => by cases hc⟩
  | cons r rs ih =>
      intro last
      obtain ⟨hr, hrest⟩ := List.forall_mem_cons.mp hrs
      rw [searchRecords]
      by_cases hkey : isKeyOf id r = true
      · obtain ⟨res, hres, hwithin⟩ := judgeRecord_fine hinv hleft hup hrev hr hkey
        rw [hkey, if_neg (by simp), hres, Checked.ok_bind]
        cases res with
        | error reason => exact ih hrest
        | ok c => exact ⟨_, rfl, hwithin⟩
      · rw [if_pos (by simpa using hkey)]
        exact ih hrest

end Step

theorem allowedSigner_fine {up : Bytes → Checked ChainResult} (hup : ∀ id, ∃ res, up id = .ok res)
    (target : ChainResult) (targetPub : Option Bytes) (id issuer : Bytes) :
    ∃ b, allowedSigner kr up target targetPub id issuer = .ok b := by
  unfold allowedSigner
  split
  · exact ⟨_, rfl⟩
  · split
    · exact ⟨_, rfl⟩
    · split
      · exact ⟨_, rfl⟩
      · obtain ⟨res, hres⟩ := hup issuer
        rw [hres, Checked.ok_bind]
        cases res with
        | error reason => exact ⟨_, rfl⟩
        | ok s =>
            dsimp only
            split <;> exact ⟨_, rfl⟩

theorem counts_fine (hinv : kr.Inv H) {up : Bytes → Checked ChainResult} (hup : ∀ id, ∃ res, up id = .ok res)
    (target : ChainResult) (targetPub : Option Bytes) (id : Bytes) {r : Record} (hmem : r ∈ kr.records) :
    ∃ b, counts H kr up target targetPub id r = .ok b := by
  unfold counts
  split
  · exact ⟨_, rfl⟩
  · split
    · exact ⟨_, rfl⟩
    · next pub _ =>
      rw [verify_fine (hinv.records r hmem).1, Checked.ok_bind]
      split
      · exact ⟨_, rfl⟩
      · exact allowedSigner_fine hup target targetPub id r.issuer

theorem countRevocations_fine {judge : Record → Checked Bool} {rs : List Record}
    (h : ∀ r ∈ rs, ∃ b, judge r = .ok b) : ∀ {T : UInt64}, ∃ T', countRevocations judge rs T = .ok T' := by
  induction rs with
  | nil => exact fun {T} => ⟨T, rfl⟩
  | cons r rs ih =>
      intro T
      obtain ⟨⟨b, hb⟩, hrest⟩ := List.forall_mem_cons.mp h
      rw [countRevocations, hb, Checked.ok_bind]
      split <;> exact ih hrest

/-- **No lookup faults**, and a chain is found only for a key that is vouched for. -/
theorem chainAt_fine (hinv : kr.Inv H) : ∀ {left : Nat}, left ≤ maxDepth →
    (∀ id, ∃ res, chainAt H kr left id = .ok res ∧ ∀ c, res = .ok c → Within H kr left id c) ∧
      ∀ id, ∃ T, revokedAt H kr left id = .ok T := by
  intro left
  -- both lookups together: each asks the other, one level further from the key asked about
  induction left with
  | zero =>
      refine fun _ => ⟨fun id => ?_, fun id => ⟨none64, by rw [revokedAt]⟩⟩
      rw [chainAt]
      cases hanchor : anchorOf kr id with
      | none => exact ⟨_, rfl, fun c hc => by cases hc⟩
      | some i => exact ⟨_, rfl, fun c hc => by cases hc; exact within_anchor 0 hanchor⟩
  | succ left ih =>
      intro hleft
      obtain ⟨hup, hrev⟩ := ih (Nat.le_of_succ_le hleft)
      have hreturns : ∀ id, ∃ res, chainAt H kr left id = .ok res := fun id => by
        obtain ⟨res, hres, _⟩ := hup id
        exact ⟨res, hres⟩
      refine ⟨fun id => ?_, fun id => ?_⟩
      · rw [chainAt]
        cases hanchor : anchorOf kr id with
        | some i => exact ⟨_, rfl, fun c hc => by cases hc; exact within_anchor _ hanchor⟩
        | none => exact searchRecords_fine hinv hleft hup hrev fun r hr => hr
      · obtain ⟨target, htarget⟩ := hreturns id
        rw [revokedAt, htarget, Checked.ok_bind]
        exact countRevocations_fine fun r hr => counts_fine hinv hreturns target _ id hr

/-- What an answer that is `ok` was given for: the key is used for the node and in the role that its record names,
within its time, or it is an anchor that is named after the node. -/
structure Serves (kr : Ring) (c : Chain) (eid : Bytes) (t : UInt64) (role : UInt32) : Prop where
  record : ∀ r, c.holder = some r → cstr r.subject = eid ∧ c.roles &&& role ≠ 0 ∧ inWindow kr r t = true
  anchor : c.holder = none → eid ≠ [] ∧ ∃ a, kr.anchors[c.anchor]? = some a ∧ a.eid = eid

theorem checkUse_fine {c : Chain} (eid : Bytes) (t : UInt64) (role : UInt32) (hanchor : c.anchor < kr.anchors.length) :
    ∃ res, checkUse kr c eid t role = .ok res ∧ (res = none → Serves kr c eid t role) := by
  unfold checkUse
  cases hholder : c.holder with
  | some r =>
      dsimp only
      by_cases heid : cstr r.subject = eid
      · by_cases hrole : c.roles &&& role = 0
        · rw [if_neg (not_not_intro heid), if_pos hrole]
          exact ⟨_, rfl, fun h => by cases h⟩
        · by_cases hwindow : inWindow kr r t = true
          · rw [if_neg (not_not_intro heid), if_neg hrole, if_neg (by simpa using hwindow)]
            refine ⟨_, rfl, fun _ => ⟨fun r' hr' => ?_, fun h => ?_⟩⟩
            · rw [hholder] at hr'
              cases hr'
              exact ⟨heid, hrole, hwindow⟩
            · rw [hholder] at h
              cases h
          · rw [if_neg (not_not_intro heid), if_neg hrole, if_pos (by simpa using hwindow)]
            exact ⟨_, rfl, fun h => by cases h⟩
      · rw [if_pos heid]
        exact ⟨_, rfl, fun h => by cases h⟩
  | none =>
      have hat : anchorAt kr c.anchor = .ok kr.anchors[c.anchor] := by
        unfold anchorAt
        rw [List.getElem?_eq_getElem hanchor]
      dsimp only
      rw [hat, Checked.ok_bind]
      refine ⟨_, rfl, fun h => ⟨fun r hr => ?_, fun _ => ?_⟩⟩
      · rw [hholder] at hr
        cases hr
      · split at h
        · cases h
        · next hnamed =>
          obtain ⟨hne, heq⟩ := not_or.mp hnamed
          have heq := not_not.mp heq
          exact ⟨heq ▸ hne, _, List.getElem?_eq_getElem hanchor, heq⟩

/-- **A query does not fault, and says `ok` only of a key that is vouched for and used as it may be.** -/
theorem status_fine (hinv : kr.Inv H) (pub eid : Bytes) (t : UInt64) (role : UInt32) :
    ∃ res, status H kr pub eid t role = .ok res ∧ (res.ok = true → ∃ c, Vouched H kr (keyId H pub) c ∧
      c.chain.length ≤ maxDepth + 1 ∧ Serves kr c eid t role) := by
  obtain ⟨hchain, hrev⟩ := chainAt_fine hinv (Nat.le_refl maxDepth)
  obtain ⟨found, hfound, hwithin⟩ := hchain (keyId H pub)
  obtain ⟨T, hT⟩ := hrev (keyId H pub)
  unfold status
  dsimp only
  rw [hfound, Checked.ok_bind]
  cases found with
  | error reason => exact ⟨_, rfl, fun h => by cases h⟩
  | ok c =>
      obtain ⟨hvouched, hlength, hanchor, _⟩ := hwithin c rfl
      obtain ⟨use, huse, hserves⟩ := checkUse_fine eid t role hanchor
      dsimp only
      rw [huse, Checked.ok_bind]
      cases use with
      | some reason => exact ⟨_, rfl, fun h => by cases h⟩
      | none =>
          dsimp only
          rw [hT, Checked.ok_bind]
          exact ⟨_, rfl, fun _ => ⟨c, hvouched, hlength, hserves rfl⟩⟩

/-! ## Runs -/

/-- A call that changes the keyring, with memory of any contents. -/
inductive Call where
  | anchor (pub : Bytes) (eid : Option Bytes)
  | add (item : Bytes) (n : Nat) (seenAt : UInt64)
  | ingest (data : Bytes) (n : Nat) (seenAt : UInt64)

/-- The sizes that are passed are sizes of the memory. -/
def Call.Sized : Call → Prop
  | .anchor _ _ => True
  | .add item n _ => n ≤ item.length
  | .ingest data n _ => n ≤ data.length

/-- The keyring behind a call, whatever the call returns. -/
def step (H : KeyHost) (kr : Ring) : Call → Checked Ring
  | .anchor pub eid => .ok ((addAnchor H kr pub eid).toOption.getD kr)
  | .add item n seenAt => (add H kr item n seenAt).map Prod.fst
  | .ingest data n seenAt => (ingestBlock H kr data n seenAt).map Prod.fst

theorem step_fine {call : Call} (hinv : kr.Inv H) (hsized : call.Sized) : ∃ kr', step H kr call = .ok kr' ∧ kr'.Inv H := by
  cases call with
  | anchor pub eid =>
      refine ⟨_, rfl, ?_⟩
      cases hadd : addAnchor H kr pub eid with
      | error e => exact hinv
      | ok kr' => exact addAnchor_inv hinv hadd
  | add item n seenAt =>
      obtain ⟨kr', res, hadd, hinv'⟩ := add_keeps seenAt hinv hsized
      exact ⟨kr', by rw [step, hadd]; rfl, hinv'⟩
  | ingest data n seenAt =>
      obtain ⟨kr', res, hingest, hinv'⟩ := ingestBlock_keeps seenAt hinv hsized
      exact ⟨kr', by rw [step, hingest]; rfl, hinv'⟩

/-- **Whatever is received, in whatever order**: no call faults, the tables stay in order, and every query is answered,
with `ok` only for a key that is vouched for. -/
theorem run_fine (skewMs : UInt64) {calls : List Call} (hsized : ∀ call ∈ calls, call.Sized) :
    ∃ kr, calls.foldlM (step H) (init skewMs) = .ok kr ∧ kr.Inv H ∧ ∀ pub eid t role,
      ∃ res, status H kr pub eid t role = .ok res ∧ (res.ok = true → ∃ c, Vouched H kr (keyId H pub) c ∧
        c.chain.length ≤ maxDepth + 1 ∧ Serves kr c eid t role) := by
  have hrun : ∀ {calls : List Call} {kr : Ring}, kr.Inv H → (∀ call ∈ calls, call.Sized) →
      ∃ kr', calls.foldlM (step H) kr = .ok kr' ∧ kr'.Inv H := by
    intro calls
    induction calls with
    | nil => exact fun h _ => ⟨_, rfl, h⟩
    | cons call calls ih =>
        intro kr h hs
        obtain ⟨hcall, hrest⟩ := List.forall_mem_cons.mp hs
        obtain ⟨kr', hstep, hinv⟩ := step_fine h hcall
        rw [List.foldlM_cons, hstep, Checked.ok_bind]
        exact ih hinv hrest
  obtain ⟨kr, hkr, hinv⟩ := hrun (init_inv skewMs) hsized
  exact ⟨kr, hkr, hinv, status_fine hinv⟩

/-- A digest of 32 bytes. -/
def sampleDigest (b : Bytes) : Bytes :=
  beBytes 8 (b.foldl (fun acc x => (acc * 65599 + x.toNat + 1) % 2305843009213693951) 0) ++ List.replicate 24 0

/-- A signature names the key and the digest of the message. -/
def sampleBoard : KeyHost := ⟨sampleDigest, fun raw m sig => sig == raw ++ sampleDigest m⟩

/-- An anchor, an item that ends too early, and a block that promises more than it holds. -/
def sampleCalls : List Call :=
  [.anchor (List.replicate 32 7) (some [0x61]), .add [0x84, 0x43, 0xa1] 3 5, .ingest [0x82, 0x84] 2 5]

theorem sampleCalls_fine : ∃ kr, sampleCalls.foldlM (step sampleBoard) (init 0) = .ok kr ∧ kr.Inv sampleBoard ∧
    ∀ pub eid t role, ∃ res, status sampleBoard kr pub eid t role = .ok res ∧ (res.ok = true →
      ∃ c, Vouched sampleBoard kr (keyId sampleBoard pub) c ∧ c.chain.length ≤ maxDepth + 1 ∧ Serves kr c eid t role) :=
  run_fine 0 (by simp [sampleCalls, Call.Sized])

end Onboard

end DtnCustody
