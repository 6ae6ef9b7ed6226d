/-
# DtnCustody.Gateway.Tcpcl4Transfer — one TCPCLv4 transfer, from `send` to the bundle event.

`send` cuts a bundle into pieces that begin with START and end with END (`cutFrom_next`). A receiver
that has the first bytes of a bundle takes the next piece, acknowledges what it then has, and on the
last piece emits the bundle (`receive_piece`). `Receiving` is the invariant: which bundles are whole,
what is held of the next one, and that the segments still to come are the rest of it and the later ones.
-/
import DtnCustody.Gateway.Tcpcl4Session

namespace DtnCustody

open Base

namespace Tcpcl4

/-! ## The pieces of a bundle -/

section Cut

variable {seg : Nat} {bundle : Bytes}

/-- The flags of the piece from `off` to `stop`. -/
def pieceFlags (bundle : Bytes) (off stop : Nat) : UInt8 :=
  (if off = 0 then SEG.START else 0) ||| (if stop = bundle.length then SEG.END else 0)

theorem hasBit_pieceFlags (bundle : Bytes) (off stop : Nat) :
    hasBit (pieceFlags bundle off stop) SEG.START = decide (off = 0) ∧
      hasBit (pieceFlags bundle off stop) SEG.END = decide (stop = bundle.length) := by
  unfold pieceFlags
  by_cases hoff : off = 0 <;> by_cases hstop : stop = bundle.length <;>
    simp only [hoff, hstop, if_true, if_false, decide_true, decide_false] <;> decide

theorem cutFrom_succ (fuel off : Nat) :
    Session.cutFrom seg bundle (fuel + 1) off =
      (pieceFlags bundle off (min (off + seg) bundle.length),
        slice bundle off (min (off + seg) bundle.length - off)) ::
      if min (off + seg) bundle.length = bundle.length then []
      else Session.cutFrom seg bundle fuel (off + seg) :=
  rfl

theorem length_piece {off stop : Nat} (hoff : off ≤ stop) (hstop : stop ≤ bundle.length) :
    (slice bundle off (stop - off)).length = stop - off := by
  rw [slice, List.length_take, List.length_drop]
  omega

theorem take_piece {off stop : Nat} (hoff : off ≤ stop) :
    bundle.take off ++ slice bundle off (stop - off) = bundle.take stop := by
  rw [slice, ← List.take_add]
  congr 1
  omega

/-- No piece is longer than the limit, or than the bundle. -/
theorem length_of_mem_cutFrom {fuel off : Nat} {c : UInt8 × Bytes}
    (h : c ∈ Session.cutFrom seg bundle fuel off) : c.2.length ≤ seg ∧ c.2.length ≤ bundle.length := by
  induction fuel generalizing off with
  | zero => cases h
  | succ fuel ih =>
      rw [cutFrom_succ, List.mem_cons] at h
      rcases h with rfl | h
      · simp only [slice, List.length_take, List.length_drop]
        omega
      · split at h
        · cases h
        · exact ih h

end Cut

/-! ## Segments on the way -/

/-- The segments of a transfer from `off` on. -/
def pieces (seg id : Nat) (bundle : Bytes) (fuel off : Nat) : List Message :=
  (Session.cutFrom seg bundle fuel off).map fun c => .segment c.1 id c.2

/-- The segments of whole transfers, numbered from `id` on. -/
def transfers (seg : Nat) : Nat → List Bytes → List Message
  | _, [] => []
  | id, bundle :: later => pieces seg id bundle (bundle.length + 1) 0 ++ transfers seg (id + 1) later

theorem transfers_append (seg id : Nat) (bundles : List Bytes) (bundle : Bytes) :
    transfers seg id (bundles ++ [bundle])
      = transfers seg id bundles ++
        pieces seg (id + bundles.length) bundle (bundle.length + 1) 0 := by
  induction bundles generalizing id with
  | nil => simp [transfers]
  | cons b bs ih =>
      rw [List.cons_append, transfers, transfers, ih, List.append_assoc, List.length_cons]
      congr 3
      omega

theorem isSegment_pieces {seg id fuel off : Nat} {bundle : Bytes} :
    ∀ m ∈ pieces seg id bundle fuel off, m.isSegment = true := by
  intro m hm
  obtain ⟨c, -, rfl⟩ := List.mem_map.mp hm
  rfl

theorem filter_pieces {seg id fuel off : Nat} {bundle : Bytes} :
    (pieces seg id bundle fuel off).filter Message.isSegment = pieces seg id bundle fuel off :=
  List.filter_eq_self.mpr isSegment_pieces

/-! ## The receiver -/

/-- Where a receiver is in what was sent, with the segments that are still to come: between two
transfers, or within one. -/
inductive Receiving (seg : Nat) (sent : List Bytes) (s : Session) : List Message → Prop
  | between {i : Nat} (hi : i ≤ sent.length) (hbundles : s.bundles = sent.take i) :
      Receiving seg sent s (transfers seg i (sent.drop i))
  | within {i off fuel : Nat} {bundle : Bytes} {parts : List Bytes} (hsent : sent[i]? = some bundle)
      (hbundles : s.bundles = sent.take i) (hpos : 0 < off) (hoff : off < bundle.length)
      (hfuel : bundle.length - off < fuel) (hrx : s.rx.get? i = some parts)
      (hparts : parts.flatten = bundle.take off) (hbytes : s.rxBytes.get? i = some off) :
      Receiving seg sent s (pieces seg i bundle fuel off ++ transfers seg (i + 1) (sent.drop (i + 1)))

namespace Receiving

variable {seg : Nat} {sent : List Bytes} {s : Session} {ms : List Message}

/-- The bundles that are whole are the first ones sent. -/
theorem bundles_front (h : Receiving seg sent s ms) : s.bundles <+: sent := by
  cases h with
  | between _ hbundles => exact hbundles ▸ List.take_prefix _ _
  | within _ hbundles => exact hbundles ▸ List.take_prefix _ _

/-- **With nothing still to come, every bundle is whole.** -/
theorem bundles_all (h : Receiving seg sent s []) : s.bundles = sent := by
  have nonempty : ∀ {id fuel off bundle}, pieces seg id bundle (fuel + 1) off ≠ [] := by
    intro id fuel off bundle hnil
    simp [pieces, cutFrom_succ] at hnil
  generalize hms : ([] : List Message) = ms at h
  cases h with
  | @between i hi hbundles =>
      cases hdrop : sent.drop i with
      | nil => rw [hbundles, List.take_of_length_le (List.drop_eq_nil_iff.mp hdrop)]
      | cons b bs =>
          rw [hdrop, transfers] at hms
          exact absurd (List.append_eq_nil_iff.mp hms.symm).1 nonempty
  | @within i off fuel bundle parts _ _ _ _ hfuel =>
      cases fuel with
      | zero => omega
      | succ fuel => exact absurd (List.append_eq_nil_iff.mp hms.symm).1 nonempty

/-- Another bundle is sent. -/
theorem snoc (h : Receiving seg sent s ms) (bundle : Bytes) :
    Receiving seg (sent ++ [bundle]) s
      (ms ++ pieces seg sent.length bundle (bundle.length + 1) 0) := by
  cases h with
  | @between i hi hbundles =>
      have hdrop : (sent ++ [bundle]).drop i = sent.drop i ++ [bundle] :=
        List.drop_append_of_le_length hi
      have hplace : i + (sent.drop i).length = sent.length := by
        rw [List.length_drop]
        omega
      have hall := transfers_append seg i (sent.drop i) bundle
      rw [hplace, ← hdrop] at hall
      rw [← hall]
      refine .between ?_ ?_
      · rw [List.length_append]
        omega
      · rw [hbundles, List.take_append_of_le_length hi]
  | @within i off fuel b parts hsent hbundles hpos hoff hfuel hrx hparts hbytes =>
      have hi : i < sent.length := (List.getElem?_eq_some_iff.mp hsent).1
      have hdrop : (sent ++ [bundle]).drop (i + 1) = sent.drop (i + 1) ++ [bundle] :=
        List.drop_append_of_le_length hi
      have hplace : i + 1 + (sent.drop (i + 1)).length = sent.length := by
        rw [List.length_drop]
        omega
      have hall := transfers_append seg (i + 1) (sent.drop (i + 1)) bundle
      rw [hplace, ← hdrop] at hall
      rw [List.append_assoc, ← hall]
      refine .within ?_ ?_ hpos hoff hfuel hrx hparts hbytes
      · rw [List.getElem?_append_left hi, hsent]
      · rw [hbundles, List.take_append_of_le_length hi.le]

/-- Only the bundles that are whole and the transfers under way matter. -/
theorem congr {s' : Session} (h : Receiving seg sent s ms) (hbundles : s'.bundles = s.bundles)
    (hrx : s'.rx = s.rx) (hbytes : s'.rxBytes = s.rxBytes) : Receiving seg sent s' ms := by
  cases h with
  | between hi hb => exact .between hi (hbundles.trans hb)
  | within hsent hb hpos hoff hfuel hrx' hparts hbytes' =>
      exact .within hsent (hbundles.trans hb) hpos hoff hfuel (hrx ▸ hrx') hparts (hbytes ▸ hbytes')

end Receiving

/-! ## Taking a segment -/

section Take

variable {seg : Nat} {sent : List Bytes} {s : Session}

/-- What taking a segment comes to: the ack that is written, and the state it leaves. -/
structure Taken (seg : Nat) (sent : List Bytes) (s : Session) (flags : UInt8) (id : Nat) (data : Bytes)
    (later : List Message) : Prop where
  answered : ∃ rx rxBytes got parts, s.onSegment flags id data = { s with
      rx := rx
      rxBytes := rxBytes
      log := s.log ++ Session.segmentAnswer flags id got parts } ∧
    ∃ bundle, sent[id]? = some bundle ∧ got ≤ bundle.length ∧
      (hasBit flags SEG.END = true →
        got = bundle.length ∧ id < (s.onSegment flags id data).bundles.length)
  receiving : Receiving seg sent (s.onSegment flags id data) later

/-- **The next piece of a bundle is taken**, the first one or one that goes on with what is held. -/
theorem receive_piece (hopen : s.closed = false) (hest : s.state = .established) (hseg : 1 ≤ seg)
    {i off fuel : Nat} {bundle : Bytes} {parts : List Bytes} (hsent : sent[i]? = some bundle)
    (hbundles : s.bundles = sent.take i) (hsize : bundle.length ≤ s.opts.transferMru)
    (hheld : off = 0 ∧ parts = [] ∨
      0 < off ∧ off < bundle.length ∧ s.rx.get? i = some parts ∧ s.rxBytes.get? i = some off)
    (hparts : parts.flatten = bundle.take off) (hfuel : bundle.length - off < fuel) :
    ∃ flags data later, pieces seg i bundle fuel off = .segment flags i data :: later ∧
      Taken seg sent s flags i data (later ++ transfers seg (i + 1) (sent.drop (i + 1))) := by
  obtain ⟨fuel, rfl⟩ : ∃ n, fuel = n + 1 := ⟨fuel - 1, by omega⟩
  have hi : i < sent.length := (List.getElem?_eq_some_iff.mp hsent).1
  have hoff : off ≤ bundle.length := by omega
  -- The piece runs from `off` to `stop`.
  generalize hstop : min (off + seg) bundle.length = stop
  have hle : off ≤ stop := by omega
  have hdata : (slice bundle off (stop - off)).length = stop - off := length_piece hle (by omega)
  obtain ⟨hstart, hend⟩ := hasBit_pieceFlags bundle off stop
  have hpieces : pieces seg i bundle (fuel + 1) off
      = .segment (pieceFlags bundle off stop) i (slice bundle off (stop - off)) ::
        if stop = bundle.length then [] else pieces seg i bundle fuel (off + seg) := by
    rw [pieces, cutFrom_succ, hstop, List.map_cons]
    split <;> rfl
  refine ⟨_, _, _, hpieces, ?_⟩
  have hstarted : hasBit (pieceFlags bundle off stop) SEG.START = true ∧ parts = [] ∧ off = 0 ∨
      hasBit (pieceFlags bundle off stop) SEG.START = false ∧ s.rx.get? i = some parts ∧
        s.rxBytes.get? i = some off := by
    rw [hstart]
    rcases hheld with ⟨hzero, hnil⟩ | ⟨hpos, -, hrx, hbytes⟩
    · exact .inl ⟨decide_eq_true hzero, hnil, hzero⟩
    · exact .inr ⟨decide_eq_false (by omega), hrx, hbytes⟩
  obtain ⟨rx, rxBytes, hsegment, hkept⟩ := Session.onSegment_next hopen hest hstarted
    (show off + (slice bundle off (stop - off)).length ≤ s.opts.transferMru by omega)
  have hgot : off + (slice bundle off (stop - off)).length = stop := by omega
  have hwhole : (parts ++ [slice bundle off (stop - off)]).flatten = bundle.take stop := by
    rw [List.flatten_append, hparts, List.flatten_singleton, take_piece hle]
  rw [hgot] at hsegment hkept
  by_cases hlast : stop = bundle.length
  · -- The last piece: the bundle is whole.
    rw [if_pos hlast, List.nil_append]
    have hnow : (s.onSegment (pieceFlags bundle off stop) i (slice bundle off (stop - off))).bundles
        = sent.take (i + 1) := by
      rw [hsegment]
      show (s.log ++ _).filterMap Output.emitted = _
      rw [List.filterMap_append, Session.segmentAnswer, hend, if_pos (decide_eq_true hlast)]
      show s.bundles ++ [(parts ++ [slice bundle off (stop - off)]).flatten] = _
      rw [hwhole, hlast, List.take_length, hbundles, List.take_add_one, hsent]
      rfl
    refine ⟨⟨rx, rxBytes, stop, _, hsegment, bundle, hsent, by omega, fun _ => ⟨hlast, ?_⟩⟩,
      .between hi hnow⟩
    rw [hnow, List.length_take]
    omega
  · -- There is more of it.
    have hmore : hasBit (pieceFlags bundle off stop) SEG.END = false := by
      rw [hend]
      exact decide_eq_false hlast
    obtain ⟨hrx, hbytes⟩ := hkept hmore
    have hnext : stop = off + seg := by omega
    have hnow : (s.onSegment (pieceFlags bundle off stop) i (slice bundle off (stop - off))).bundles
        = sent.take i := by
      rw [hsegment]
      show (s.log ++ _).filterMap Output.emitted = _
      rw [List.filterMap_append, Session.segmentAnswer, hmore]
      show s.bundles ++ [] = _
      rw [List.append_nil, hbundles]
    rw [if_neg hlast, ← hnext]
    refine ⟨⟨rx, rxBytes, stop, _, hsegment, bundle, hsent, by omega, ?_⟩, ?_⟩
    · intro h
      rw [hmore] at h
      cases h
    · refine .within hsent hnow (by omega) (by omega) (by omega) ?_ hwhole ?_
      · rw [hsegment]
        exact hrx
      · rw [hsegment]
        exact hbytes

/-- **A receiver takes the next segment on the way.** -/
theorem Receiving.take {m : Message} {later : List Message} (h : Receiving seg sent s (m :: later))
    (hopen : s.closed = false) (hest : s.state = .established) (hseg : 1 ≤ seg)
    (hsizes : ∀ b ∈ sent, b.length ≤ s.opts.transferMru) :
    ∃ flags id data, m = .segment flags id data ∧ Taken seg sent s flags id data later := by
  generalize hms : m :: later = ms at h
  cases h with
  | @between i hi hbundles =>
      cases hdrop : sent.drop i with
      | nil =>
          rw [hdrop] at hms
          cases hms
      | cons bundle bs =>
          have hsent : sent[i]? = some bundle := by
            rw [← List.head?_drop, hdrop, List.head?_cons]
          have hbs : sent.drop (i + 1) = bs := by
            rw [← List.drop_drop, hdrop, List.drop_one, List.tail_cons]
          obtain ⟨flags, data, rest, hpieces, htaken⟩ := receive_piece hopen hest hseg hsent hbundles
            (hsizes _ (List.mem_of_getElem? hsent)) (.inl ⟨rfl, rfl⟩) rfl
            (show bundle.length - 0 < bundle.length + 1 by omega)
          rw [hdrop, transfers, hpieces, List.cons_append, List.cons.injEq] at hms
          obtain ⟨rfl, rfl⟩ := hms
          rw [hbs] at htaken
          exact ⟨flags, i, data, rfl, htaken⟩
  | @within i off fuel bundle parts hsent hbundles hpos hoff hfuel hrx hparts hbytes =>
      obtain ⟨flags, data, rest, hpieces, htaken⟩ := receive_piece hopen hest hseg hsent hbundles
        (hsizes _ (List.mem_of_getElem? hsent)) (.inr ⟨hpos, hoff, hrx, hbytes⟩) hparts hfuel
      rw [hpieces, List.cons_append, List.cons.injEq] at hms
      obtain ⟨rfl, rfl⟩ := hms
      exact ⟨flags, i, data, rfl, htaken⟩

end Take

end Tcpcl4

end DtnCustody
