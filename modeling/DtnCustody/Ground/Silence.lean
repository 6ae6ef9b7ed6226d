/-
# DtnCustody.Ground.Silence — what a ledger says of the passes.

A file goes to the first pass of the schedule whose window it was received in, and a pass that no file
went to is reported as silent. Windows may overlap or touch. A file in two of them is missing from the
second one's report, and if nothing else came, that pass is said to have brought nothing
(`told_iff`, `overlap_untold`).
-/
import DtnCustody.Ground.Sealed
import Mathlib.Data.List.Perm.Basic

namespace DtnCustody

open Base Js

namespace Ground

variable (H : StationHost) (i : Input) (L : Ledger)

/-! ## What a ledger should say -/

/-- The file was received in the window of the pass, the ends included. -/
def inWindow (p : Pass) (f : File) : Bool :=
  JsNum.ge f.receivedAt (ms H p.start) && JsNum.ge (ms H p.stop) f.receivedAt

/-- `contentId({ station, sha256, name })`. -/
def payloadIdOf (f : File) : Outcome JsString :=
  (Json.obj [(js "station", .str i.station), (js "sha256", .str (Hex.encode (H.sha256 f.bytes))),
    (js "name", .str f.name)]).contentId H.toNode

/-- The file as it is listed in the report of a pass. -/
def InPass (f : File) (e : Json) : Prop := ∃ id, payloadIdOf H i f = .ok id ∧ e = .str id

/-- The file as it is listed outside the schedule. -/
def OffSchedule (f : File) (e : Json) : Prop := ∃ id, payloadIdOf H i f = .ok id ∧
  e = .obj [(js "name", .str f.name), (js "receivedAt", .num f.receivedAt), (js "payloadId", .str id)]

/-- A list of these files, in some order. -/
def Lists (R : File → Json → Prop) (fs : List File) (v : JsonVal) : Prop :=
  ∃ es es', v = some (.arr es) ∧ es.Perm es' ∧ List.Forall₂ R fs es'

/-- The report of a pass. -/
structure ReportOf (p : Pass) (r : Json) : Prop where
  mem : r ∈ L.records
  kind : r.get "kind" = some (.text "station.pass/1")
  passId : r.get "passId" = some p.passId

/-- A pass is said to be silent if it was, and the files are listed where they were received. -/
structure Told : Prop where
  reported : ∀ p ∈ i.passes, ∃ r, ReportOf L p r
  silent : ∀ p ∈ i.passes, ∀ r, ReportOf L p r →
    (r.get "status" = some (.text "no-data") ↔ ∀ f ∈ i.files, inWindow H p f = false)
  received : ∀ p ∈ i.passes, ∀ r, ReportOf L p r → r.get "status" = some (.text "received") →
    Lists (InPass H i) (i.files.filter fun f => inWindow H p f) (r.get "payloadIds")
  unscheduled : ∀ r ∈ L.records, r.get "kind" = some (.text "station.unscheduled/1") →
    Lists (OffSchedule H i) (i.files.filter fun f => i.passes.all fun p => !inWindow H p f)
      (r.get "products")
  off : (∃ r ∈ L.records, r.get "kind" = some (.text "station.unscheduled/1")) ↔
    ∃ f ∈ i.files, ∀ p ∈ i.passes, inWindow H p f = false

variable {H i L} {kp : AgentKey}

/-! ## Where a file goes -/

theorem product_ok {f : File} {p : Product} (h : product H kp i f = .ok p) :
    payloadIdOf H i f = .ok p.payloadId ∧ p.name = f.name ∧ p.receivedAt = f.receivedAt ∧
      p.pass = passFor H i.passes.zipIdx f.receivedAt := by
  obtain ⟨fp, hfp, h⟩ := Outcome.bind_eq_ok.mp h
  obtain ⟨payloadId, hid, h⟩ := Outcome.bind_eq_ok.mp h
  obtain ⟨m, -, h⟩ := Outcome.bind_eq_ok.mp h
  obtain ⟨receipt, -, h⟩ := Outcome.bind_eq_ok.mp h
  cases h
  obtain ⟨cs, -, hfp⟩ := Outcome.bind_eq_ok.mp hfp
  obtain ⟨tree, -, hfp⟩ := Outcome.bind_eq_ok.mp hfp
  cases hfp
  exact ⟨hid, rfl, rfl, rfl⟩

theorem eq_of_key? {a b : Json} (h : a.key? = b.key?) (hsome : a.key?.isSome = true) : a = b := by
  cases a <;> cases b <;> simp_all [Json.key?]

theorem place_of_slot {s : Slot} (h : s ∈ i.passes.zipIdx) : i.passes[s.2]? = some s.1 :=
  List.mk_mem_zipIdx_iff_getElem?.mp h

theorem eq_of_place {p q : Slot} (hp : p ∈ i.passes.zipIdx) (hq : q ∈ i.passes.zipIdx)
    (h : p.2 = q.2) : p = q :=
  Prod.ext (Option.some.inj (by rw [← place_of_slot hp, ← place_of_slot hq, h])) h

theorem eq_of_passId (hids : (i.passes.map Pass.passId).Nodup) {p q : Slot}
    (hp : p ∈ i.passes.zipIdx) (hq : q ∈ i.passes.zipIdx) (h : p.1.passId = q.1.passId) : p = q := by
  apply eq_of_place hp hq
  have hlen : p.2 < (i.passes.map Pass.passId).length := by
    rw [List.length_map]
    exact (List.getElem?_eq_some_iff.mp (place_of_slot hp)).1
  refine (List.getElem?_inj hlen hids).mp ?_
  rw [List.getElem?_map, List.getElem?_map, place_of_slot hp, place_of_slot hq]
  exact congrArg some h

/-- With distinct ids, every pass has an entry of its own. -/
theorem sameEntry_iff (hids : (i.passes.map Pass.passId).Nodup) {p q : Slot}
    (hp : p ∈ i.passes.zipIdx) (hq : q ∈ i.passes.zipIdx) : sameEntry p q = true ↔ p = q := by
  constructor
  · intro h
    unfold sameEntry at h
    split at h
    · next a b ha hb =>
      rw [decide_eq_true_iff] at h
      exact eq_of_passId hids hp hq (eq_of_key? (by rw [ha, hb, h]) (by rw [ha]; rfl))
    · exact eq_of_place hp hq (of_decide_eq_true h)
    · cases h
  · rintro rfl
    unfold sameEntry
    split
    · next a b ha hb =>
      rw [ha] at hb
      exact decide_eq_true (Option.some.inj hb)
    · exact decide_eq_true rfl
    · next hnone hsome =>
      cases hkey' : p.1.passId.key? with
      | none => exact absurd hkey' (fun h => hsome h h)
      | some k => exact absurd hkey' (fun h => hnone k k h h)

/-- Whether a file went to this pass. -/
def goesTo (H : StationHost) (i : Input) (s : Slot) (f : File) : Bool :=
  (passFor H i.passes.zipIdx f.receivedAt).any fun q => sameEntry q s

theorem mem_slots {p : Pass} (h : p ∈ i.passes) : ∃ k, (p, k) ∈ i.passes.zipIdx := by
  obtain ⟨k, hk⟩ := List.mem_iff_getElem?.mp h
  exact ⟨k, List.mk_mem_zipIdx_iff_getElem?.mpr hk⟩

theorem pass_of_slot {s : Slot} (h : s ∈ i.passes.zipIdx) : s.1 ∈ i.passes :=
  List.mem_of_getElem? (place_of_slot h)

theorem passFor_eq (f : File) : passFor H i.passes.zipIdx f.receivedAt =
    i.passes.zipIdx.find? fun s => inWindow H s.1 f := rfl

theorem goesTo_iff (hids : (i.passes.map Pass.passId).Nodup) {s : Slot} (hs : s ∈ i.passes.zipIdx)
    {f : File} : goesTo H i s f = true ↔ passFor H i.passes.zipIdx f.receivedAt = some s := by
  unfold goesTo
  cases hfor : passFor H i.passes.zipIdx f.receivedAt with
  | none => exact ⟨fun h => (by cases h), fun h => (by cases h)⟩
  | some q =>
      have hq : q ∈ i.passes.zipIdx := List.mem_of_find?_eq_some hfor
      rw [Option.any_some, sameEntry_iff hids hq hs, Option.some.injEq]

theorem passFor_isNone_iff {f : File} : (passFor H i.passes.zipIdx f.receivedAt).isNone = true ↔
    ∀ p ∈ i.passes, inWindow H p f = false := by
  rw [passFor_eq, Option.isNone_iff_eq_none, List.find?_eq_none]
  constructor
  · intro h p hp
    obtain ⟨k, hk⟩ := mem_slots hp
    exact Bool.eq_false_iff.mpr (h _ hk)
  · intro h s hs
    rw [h s.1 (pass_of_slot hs)]
    exact Bool.false_ne_true

/-- The windows a file was received in: it is one at most just when the file went to each of them. -/
theorem length_windows_iff {f : File} : (i.passes.filter fun p => inWindow H p f).length ≤ 1 ↔
    ∀ s ∈ i.passes.zipIdx, inWindow H s.1 f = true →
      passFor H i.passes.zipIdx f.receivedAt = some s := by
  have hmap : (i.passes.zipIdx.filter fun s => inWindow H s.1 f).map Prod.fst =
      i.passes.filter fun p => inWindow H p f := by
    conv_rhs => rw [← List.zipIdx_map_fst 0 i.passes, List.filter_map]
    rfl
  rw [← hmap, List.length_map, passFor_eq, ← List.head?_filter]
  constructor
  · intro hlen s hs hin
    have hmem : s ∈ i.passes.zipIdx.filter fun s => inWindow H s.1 f := List.mem_filter.mpr ⟨hs, hin⟩
    obtain ⟨q, hq⟩ := List.length_eq_one_iff.mp (le_antisymm hlen (List.length_pos_of_mem hmem))
    rw [hq] at hmem ⊢
    rw [List.mem_singleton.mp hmem]
    rfl
  · intro h
    have hnodup : (i.passes.zipIdx.filter fun s => inWindow H s.1 f).Nodup := by
      refine List.Nodup.filter _ (List.Nodup.of_map Prod.snd ?_)
      rw [List.zipIdx_map_snd]
      exact List.nodup_range'
    cases hhead : (i.passes.zipIdx.filter fun s => inWindow H s.1 f).head? with
    | none =>
        rw [List.head?_eq_none_iff.mp hhead]
        exact Nat.zero_le 1
    | some q =>
        suffices hsubset : (i.passes.zipIdx.filter fun s => inWindow H s.1 f) ⊆ [q] from
          (List.subperm_of_subset hnodup hsubset).length_le
        intro s hs
        obtain ⟨hs, hin⟩ := List.mem_filter.mp hs
        rw [hhead] at h
        exact List.mem_singleton.mpr (Option.some.inj (h s hs hin)).symm

/-! ## What the records say -/

/-- Products that are picked as their files are. -/
theorem lists_filter {R : File → Json → Prop} {products : List Product} {c : File → Bool}
    {d : Product → Bool} {e : Product → Json}
    (hmade : (i.files.insertionSort fun a b => fileInOrder H a b).mapM (product H kp i) = .ok products)
    (hpick : ∀ f p, product H kp i f = .ok p → d p = c f)
    (hlist : ∀ f p, product H kp i f = .ok p → R f (e p)) :
    Lists R (i.files.filter c) (some (.arr ((products.filter d).map e))) := by
  have hpicked := @List.rel_filter _ _ _ c d (fun f p hp => by
    show c f = true ↔ d p = true
    rw [hpick f p hp]) _ _ (Outcome.mapM_eq_ok hmade)
  have hlisted := List.forall₂_map_right_iff.mpr (hpicked.imp hlist)
  obtain ⟨es, hes, hperm⟩ :=
    List.perm_comp_forall₂ (((List.perm_insertionSort _ i.files).symm).filter c) hlisted
  exact ⟨_, es, rfl, hperm.symm, hes⟩

theorem Lists.length_eq {R : File → Json → Prop} {fs : List File} {es : List Json}
    (h : Lists R fs (some (.arr es))) : es.length = fs.length := by
  obtain ⟨es', es'', heq, hperm, hall⟩ := h
  cases heq
  rw [hperm.length_eq, hall.length_eq]

section

variable {products : List Product} {reports rest : List Json}

theorem report_fields {s : Slot} {r : Json}
    (h : Receipt.signRecord H.toHost kp (report H i products s) = .ok r) :
    r.get "kind" = some (.text "station.pass/1") ∧ r.get "passId" = some s.1.passId ∧
      r.get "status" = some (.text (if (products.filter fun f => f.pass.any fun q =>
        sameEntry q s).isEmpty then "no-data" else "received")) ∧
      r.get "payloadIds" = some (.arr ((products.filter fun f => f.pass.any fun q =>
        sameEntry q s).map fun g => .str g.payloadId)) := by
  have hget : ∀ name, js name ≠ js "claimId" → js name ≠ js "sig" → js name ≠ js "signerPub" →
      r.get name = _ := fun name => Receipt.get_signRecord H.toHost h
  exact ⟨(hget _ (by decide) (by decide) (by decide)).trans rfl,
    (hget _ (by decide) (by decide) (by decide)).trans rfl,
    (hget _ (by decide) (by decide) (by decide)).trans rfl,
    (hget _ (by decide) (by decide) (by decide)).trans rfl⟩

theorem Parts.exists_report (h : Parts H kp i L products reports rest) {s : Slot}
    (hs : s ∈ i.passes.zipIdx) : ∃ r ∈ L.records,
      Receipt.signRecord H.toHost kp (Ground.report H i products s) = .ok r := by
  obtain ⟨r, hr, hsigned⟩ := Outcome.exists_of_mapM h.signed ((List.mem_insertionSort _).mpr hs)
  exact ⟨r, h.mem_records.mpr (.inr (.inl hr)), hsigned⟩

/-- The report of a pass is the one that was made for it. -/
theorem Parts.reportOf (h : Parts H kp i L products reports rest)
    (hids : (i.passes.map Pass.passId).Nodup) {s : Slot} (hs : s ∈ i.passes.zipIdx) {r : Json}
    (hr : ReportOf L s.1 r) :
      Receipt.signRecord H.toHost kp (Ground.report H i products s) = .ok r := by
  rcases h.mem_records.mp hr.mem with hmem | hmem | hmem
  · obtain ⟨f, -, hm | ⟨-, hcustody⟩⟩ := h.file hmem
    · exact absurd (hr.kind.symm.trans hm.kind) (kind_ne (by decide))
    · exact absurd (hr.kind.symm.trans hcustody) (kind_ne (by decide))
  · obtain ⟨q, hq, hsigned⟩ := Outcome.mem_of_mapM h.signed hmem
    rw [List.mem_insertionSort] at hq
    obtain ⟨-, hpassId, -⟩ := report_fields hsigned
    have hid : q.1.passId = s.1.passId := Option.some.inj (hpassId.symm.trans hr.passId)
    rwa [eq_of_passId hids hq hs hid] at hsigned
  · exact absurd (hr.kind.symm.trans (h.unscheduled hmem).2) (kind_ne (by decide))

theorem Parts.unscheduled_iff (h : Parts H kp i L products reports rest) {r : Json} :
    r ∈ L.records ∧ r.get "kind" = some (.text "station.unscheduled/1") ↔ r ∈ rest := by
  constructor
  · rintro ⟨hr, hkind⟩
    rcases h.mem_records.mp hr with hmem | hmem | hmem
    · obtain ⟨f, -, hm | ⟨-, hcustody⟩⟩ := h.file hmem
      · exact absurd (hkind.symm.trans hm.kind) (kind_ne (by decide))
      · exact absurd (hkind.symm.trans hcustody) (kind_ne (by decide))
    · exact absurd (hkind.symm.trans (h.report hmem).2) (kind_ne (by decide))
    · exact hmem
  · exact fun hr => ⟨h.mem_records.mpr (.inr (.inr hr)), (h.unscheduled hr).2⟩

/-- A product is outside the schedule when its file was received in no window. -/
theorem isNone_pass {f : File} {p : Product} (h : product H kp i f = .ok p) :
    p.pass.isNone = i.passes.all fun p => !inWindow H p f := by
  rw [(product_ok h).2.2.2, Bool.eq_iff_iff, passFor_isNone_iff, List.all_eq_true]
  exact forall₂_congr fun p _ => by rw [Bool.not_eq_true']

theorem Parts.listed_off (h : Parts H kp i L products reports rest) {r : Json} (hr : r ∈ rest) :
    Lists (OffSchedule H i) (i.files.filter fun f => i.passes.all fun p => !inWindow H p f)
      (r.get "products") := by
  obtain ⟨us, hus, hsigned⟩ := Outcome.mem_of_mapM h.last hr
  have hall : us = products.filter fun f => f.pass.isNone := by
    split at hus
    · cases hus
    · exact List.mem_singleton.mp hus
  have hproducts : r.get "products" = some (.arr ((products.filter fun f => f.pass.isNone).map
      fun u => .obj [(js "name", .str u.name), (js "receivedAt", .num u.receivedAt),
        (js "payloadId", .str u.payloadId)])) := by
    rw [Receipt.get_signRecord H.toHost hsigned (by decide) (by decide) (by decide), hall]
    rfl
  rw [hproducts]
  refine lists_filter h.made (fun f p hp => isNone_pass hp) fun f p hp => ?_
  obtain ⟨hid, hname, hreceived, -⟩ := product_ok hp
  exact ⟨_, hid, by rw [hname, hreceived]⟩

theorem Parts.off_iff (h : Parts H kp i L products reports rest) :
    (∃ r, r ∈ rest) ↔ ∃ f ∈ i.files, ∀ p ∈ i.passes, inWindow H p f = false := by
  have hnone : (products.filter fun f => f.pass.isNone) = [] ↔
      (i.files.filter fun f => i.passes.all fun p => !inWindow H p f) = [] := by
    have hlists := lists_filter (R := InPass H i) (e := fun g => .str g.payloadId) h.made
      (fun f p hp => isNone_pass hp) fun f p hp => ⟨_, (product_ok hp).1, rfl⟩
    rw [← List.length_eq_zero_iff, ← List.length_eq_zero_iff, ← hlists.length_eq, List.length_map]
  have hrest : rest = [] ↔ (products.filter fun f => f.pass.isNone) = [] := by
    have hlen := (Outcome.mapM_eq_ok h.last).length_eq
    split at hlen
    · next hempty => exact ⟨fun _ => hempty, fun _ => List.length_eq_zero_iff.mp hlen.symm⟩
    · next hsome =>
      refine ⟨fun hnil => ?_, fun hempty => absurd hempty hsome⟩
      rw [hnil] at hlen
      cases hlen
  have hsome : (∃ r, r ∈ rest) ↔ rest ≠ [] :=
    ⟨fun ⟨_, hr⟩ => List.ne_nil_of_mem hr, List.exists_mem_of_ne_nil rest⟩
  rw [hsome, ne_eq, hrest, hnone, List.filter_eq_nil_iff]
  simp

end

/-! ## The verdict -/

theorem length_filter_lt {α : Type} {xs : List α} {c d : α → Bool} (hcd : ∀ x ∈ xs, c x = true → d x = true)
    {x : α} (hx : x ∈ xs) (hc : c x = false) (hd : d x = true) :
    (xs.filter c).length < (xs.filter d).length := by
  have hsame : (xs.filter d).filter c = xs.filter c := by
    rw [List.filter_filter]
    refine List.filter_congr fun y hy => ?_
    cases hcy : c y with
    | false => rfl
    | true => rw [hcd y hy hcy]; rfl
  rw [← hsame, List.length_filter_lt_length_iff_exists]
  exact ⟨x, List.mem_filter.mpr ⟨hx, hd⟩, by simp [hc]⟩

/-- **A ledger tells the passes right** when no file was received in two windows, and only then. -/
theorem told_iff (H : StationHost) (kp : AgentKey) (i : Input) (L : Ledger)
    (hbuild : buildLedger H kp i = .ok L) (hids : (i.passes.map Pass.passId).Nodup) :
    Told H i L ↔ ∀ f ∈ i.files, (i.passes.filter fun p => inWindow H p f).length ≤ 1 := by
  obtain ⟨products, reports, rest, h⟩ := parts_of_buildLedger hbuild
  have hgot : ∀ s : Slot, Lists (InPass H i) (i.files.filter (goesTo H i s))
      (some (.arr ((products.filter fun f => f.pass.any fun q => sameEntry q s).map
        fun g => .str g.payloadId))) := fun s =>
    lists_filter h.made (fun f p hp => by rw [(product_ok hp).2.2.2]; rfl)
      fun f p hp => ⟨_, (product_ok hp).1, rfl⟩
  have hlen : ∀ s : Slot, (products.filter fun f => f.pass.any fun q => sameEntry q s).length =
      (i.files.filter (goesTo H i s)).length := fun s => by
    rw [← (hgot s).length_eq, List.length_map]
  have hwithin : ∀ s ∈ i.passes.zipIdx, ∀ f, goesTo H i s f = true → inWindow H s.1 f = true := by
    intro s hs f hto
    have hfind := (goesTo_iff hids hs).mp hto
    rw [passFor_eq] at hfind
    have hin := List.find?_some hfind
    exact hin
  constructor
  · intro htold f hf
    refine length_windows_iff.mpr fun s hs hin => (goesTo_iff hids hs).mp ?_
    by_contra hto
    obtain ⟨r, hr, hsigned⟩ := h.exists_report hs
    obtain ⟨hkind, hpassId, hstatus, hlist⟩ := report_fields hsigned
    have hreport : ReportOf L s.1 r := ⟨hr, hkind, hpassId⟩
    have hless := length_filter_lt (fun f _ => hwithin s hs f) hf (Bool.eq_false_iff.mpr hto) hin
    split at hstatus
    · have hsilent := (htold.silent s.1 (pass_of_slot hs) r hreport).mp hstatus f hf
      rw [hin] at hsilent
      cases hsilent
    · have hlists := htold.received s.1 (pass_of_slot hs) r hreport hstatus
      rw [hlist] at hlists
      have hsame := hlists.length_eq
      rw [List.length_map, hlen] at hsame
      exact absurd hsame hless.ne
  · intro hone
    have hto : ∀ s ∈ i.passes.zipIdx, ∀ f ∈ i.files, goesTo H i s f = inWindow H s.1 f := by
      intro s hs f hf
      cases hin : inWindow H s.1 f with
      | true => exact (goesTo_iff hids hs).mpr (length_windows_iff.mp (hone f hf) s hs hin)
      | false =>
          refine Bool.eq_false_iff.mpr fun hgo => ?_
          rw [hwithin s hs f hgo] at hin
          cases hin
    refine ⟨fun p hp => ?_, fun p hp r hr => ?_, fun p hp r hr _ => ?_, fun r hr hkind => ?_, ?_⟩
    · obtain ⟨k, hk⟩ := mem_slots hp
      obtain ⟨r, hr, hsigned⟩ := h.exists_report hk
      obtain ⟨hkind, hpassId, -⟩ := report_fields hsigned
      exact ⟨r, hr, hkind, hpassId⟩
    · obtain ⟨k, hk⟩ := mem_slots hp
      obtain ⟨-, -, hstatus, -⟩ := report_fields (h.reportOf hids hk hr)
      have hempty : (products.filter fun f => f.pass.any fun q => sameEntry q (p, k)).isEmpty = true ↔
          ∀ f ∈ i.files, inWindow H p f = false := by
        rw [List.isEmpty_iff, ← List.length_eq_zero_iff, hlen, List.length_eq_zero_iff,
          List.filter_eq_nil_iff]
        refine forall₂_congr fun f hf => ?_
        rw [hto _ hk f hf, Bool.not_eq_true]
      rw [hstatus, ← hempty]
      split
      · next hyes => exact ⟨fun _ => hyes, fun _ => rfl⟩
      · next hno => exact ⟨fun heq => absurd heq (kind_ne (by decide)), fun hyes => absurd hyes hno⟩
    · obtain ⟨k, hk⟩ := mem_slots hp
      obtain ⟨-, -, -, hlist⟩ := report_fields (h.reportOf hids hk hr)
      rw [hlist, ← List.filter_congr (hto _ hk)]
      exact hgot _
    · exact h.listed_off (h.unscheduled_iff.mp ⟨hr, hkind⟩)
    · rw [← h.off_iff]
      exact exists_congr fun r => h.unscheduled_iff

/-! ## A file in two windows -/

/-- One file, and two passes. -/
def stationInput (start stop : Int) : Input where
  station := js "ipn:20.0"
  spacecraft := js "ipn:5.0"
  files := [⟨js "a.bin", [4], .fin 60⟩]
  passes := [⟨.text "P1", .num (.fin 0), .num (.fin 100)⟩,
    ⟨.text "P2", .num (.fin start), .num (.fin stop)⟩]

/-- What the ledger has as the status of a pass. -/
def hasStatus (L : Ledger) (passId status : String) : Bool :=
  L.records.any fun r => JsonVal.isText (r.get "kind") "station.pass/1" &&
    JsonVal.isText (r.get "passId") passId && JsonVal.isText (r.get "status") status

/-- With the second pass later, both are told right. -/
theorem told_sample : ∃ L, buildLedger sampleStation Path.sampleKey (stationInput 200 300) = .ok L ∧
    Told sampleStation (stationInput 200 300) L := by
  obtain ⟨L, hbuild⟩ := Outcome.exists_ok
    (x := buildLedger sampleStation Path.sampleKey (stationInput 200 300)) (by decide +kernel)
  refine ⟨L, hbuild, (told_iff sampleStation Path.sampleKey (stationInput 200 300) L hbuild ?_).mpr ?_⟩
  · show [Json.text "P1", .text "P2"].Nodup
    have hne : Json.text "P1" ≠ .text "P2" := fun h => absurd (Json.str.inj h) (by decide)
    simp [hne]
  · intro f hf
    rw [List.mem_singleton.mp hf]
    decide +kernel

/-- **A pass that brought a file is said to be silent**, where an earlier one in the list was still on. -/
theorem overlap_untold : ∃ H kp i L, buildLedger H kp i = .ok L ∧ (i.passes.map Pass.passId).Nodup ∧
    ¬ Told H i L := by
  have hbuilds : (buildLedger sampleStation Path.sampleKey (stationInput 50 150)).toOption.any
      (fun L => hasStatus L "P2" "no-data") = true := by decide +kernel
  cases hbuild : buildLedger sampleStation Path.sampleKey (stationInput 50 150) with
  | error e =>
      rw [hbuild] at hbuilds
      cases hbuilds
  | ok L =>
      rw [hbuild] at hbuilds
      refine ⟨_, _, stationInput 50 150, L, hbuild, ?_, fun htold => ?_⟩
      · show [Json.text "P1", .text "P2"].Nodup
        have hne : Json.text "P1" ≠ .text "P2" := fun h => absurd (Json.str.inj h) (by decide)
        simp [hne]
      · obtain ⟨r, hr, hyes⟩ := List.any_eq_true.mp hbuilds
        rw [Bool.and_eq_true_iff, Bool.and_eq_true_iff] at hyes
        have hsilent := (htold.silent _ (List.mem_cons_of_mem _ List.mem_cons_self) r
          ⟨hr, JsonVal.eq_of_strictEq hyes.1.1, JsonVal.eq_of_strictEq hyes.1.2⟩).mp
            (JsonVal.eq_of_strictEq hyes.2) _ List.mem_cons_self
        exact absurd hsilent (by decide +kernel)

end Ground

end DtnCustody
