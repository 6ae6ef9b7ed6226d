/-
# DtnCustody.Relief.Intact — the entry of a report, frame after frame, where nothing throws.

`Intact` says where what an entry holds came from: its manifest and its chunks from frames that can be
taken, the bytes in its destination from chunks that passed under the manifest. Every step on an entry
returns and keeps it so (`Intact.check` to `Intact.takeChunk`). A destination that can be put together has
exactly the places of its chunks as keys, and what is marked `ok` is in it, so with as many marked chunks
as the manifest counts there is a first one (`first_chunk`).
-/
import DtnCustody.Relief.Digestible

namespace DtnCustody

open Base Js

namespace Relief

namespace Awaited

/-- A chunk is kept under the index it claims. -/
def AtIndex (k : Dest.Key) (c : Stored) : Prop :=
  ∃ n, k = Dest.keyOf (JsonVal.get? c.bundle "index") n

/-- What is stored later takes nothing away. -/
theorem has_store {d : Dest} {index : JsonVal} {bytes : Bytes} {k : Dest.Key}
    (h : d.chunks.has k = true) : (d.store index bytes).chunks.has k = true :=
  JsMap.has_iff.mpr (JsMap.mem_keys_set.mpr (Or.inl (JsMap.has_iff.mp h)))

end Awaited

variable (H : ReliefHost) (disk : Disk) (D : Set Directory) (id : JsonVal) (M : Json → Int → Prop)
  (C : Stored → Prop)

/-- A destination, and the manifest of the entry that it was made from. -/
structure Opened (e : Entry) (d : Dest) : Prop where
  manifest : e.manifest = some d.manifest
  truthy : d.manifest.truthy = true
  signed : ByClinic H D d.manifest e.manifestAt
  clinic : e.clinic = JsonVal.get? (d.manifest.get "meta") "clinic"
  held : ∀ k bytes, d.chunks.get? k = some bytes → ∃ c, C c ∧ Awaited.AtIndex k c ∧
    Dest.checkChunk H.toHost (d.manifest.get "root") c.bundle = .ok (.inr bytes)

/-- **What an entry holds came in frames that can be taken.** -/
structure Intact (e : Entry) : Prop where
  manifest : ∀ m, e.manifest = some m → m.truthy = true → M m e.manifestAt
  chunks : ∀ k c, e.chunks.get? k = some c → C { c with ok := false } ∧ Awaited.AtIndex k c
  unopened : e.dest = none → ∀ k c, e.chunks.get? k = some c → c.ok = false
  opened : ∀ d, e.dest = some d → Opened H D C e d
  marked : ∀ d k c, e.dest = some d → e.chunks.get? k = some c → c.ok = true →
    (∃ n, d.chunks.has (Dest.keyOf (JsonVal.get? c.bundle "index") n) = true) ∧
    ∃ bytes, Dest.checkChunk H.toHost (d.manifest.get "root") c.bundle = .ok (.inr bytes)
  report : ∀ r, e.report = some (.verified r) → Outcome.Returns (disk.save id r.fileName)

variable {H disk D id M C} {cfg : HubConfig}

/-! ## Parts of a check -/

theorem Intact.received {e : Entry} (h : Intact H disk D id M C e) {d : Dest} (hd : e.dest = some d)
    {c : Stored} (hc : C c) :
    Intact H disk D id M C { e with dest := some (d.receiveBundle H.toHost c.bundle).2 } := by
  have hopened := h.opened d hd
  rcases Dest.receiveBundle_cases H.toHost d c.bundle with ⟨bytes, hbytes, heq⟩ | heq
  · rw [heq]
    refine ⟨h.manifest, h.chunks, ?_, ?_, ?_, h.report⟩
    · intro hnone
      cases hnone
    · intro d' hd'
      cases hd'
      refine ⟨hopened.manifest, hopened.truthy, hopened.signed, hopened.clinic, ?_⟩
      intro k v hk
      by_cases hkey : k = Dest.keyOf (JsonVal.get? c.bundle "index") d.fresh
      · subst hkey
        have hv : some bytes = some v := (JsMap.get?_set_self _ _ _).symm.trans hk
        cases hv
        exact ⟨c, hc, ⟨d.fresh, rfl⟩, hbytes⟩
      · exact hopened.held k v ((JsMap.get?_set_ne _ hkey _).symm.trans hk)
    · intro d' k x hd' hx hok
      cases hd'
      obtain ⟨⟨n, hn⟩, hpass⟩ := h.marked d k x hd hx hok
      exact ⟨⟨n, Awaited.has_store hn⟩, hpass⟩
  · rw [heq, ← hd]
    exact h

theorem Intact.drop {e : Entry} (h : Intact H disk D id M C e) (k : Dest.Key) :
    Intact H disk D id M C (e.drop k) where
  manifest := h.manifest
  chunks := fun j c hj => h.chunks j c (JsMap.get?_of_delete hj)
  unopened := fun hnone j c hj => h.unopened hnone j c (JsMap.get?_of_delete hj)
  opened := fun d hd => by
    obtain ⟨hmanifest, htruthy, hsigned, hclinic, hheld⟩ := h.opened d hd
    exact ⟨hmanifest, htruthy, hsigned, hclinic, hheld⟩
  marked := fun d j c hd hj => h.marked d j c hd (JsMap.get?_of_delete hj)
  report := h.report

theorem Intact.mark {e : Entry} (h : Intact H disk D id M C e) {d : Dest} (hd : e.dest = some d)
    {k : Dest.Key} {c : Stored} (hc : e.chunks.get? k = some c)
    (hhas : ∃ n, d.chunks.has (Dest.keyOf (JsonVal.get? c.bundle "index") n) = true)
    (hpass : ∃ bytes, Dest.checkChunk H.toHost (d.manifest.get "root") c.bundle = .ok (.inr bytes)) :
    Intact H disk D id M C { e with chunks := e.chunks.set k { c with ok := true } } where
  manifest := h.manifest
  chunks := by
    intro j x hj
    by_cases hjk : j = k
    · subst hjk
      rw [JsMap.get?_set_self, Option.some.injEq] at hj
      subst hj
      exact h.chunks j c hc
    · rw [JsMap.get?_set_ne _ hjk] at hj
      exact h.chunks j x hj
  unopened := by
    intro hnone
    rw [hd] at hnone
    cases hnone
  opened := fun d' hd' => by
    obtain ⟨hmanifest, htruthy, hsigned, hclinic, hheld⟩ := h.opened d' hd'
    exact ⟨hmanifest, htruthy, hsigned, hclinic, hheld⟩
  marked := by
    intro d' j x hd' hj hok
    by_cases hjk : j = k
    · subst hjk
      rw [JsMap.get?_set_self, Option.some.injEq] at hj
      subst hj
      have hsame : some d = some d' := hd.symm.trans hd'
      cases hsame
      exact ⟨hhas, hpass⟩
    · rw [JsMap.get?_set_ne _ hjk] at hj
      exact h.marked d' j x hd' hj hok
  report := h.report

/-! ## Checking -/

/-- **One check returns**, and leaves the chunk marked or leaves none. -/
theorem Intact.check (hplain : PlainReport H disk cfg D id M C) {dir : Directory} (hdir : dir ∈ D)
    {now : Int} {s : Desk} (h : Intact H disk D id M C s.1) {k : Dest.Key} {c : Stored}
    (hc : s.1.chunks.get? k = some c) {d : Dest} (hd : s.1.dest = some d) :
    ∃ s', check H (cfg.under dir) now id k c d s = (.ok (), s') ∧ Intact H disk D id M C s'.1 ∧
      s'.1.dest ≠ none ∧ s'.1.manifest = s.1.manifest ∧
      (∀ j ≠ k, s'.1.chunks.get? j = s.1.chunks.get? j) ∧
      ∀ x, s'.1.chunks.get? k = some x → x.ok = true := by
  have hopened := h.opened d hd
  have hfrom := h.manifest _ hopened.manifest hopened.truthy
  obtain ⟨hheld, -⟩ := h.chunks k c hc
  have hreceived := h.received hd hheld
  obtain ⟨b, hb, hnull, hreadable⟩ := hplain.bundle _ _ _ hfrom hopened.signed hheld
  have hbundle : c.bundle = some b := hb
  have hchunk : Outcome.Returns (Dest.checkChunk H.toHost (d.manifest.get "root") c.bundle) := by
    rw [hbundle]
    exact (Dest.returns_checkChunk hnull).mpr hreadable
  -- a chunk that is dropped is not there, and the others are
  have hdropped : ∀ e : Entry, e.chunks = s.1.chunks →
      (∀ j ≠ k, (e.drop k).chunks.get? j = s.1.chunks.get? j) ∧
        ∀ x, (e.drop k).chunks.get? k = some x → x.ok = true := by
    intro e he
    unfold Entry.drop
    rw [he]
    refine ⟨fun j hj => JsMap.get?_delete_ne _ hj, fun x hx => ?_⟩
    rw [JsMap.get?_delete_self] at hx
    cases hx
  obtain ⟨verdict, hverdict⟩ := hchunk
  cases verdict with
  | inl refusal =>
      have hrecv := Dest.receiveBundle_refused H.toHost hverdict
      have hstep := hreceived.drop k
      rw [hrecv] at hstep
      obtain ⟨hothers, hgone⟩ := hdropped { s.1 with dest := some d } rfl
      refine ⟨(({ s.1 with dest := some d } : Entry).drop k, _), by simp only [Relief.check, hrecv]; rfl,
        hstep, ?_, rfl, hothers, hgone⟩
      exact Option.some_ne_none d
  | inr bytes =>
      have hrecv := Dest.receiveBundle_taken H.toHost hverdict
      rw [hrecv] at hreceived
      have hjudge := hplain.custody _ _ _ bytes hfrom hopened.signed hheld hverdict
      rw [← hopened.clinic] at hjudge
      obtain ⟨denial, hdenial⟩ : Outcome.Returns (judgeCustody H (cfg.under dir) s.1.clinic c) :=
        returns_judgeCustody hdir hjudge
      cases denial with
      | some denial =>
          obtain ⟨hothers, hgone⟩ := hdropped
            { s.1 with dest := some (d.store (JsonVal.get? c.bundle "index") bytes) } rfl
          refine ⟨(Entry.drop _ k, _), by simp only [Relief.check, hrecv, hdenial]; rfl, hreceived.drop k, ?_,
            rfl, hothers, hgone⟩
          exact Option.some_ne_none _
      | none =>
          have hstored : (d.store (JsonVal.get? c.bundle "index") bytes).chunks.has
              (Dest.keyOf (JsonVal.get? c.bundle "index") d.fresh) = true :=
            JsMap.has_iff.mpr (JsMap.mem_keys_set.mpr (.inr rfl))
          have hstep := hreceived.mark rfl hc ⟨d.fresh, hstored⟩ ⟨bytes, hverdict⟩
          refine ⟨(_, creditAll s.2 c), by simp only [Relief.check, hrecv, hdenial], hstep,
            Option.some_ne_none _, rfl, fun j hj => JsMap.get?_set_ne _ hj _, fun x hx => ?_⟩
          rw [JsMap.get?_set_self, Option.some.injEq] at hx
          rw [← hx]

/-- **The loop over the keys returns**, and leaves nothing at them that is not marked. -/
theorem Intact.checkAll (hplain : PlainReport H disk cfg D id M C) {dir : Directory} (hdir : dir ∈ D)
    {now : Int} {ks : List Dest.Key} : ∀ {s : Desk}, Intact H disk D id M C s.1 → s.1.dest ≠ none →
      (∀ k ∈ ks, s.1.chunks.has k = true) → ks.Nodup →
        ∃ s', checkAll H (cfg.under dir) now id ks s = (.ok (), s') ∧ Intact H disk D id M C s'.1 ∧
          s'.1.dest ≠ none ∧ s'.1.manifest = s.1.manifest ∧
          ∀ k c, s'.1.chunks.get? k = some c → c.ok = true ∨ (k ∉ ks ∧ s.1.chunks.get? k = some c) := by
  induction ks with
  | nil =>
      intro s h hd _ _
      exact ⟨s, rfl, h, hd, rfl, fun k c hk => .inr ⟨List.not_mem_nil, hk⟩⟩
  | cons k ks ih =>
      intro s h hdest hhas hnodup
      rw [List.forall_mem_cons] at hhas
      rw [List.nodup_cons] at hnodup
      obtain ⟨c, hc⟩ := Option.isSome_iff_exists.mp hhas.1
      obtain ⟨d, hd⟩ := Option.ne_none_iff_exists'.mp hdest
      by_cases hok : c.ok = true
      · obtain ⟨s', hrun, hintact, hdest', hman, hrest⟩ := ih h hdest hhas.2 hnodup.2
        refine ⟨s', ?_, hintact, hdest', hman, fun j x hx => ?_⟩
        · rw [Relief.checkAll, hc, hd]
          simp only [hok, if_true]
          exact hrun
        · rcases hrest j x hx with hxok | ⟨hj, hsame⟩
          · exact .inl hxok
          · by_cases hjk : j = k
            · rw [hjk, hc, Option.some.injEq] at hsame
              exact .inl (hsame ▸ hok)
            · exact .inr ⟨by simp [hjk, hj], hsame⟩
      · obtain ⟨s₁, hcheck, hintact₁, hdest₁, hman₁, hothers, hmarked⟩ :=
          @Intact.check H disk D id M C cfg hplain dir hdir now s h k c hc d hd
        have hhas₁ : ∀ j ∈ ks, s₁.1.chunks.has j = true := by
          intro j hj
          have hjk : j ≠ k := fun heq => hnodup.1 (heq ▸ hj)
          rw [JsMap.has, hothers j hjk]
          exact hhas.2 j hj
        obtain ⟨s', hrun, hintact, hdest', hman, hrest⟩ := ih hintact₁ hdest₁ hhas₁ hnodup.2
        refine ⟨s', ?_, hintact, hdest', hman.trans hman₁, fun j x hx => ?_⟩
        · rw [Relief.checkAll, hc, hd]
          simp only [hok, hcheck]
          exact hrun
        · rcases hrest j x hx with hxok | ⟨hj, hsame⟩
          · exact .inl hxok
          · by_cases hjk : j = k
            · subst hjk
              exact .inl (hmarked x hsame)
            · exact .inr ⟨by simp [hjk, hj], by rw [← hothers j hjk, hsame]⟩

/-! ## A payload -/

/-- What a destination puts together are its chunks, by number. -/
theorem parts_of_reassemble {d : Dest} {payload : Bytes} (h : d.reassemble = .ok payload) :
    ∃ parts : List Bytes, payload = parts.flatten ∧ parts.length = d.chunks.size ∧
      d.manifest.get "chunkCount" = some (.int (parts.length : Nat)) ∧
      ∀ (i : Nat) bytes, parts[i]? = some bytes → d.chunks.get? (Dest.place i) = some bytes := by
  unfold Dest.reassemble at h
  split at h
  · next hcomplete =>
    obtain ⟨parts, hparts, h⟩ := Outcome.bind_eq_ok.mp h
    cases h
    have hall := Outcome.mapM_eq_ok hparts
    have hlength : parts.length = d.chunks.size := by
      rw [← hall.length_eq, List.length_range]
    refine ⟨parts, rfl, hlength, ?_, fun i bytes hi => ?_⟩
    · rw [hlength]
      exact (JsonVal.eq_of_strictEq hcomplete).symm
    · obtain ⟨hlt, hbytes⟩ := List.getElem?_eq_some_iff.mp hi
      have hrange : i < (List.range d.chunks.size).length := by
        rw [List.length_range, ← hlength]
        exact hlt
      have hpart := hall.get (i := i) hrange hlt
      rw [List.get_eq_getElem, List.get_eq_getElem, List.getElem_range, hbytes] at hpart
      unfold Dest.part at hpart
      split at hpart
      · next b hb =>
        cases hpart
        exact hb
      · cases hpart
  · cases h

/-- As many keys as there are places, and all places are keys: every key is a place. -/
theorem places_of_keys {ν : Type} {m : JsMap Dest.Key ν}
    (hall : ∀ i < m.size, Dest.place i ∈ m.keys) : ∀ k ∈ m.keys, ∃ i < m.size, k = Dest.place i := by
  have hsub : (List.range m.size).map Dest.place ⊆ m.keys := by
    intro k hk
    obtain ⟨i, hi, rfl⟩ := List.mem_map.mp hk
    exact hall i (List.mem_range.mp hi)
  have hnodup : ((List.range m.size).map Dest.place).Nodup :=
    List.nodup_range.map Dest.place_injective
  have hperm := (List.subperm_of_subset hnodup hsub).perm_of_length_le (by
    rw [List.length_map, List.length_range, JsMap.size_eq_length_keys])
  intro k hk
  obtain ⟨i, hi, rfl⟩ := List.mem_map.mp (hperm.mem_iff.mpr hk)
  exact ⟨i, List.mem_range.mp hi, rfl⟩

/-- **With as many marked chunks as the manifest counts there is a first one.** -/
theorem first_chunk {e : Entry} (h : Intact H disk D id M C e) {d : Dest} (hd : e.dest = some d)
    (hmarked : ∀ k c, e.chunks.get? k = some c → c.ok = true) {payload : Bytes}
    (hpayload : d.reassemble = .ok payload) (hpos : 0 < d.chunks.size)
    (hsize : d.chunks.size ≤ e.chunks.size) : ∃ c, e.chunks.get? (Dest.place 0) = some c ∧
      JsonVal.get? c.bundle "index" = some (.int 0) := by
  obtain ⟨parts, -, hlength, -, hparts⟩ := parts_of_reassemble hpayload
  have hplaces : ∀ k ∈ d.chunks.keys, ∃ i < d.chunks.size, k = Dest.place i := by
    apply places_of_keys
    intro i hi
    have hlt : i < parts.length := hlength ▸ hi
    exact JsMap.mem_keys_iff.mpr ⟨_, hparts i parts[i] (List.getElem?_eq_getElem hlt)⟩
  -- a marked chunk has the index that it has in the destination
  have hindex : ∀ k c, e.chunks.get? k = some c → ∃ i < d.chunks.size, k = Dest.place i ∧
      JsonVal.get? c.bundle "index" = some (.int (i : Nat)) := by
    intro k c hc
    obtain ⟨⟨n, hn⟩, -⟩ := h.marked d k c hd hc (hmarked k c hc)
    obtain ⟨i, hi, hkey⟩ := hplaces _ (JsMap.has_iff.mp hn)
    have hvalue : JsonVal.get? c.bundle "index" = some (.int (i : Nat)) :=
      eq_valueOf (keyOf_prim hkey)
    obtain ⟨n', hk⟩ := (h.chunks k c hc).2
    refine ⟨i, hi, ?_, hvalue⟩
    have hk' : k = Dest.keyOf (JsonVal.get? c.bundle "index") n' := hk
    rw [hk', hvalue]
    rfl
  have hkeys : ∀ k ∈ e.chunks.keys, ∃ i < d.chunks.size, k = Dest.place i := by
    intro k hk
    obtain ⟨c, hc⟩ := JsMap.mem_keys_iff.mp hk
    obtain ⟨i, hi, hkey, -⟩ := hindex k c hc
    exact ⟨i, hi, hkey⟩
  obtain ⟨c, hc⟩ := JsMap.mem_keys_iff.mp (Dest.mem_keys_of_size hkeys hsize hpos)
  obtain ⟨i, -, hkey, hvalue⟩ := hindex _ c hc
  rw [← Dest.place_injective hkey] at hvalue
  exact ⟨c, hc, hvalue⟩

/-! ## Finalizing -/

theorem makeReport_ok {cfg : HubConfig} {now : Int} {e : Entry} {m file : Json} {bytes : Bytes}
    {name : JsString} (hname : file.get "name" = some (.str name)) {c : Stored} {rs : List Json}
    (hc : e.chunks.get? (Dest.place 0) = some c) (hrs : c.custody = some (.arr rs)) (hc' : Timely c)
    {createdAt : JsonVal} (hcreated : JsonVal.get (m.get "meta") "createdAt" = .ok createdAt)
    (hprint : JsonVal.printable createdAt = true) :
    ∃ r, makeReport H cfg now e m file bytes = .ok r ∧ r.fileName = some (.str name) := by
  obtain ⟨bundle, custody, arrivedAt, ok⟩ := c
  dsimp only at hrs
  subst hrs
  obtain ⟨hops, hhops⟩ : Outcome.Returns (hopsFrom H cfg arrivedAt e.clinic createdAt rs) :=
    returns_hopsFrom (hc' rs rfl) hprint
  have htext : JsonVal.toStr H.toNode (some (.str name)) = .ok name := rfl
  unfold makeReport
  have hc0 : e.chunks.get? (.prim (.int 0)) = some ⟨bundle, some (.arr rs), arrivedAt, ok⟩ := hc
  simp only [JsonVal.get_of_get hname, Outcome.ok_bind, htext, hc0, hcreated, hhops, Outcome.pure_eq_ok]
  exact ⟨_, rfl, rfl⟩

/-- A change to an entry that leaves its manifest, destination and chunks alone. -/
theorem Intact.same {e e' : Entry} (h : Intact H disk D id M C e) (hmanifest : e'.manifest = e.manifest)
    (hat : e'.manifestAt = e.manifestAt) (hdest : e'.dest = e.dest) (hclinic : e'.clinic = e.clinic)
    (hchunks : e'.chunks = e.chunks)
    (hreport : ∀ r, e'.report = some (.verified r) → Outcome.Returns (disk.save id r.fileName)) :
    Intact H disk D id M C e' where
  manifest := by
    rw [hmanifest, hat]
    exact h.manifest
  chunks := by
    rw [hchunks]
    exact h.chunks
  unopened := by
    rw [hdest, hchunks]
    exact h.unopened
  opened := by
    intro d hd
    rw [hdest] at hd
    obtain ⟨hm, htruthy, hsigned, hc, hheld⟩ := h.opened d hd
    exact ⟨hmanifest.trans hm, htruthy, hat ▸ hsigned, hclinic.trans hc, hheld⟩
  marked := by
    rw [hdest, hchunks]
    exact h.marked
  report := hreport

/-- Nothing is sealed in no bytes. -/
theorem openAt_nil (hkey : H.importPublic [] = none) (priv aad : Bytes) :
    Seal.openAt H priv [] aad = none := by
  unfold Seal.openAt
  simp [hkey]

theorem Intact.conclude (hplain : PlainReport H disk cfg D id M C) (hkey : H.importPublic [] = none)
    {dir : Directory} {now : Int} {s : Desk} (h : Intact H disk D id M C s.1) {d : Dest}
    (hd : s.1.dest = some d) (hmarked : ∀ k c, s.1.chunks.get? k = some c → c.ok = true)
    (hsize : JsonVal.lt H.toNode (some (.int s.1.chunks.size)) (d.manifest.get "chunkCount") = .ok false) :
    ∃ s', conclude H (cfg.under dir) now id d.manifest d s = (.ok (), s') ∧
      Intact H disk D id M C s'.1 := by
  have hopened := h.opened d hd
  have hfrom := h.manifest _ hopened.manifest hopened.truthy
  unfold Relief.conclude
  split
  · refine ⟨_, rfl, h.same rfl rfl rfl rfl rfl fun r hr => ?_⟩
    cases hr
  · next file bytes hopen =>
    obtain ⟨payload, hpayload, hopen⟩ := Option.bind_eq_some_iff.mp hopen
    obtain ⟨aad, haad, hopen⟩ := Option.bind_eq_some_iff.mp hopen
    have hreassemble : d.reassemble = .ok payload := by
      cases hr : d.reassemble with
      | error e =>
          rw [hr] at hpayload
          cases hpayload
      | ok p =>
          rw [hr] at hpayload
          cases hpayload
          rfl
    have hbuffer : JsonVal.toBuffer H.toHost toUtf8 id = .ok aad := by
      cases hb : JsonVal.toBuffer H.toHost toUtf8 id with
      | error e =>
          rw [hb] at haad
          cases haad
      | ok p =>
          rw [hb] at haad
          cases haad
          rfl
    have hunpack : (Seal.openAt H cfg.encPriv payload aad).bind (unpackFile H) = some (file, bytes) := hopen
    obtain ⟨parts, rfl, hlength, hcount, hparts⟩ := parts_of_reassemble hreassemble
    have hne : parts ≠ [] := by
      rintro rfl
      rw [List.flatten_nil, openAt_nil hkey] at hunpack
      cases hunpack
    have hpos : 0 < d.chunks.size := by
      rw [← hlength]
      exact List.length_pos_iff.mpr hne
    have hle : d.chunks.size ≤ s.1.chunks.size := by
      rw [hcount, lt_int, Except.ok.injEq, decide_eq_false_iff_not, not_lt, Nat.cast_le] at hsize
      rw [← hlength]
      exact hsize
    obtain ⟨name, hname, hsave⟩ := hplain.file _ _ parts hfrom hopened.signed hne hcount
      (fun i bytes hi => by
        obtain ⟨c, hc, ⟨n, hkey'⟩, hpass⟩ := hopened.held _ _ (hparts i bytes hi)
        exact ⟨c, hc, eq_valueOf (keyOf_prim hkey'.symm), hpass⟩)
      aad file bytes hbuffer hunpack
    obtain ⟨c, hc, hindex⟩ := first_chunk h hd hmarked hreassemble hpos hle
    obtain ⟨-, pass, hpass⟩ := h.marked d _ c hd hc (hmarked _ c hc)
    have hheld := (h.chunks _ c hc).1
    obtain ⟨rs, hrs, -⟩ := hplain.custody _ _ _ pass hfrom hopened.signed hheld hpass
    have htimely := hplain.timely _ _ _ pass hfrom hopened.signed hheld hpass hindex
    obtain ⟨createdAt, hcreated, hprint⟩ := (hplain.manifest _ _ hfrom).createdAt hopened.signed
    obtain ⟨r, hr, hfile⟩ := @makeReport_ok H (cfg.under dir) now s.1 d.manifest file bytes name hname c rs
      hc hrs htimely createdAt hcreated hprint
    rw [hr]
    refine ⟨_, rfl, h.same rfl rfl rfl rfl rfl fun r' hr' => ?_⟩
    cases hr'
    rw [hfile]
    exact hsave

theorem Intact.settle (hplain : PlainReport H disk cfg D id M C) (hkey : H.importPublic [] = none)
    {dir : Directory} (hdir : dir ∈ D) {now : Int} {s : Desk} (h : Intact H disk D id M C s.1)
    (hdest : s.1.dest ≠ none) {m : Json} (hm : s.1.manifest = some m) :
    ∃ s', settle H (cfg.under dir) now id m s = (.ok (), s') ∧ Intact H disk D id M C s'.1 := by
  obtain ⟨s₁, hrun, h₁, hdest₁, hman₁, hrest⟩ :=
    @Intact.checkAll H disk D id M C cfg hplain dir hdir now s.1.chunks.keys s h hdest
      (fun k hk => JsMap.has_iff.mpr hk) s.1.chunks.nodup
  have hmarked : ∀ k c, s₁.1.chunks.get? k = some c → c.ok = true := by
    intro k c hc
    rcases hrest k c hc with hok | ⟨hnot, hold⟩
    · exact hok
    · exact absurd (JsMap.mem_keys_iff.mpr ⟨c, hold⟩) hnot
  obtain ⟨d, hd⟩ := Option.ne_none_iff_exists'.mp hdest₁
  have hopened := h₁.opened d hd
  have hmd : m = d.manifest := Option.some.inj (hm.symm.trans (hman₁.symm.trans hopened.manifest))
  subst hmd
  have hcount := (hplain.manifest _ _ (h₁.manifest _ hopened.manifest hopened.truthy)).chunkCount
    hopened.signed
  obtain ⟨b, hb⟩ : Outcome.Returns (JsonVal.lt H.toNode (some (.int s₁.1.chunks.size))
      (d.manifest.get "chunkCount")) := by
    apply Outcome.returns_bind.mpr
    refine ⟨⟨_, rfl⟩, fun p _ => ?_⟩
    rw [Outcome.returns_map]
    exact (JsonVal.returns_toPrim _).mpr hcount
  unfold Relief.settle
  rw [hrun]
  dsimp only
  rw [hb, hd]
  cases b with
  | true => exact ⟨s₁, rfl, h₁⟩
  | false => exact h₁.conclude hplain hkey hd hmarked hb

theorem returns_openDest {cfg : HubConfig} {m : Json} {t : Int}
    (h : JsonVal.printable (JsonVal.get? (m.get "meta") "clinic") = true) :
    Outcome.Returns (openDest H cfg m t) := by
  unfold openDest
  rw [Outcome.returns_bind]
  constructor
  · unfold keyAt
    split
    · exact Outcome.returns_ok _
    · rw [Outcome.returns_map]
      exact (JsonVal.returns_toStr _).mpr h
  · intro pin _
    split
    · exact Outcome.returns_pure _
    · split
      · exact Outcome.returns_pure _
      · split
        · exact Outcome.returns_pure _
        · exact Outcome.returns_pure _
        · exact Outcome.returns_pure _

/-- A manifest that is opened is a clinic's, and nothing has been received. -/
theorem Intact.open {e : Entry} (h : Intact H disk D id M C e) {dir : Directory} (hdir : dir ∈ D)
    {m : Json} (hm : e.manifest = some m) (htruthy : m.truthy = true) (hnone : e.dest = none) {d : Dest}
    (hd : openDest H (cfg.under dir) m e.manifestAt = .ok (.inr d)) :
    Intact H disk D id M C
      { e with clinic := JsonVal.get? (m.get "meta") "clinic", dest := some d } := by
  have hman : d.manifest = m := openDest_manifest hd
  have hempty : d.chunks = JsMap.empty := by
    obtain ⟨pin, -, hd⟩ := Outcome.bind_eq_ok.mp hd
    split at hd
    · cases hd
    · split at hd
      · cases hd
      · split at hd
        · next d' hd' =>
          cases hd
          exact (Dest.makeDest_ok H.toHost hd').2
        · cases hd
        · cases hd
  refine ⟨h.manifest, h.chunks, ?_, ?_, ?_, h.report⟩
  · intro hd'
    cases hd'
  · intro d' hd'
    cases hd'
    subst hman
    refine ⟨hm, htruthy, ⟨dir, hdir, openDest_signed hd⟩, rfl, fun k bytes hk => ?_⟩
    rw [hempty, JsMap.get?_empty] at hk
    cases hk
  · intro d' k c _ hc hok
    rw [h.unopened hnone k c hc] at hok
    cases hok

theorem Intact.finalize (hplain : PlainReport H disk cfg D id M C) (hkey : H.importPublic [] = none)
    {dir : Directory} (hdir : dir ∈ D) {now : Int} {s : Desk} (h : Intact H disk D id M C s.1) :
    ∃ s', finalize H (cfg.under dir) now id s = (.ok (), s') ∧ Intact H disk D id M C s'.1 := by
  unfold Relief.finalize
  split
  · next m hm hreport =>
    split
    · exact ⟨s, rfl, h⟩
    · next htruthy =>
      rw [Bool.not_eq_false] at htruthy
      split
      · next d hd => exact h.settle hplain hkey hdir (by rw [hd]; exact Option.some_ne_none d) hm
      · next hnone =>
        have hclinic := (hplain.manifest _ _ (h.manifest m hm htruthy)).clinic
        obtain ⟨r, hr⟩ := @returns_openDest H (cfg.under dir) m s.1.manifestAt hclinic
        dsimp only
        rw [hr]
        cases r with
        | inl reason =>
            refine ⟨_, rfl, ?_, h.chunks, h.unopened, ?_, ?_, h.report⟩
            · intro m' hm' htruthy'
              cases hm'
              cases htruthy'
            · intro d hd
              rw [hnone] at hd
              cases hd
            · intro d k c hd
              rw [hnone] at hd
              cases hd
        | inr d =>
            exact (h.open hdir hm htruthy hnone hr).settle hplain hkey hdir (Option.some_ne_none d) hm
  · exact ⟨s, rfl, h⟩

/-! ## Frames -/

theorem Intact.takeManifest (hplain : PlainReport H disk cfg D id M C) (hkey : H.importPublic [] = none)
    {dir : Directory} (hdir : dir ∈ D) {now : Int} {s : Desk} (h : Intact H disk D id M C s.1) {f : Json}
    {t : Int} (hf : ∀ m, f.get "manifest" = some m → m.truthy = true → M m t) :
    ∃ s', takeManifest H (cfg.under dir) now id f t s = (.ok (), s') ∧
      Intact H disk D id M C s'.1 := by
  have htouch : Intact H disk D id M C (s.1.touch f t) := h.same rfl rfl rfl rfl rfl h.report
  unfold Relief.takeManifest
  dsimp only
  split
  · exact htouch.finalize hplain hkey hdir
  · next hfalsy =>
    apply Intact.finalize hplain hkey hdir
    -- a destination comes of a manifest that is still there
    have hnone : ∀ d, (s.1.touch f t).dest ≠ some d := by
      intro d hd
      have hopened := htouch.opened d hd
      rw [hopened.manifest] at hfalsy
      exact hfalsy hopened.truthy
    exact ⟨hf, htouch.chunks, htouch.unopened, fun d hd => absurd hd (hnone d),
      fun d k c hd => absurd hd (hnone d), htouch.report⟩

/-- The receipts of a plain chunk have their hops. -/
theorem PlainChunk.returns_routeOf {f : Json} (hf : PlainChunk f) :
    Outcome.Returns (routeOf (f.get "custody")) := by
  unfold routeOf
  rw [Outcome.returns_ite]
  refine ⟨fun _ => Outcome.returns_ok _, fun hlength => ?_⟩
  rw [Bool.not_eq_false] at hlength
  obtain ⟨rs, hrs, hall⟩ := hf.custody hlength
  rw [hrs] at hlength ⊢
  cases rs with
  | nil => cases hlength
  | cons r rest =>
      have hmap : ∀ rs : List Json, (∀ r ∈ rs, r ≠ .null) →
          Outcome.Returns (rs.mapM fun r => JsonVal.get (some r) "thisHop") := by
        intro rs
        induction rs with
        | nil => exact fun _ => Outcome.returns_ok _
        | cons r rest ih =>
            intro hall
            rw [List.forall_mem_cons] at hall
            rw [List.mapM_cons, Outcome.returns_bind]
            refine ⟨JsonVal.returns_get.mpr ⟨r, rfl, hall.1⟩, fun v _ => ?_⟩
            rw [Outcome.returns_map]
            exact ih hall.2
      rw [Outcome.returns_bind]
      refine ⟨JsonVal.returns_get.mpr ⟨r, rfl, hall r List.mem_cons_self⟩, fun source _ => ?_⟩
      dsimp only
      rw [Outcome.returns_map]
      exact hmap _ hall

/-- What the code reads of a chunk frame before it is parked is there. -/
theorem takeChunk_plain {cfg : HubConfig} {now : Int} {s : Desk} {f : Json} {t : Int}
    (hf : PlainChunk f) : ∃ e, SameReport s.1 e ∧
      (takeChunk H cfg now id f t s = (.ok (), e, { s.2 with duplicates := s.2.duplicates + 1 }) ∨
        ∃ n, takeChunk H cfg now id f t s = finalize H cfg now id
          (e.park (Dest.keyOf (JsonVal.get? (f.get "bundle") "index") n) (storedOf f t), s.2)) := by
  obtain ⟨b, hb, hnull⟩ := hf.bundle
  obtain ⟨w, hw⟩ := JsonVal.returns_get.mpr ⟨b, hb, hnull⟩
  obtain ⟨route, hroute⟩ := hf.returns_routeOf
  obtain ⟨e, hsame, ⟨err, hthrown | hthrown, _⟩ | heq | ⟨index, n, hindex, heq⟩⟩ :=
    takeChunk_cases H cfg now id f t s
  · rw [hroute] at hthrown
    cases hthrown
  · rw [hw] at hthrown
    cases hthrown
  · exact ⟨e, hsame, .inl heq⟩
  · refine ⟨e, hsame, .inr ⟨n, ?_⟩⟩
    rw [heq, get_eq_get? hindex]

theorem Intact.takeChunk (hplain : PlainReport H disk cfg D id M C) (hkey : H.importPublic [] = none)
    {dir : Directory} (hdir : dir ∈ D) {now : Int} {s : Desk} (h : Intact H disk D id M C s.1) {f : Json}
    {t : Int} (hf : PlainChunk f) (hc : C (storedOf f t)) :
    ∃ s', takeChunk H (cfg.under dir) now id f t s = (.ok (), s') ∧ Intact H disk D id M C s'.1 := by
  obtain ⟨e, hsame, hcases⟩ := @takeChunk_plain H id (cfg.under dir) now s f t hf
  have he : Intact H disk D id M C e :=
    h.same hsame.manifest hsame.manifestAt hsame.dest hsame.clinic hsame.chunks (by
      rw [hsame.report]
      exact h.report)
  rcases hcases with heq | ⟨n, heq⟩
  · exact ⟨_, heq, he⟩
  · rw [heq]
    apply Intact.finalize hplain hkey hdir
    have hset : ∀ k x, (e.park (Dest.keyOf (JsonVal.get? (f.get "bundle") "index") n)
        (storedOf f t)).chunks.get? k = some x → e.chunks.get? k = some x ∨
          (x = storedOf f t ∧ k = Dest.keyOf (JsonVal.get? (f.get "bundle") "index") n) := by
      intro k x hx
      by_cases hk : k = Dest.keyOf (JsonVal.get? (f.get "bundle") "index") n
      · subst hk
        have hx' : some (storedOf f t) = some x := (JsMap.get?_set_self _ _ _).symm.trans hx
        exact .inr ⟨(Option.some.inj hx').symm, rfl⟩
      · exact .inl ((JsMap.get?_set_ne _ hk _).symm.trans hx)
    refine ⟨he.manifest, ?_, ?_, ?_, ?_, he.report⟩
    · intro k x hx
      rcases hset k x hx with hx | ⟨rfl, rfl⟩
      · exact he.chunks k x hx
      · exact ⟨hc, n, rfl⟩
    · intro hnone k x hx
      rcases hset k x hx with hx | ⟨rfl, rfl⟩
      · exact he.unopened hnone k x hx
      · rfl
    · intro d hd
      obtain ⟨hmanifest, htruthy, hsigned, hclinic, hheld⟩ := he.opened d hd
      exact ⟨hmanifest, htruthy, hsigned, hclinic, hheld⟩
    · intro d k x hd hx hok
      rcases hset k x hx with hx | ⟨rfl, rfl⟩
      · exact he.marked d k x hd hx hok
      · cases hok

end Relief

end DtnCustody
