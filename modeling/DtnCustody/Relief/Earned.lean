/-
# DtnCustody.Relief.Earned — where what the hub pays for comes from.

Whatever a run of frames leaves on the books goes back to two frames of that run for one report: a
manifest that the hub opened, and a chunk that passed under it, with the receipt that names the relay
(`Credit`). The hub judges a chunk long after it came, so this is followed from frame to entry
(`Sourced`), and from entry to books (`BooksEarned`).

`earned`: every identifier in `paidIds` is earned by a relay of that name, and each is there once.
-/
import DtnCustody.Relief.Hub

namespace DtnCustody

open Base Js

namespace Relief

variable (H : ReliefHost) (cfg : HubConfig) (xs : List Arrival)

/-! ## Credits -/

/-- A manifest frame of the run, for the report `p`. -/
def ManifestIn (p : Prim) (m : Json) (t : Int) : Prop :=
  ∃ x ∈ xs, ∃ f, dec H x.buf = some f ∧ JsonVal.isText (f.get "kind") "manifest" = true ∧
    JsonVal.key? (payloadOf f) = some p ∧ f.get "manifest" = some m ∧ x.arrivedAt = t

/-- A chunk frame of the run, for the report `p`; whether it has been checked is left out. -/
def ChunkIn (p : Prim) (c : Stored) : Prop :=
  ∃ x ∈ xs, ∃ f, dec H x.buf = some f ∧ JsonVal.isText (f.get "kind") "chunk" = true ∧
    JsonVal.key? (payloadOf f) = some p ∧ { c with ok := false } = storedOf f x.arrivedAt

/-- A receipt `rec` of a chunk `c` that passed under the manifest `m` of the report `p`. -/
structure Credit (p : Prim) (m : Json) (t : Int) (c : Stored) (rec : Json) : Prop where
  manifest : ManifestIn H xs p m t
  opened : ∃ d, openDest H cfg m t = .ok (.inr d)
  chunk : ChunkIn H xs p c
  leaf : ∃ bytes, Dest.checkChunk H.toHost (m.get "root") c.bundle = .ok (.inr bytes)
  audited : judgeCustody H cfg (JsonVal.get? (m.get "meta") "clinic") c = .ok none
  signed : ∃ rs, c.custody = some (.arr rs) ∧ rec ∈ rs

/-- The bundle `id` is earned by `relay`. -/
def Earned (relay : JsonVal) (id : Prim) : Prop :=
  ∃ p m t c rec, Credit H cfg xs p m t c rec ∧ rec.get "thisHop" = relay ∧
    JsonVal.key? (JsonVal.get? c.bundle "bundleId") = some id

/-! ## Books and entries -/

/-- What is on the books is earned, by the relay it is kept for. -/
structure BooksEarned (b : Books) : Prop where
  earned : ∀ k o, b.paid.get? k = some o → ∀ id ∈ o.ids, Earned H cfg xs o.relay id
  nodup : ∀ k o, b.paid.get? k = some o → o.ids.Nodup
  kept : ∀ p o, b.paid.get? (.prim p) = some o → JsonVal.key? o.relay = some p
  fresh : ∀ n o, b.paid.get? (.ref n) = some o → n < b.fresh

/-- What an entry holds came in frames of its report. -/
structure Sourced (p : Prim) (e : Entry) : Prop where
  manifest : ∀ m, e.manifest = some m → m.truthy = true → ManifestIn H xs p m e.manifestAt
  dest : ∀ d, e.dest = some d → ∃ m d₀, e.manifest = some m ∧ m.truthy = true ∧ d.manifest = m ∧
    e.clinic = JsonVal.get? (m.get "meta") "clinic" ∧ openDest H cfg m e.manifestAt = .ok (.inr d₀)
  chunks : ∀ k c, e.chunks.get? k = some c → ChunkIn H xs p c

variable {H cfg xs}

/-- The value that a primitive is. -/
def valueOf : Prim → JsonVal
  | .undef => none
  | .null => some .null
  | .bool b => some (.bool b)
  | .num x => some (.num x)
  | .str s => some (.str s)
  | .big _ => none

theorem eq_valueOf {v : JsonVal} {p : Prim} (h : JsonVal.key? v = some p) : v = valueOf p := by
  cases v with
  | none => cases h; rfl
  | some v => cases v <;> cases h <;> rfl

theorem key?_injective {v w : JsonVal} {p : Prim} (hv : JsonVal.key? v = some p)
    (hw : JsonVal.key? w = some p) : v = w := (eq_valueOf hv).trans (eq_valueOf hw).symm

theorem keyOf_prim {v : JsonVal} {n : Nat} {p : Prim} (h : Dest.keyOf v n = .prim p) :
    JsonVal.key? v = some p := by
  unfold Dest.keyOf at h
  split at h
  · next q hq => rw [hq, Dest.Key.prim.inj h]
  · cases h

theorem keyOf_ref {v : JsonVal} {n k : Nat} (h : Dest.keyOf v n = .ref k) :
    JsonVal.key? v = none ∧ k = n := by
  unfold Dest.keyOf at h
  split at h
  · cases h
  · next hq => exact ⟨hq, (Dest.Key.ref.inj h).symm⟩

theorem BooksEarned.refuse {b : Books} (h : BooksEarned H cfg xs b) (r : Refusal) :
    BooksEarned H cfg xs (b.refuse r) := ⟨h.earned, h.nodup, h.kept, h.fresh⟩

/-- **A credit**: for a receipt of a chunk that passed. -/
theorem BooksEarned.credit {b : Books} (h : BooksEarned H cfg xs b) {p : Prim} {m : Json} {t : Int}
    {c : Stored} {rec : Json} (hcredit : Credit H cfg xs p m t c rec) :
    BooksEarned H cfg xs (b.credit (rec.get "thisHop") (JsonVal.get? c.bundle "bundleId")) := by
  -- what was kept for the relay before, under the same value
  have hold : ∀ o, b.paid.get? (Dest.keyOf (rec.get "thisHop") b.fresh) = some o →
      o.relay = rec.get "thisHop" := by
    intro o ho
    cases hk : Dest.keyOf (rec.get "thisHop") b.fresh with
    | prim q =>
        rw [hk] at ho
        exact key?_injective (h.kept q o ho) (keyOf_prim hk)
    | ref n =>
        rw [hk] at ho
        exact absurd (h.fresh n o ho) (by rw [(keyOf_ref hk).2]; exact Nat.lt_irrefl _)
  generalize hrelay : rec.get "thisHop" = relay at hold ⊢
  generalize hkey : Dest.keyOf relay b.fresh = k at hold
  -- the entry that is written
  obtain ⟨o, hget, horelay, hids, hnodup⟩ : ∃ o,
      (b.credit relay (JsonVal.get? c.bundle "bundleId")).paid = b.paid.set k o ∧ o.relay = relay ∧
        (∀ id ∈ o.ids, Earned H cfg xs relay id) ∧ o.ids.Nodup := by
    have hbefore : ∀ o, b.paid.get? k = some o → (∀ id ∈ o.ids, Earned H cfg xs relay id) ∧
        o.ids.Nodup := by
      intro o ho
      rw [← hold o ho]
      exact ⟨h.earned k o ho, h.nodup k o ho⟩
    have hfirst : (∀ id ∈ ((b.paid.get? k).getD { relay, ids := [] }).ids,
        Earned H cfg xs relay id) ∧ ((b.paid.get? k).getD { relay, ids := [] }).ids.Nodup ∧
        ((b.paid.get? k).getD { relay, ids := [] }).relay = relay := by
      cases ho : b.paid.get? k with
      | none => exact ⟨fun _ hid => absurd hid List.not_mem_nil, List.nodup_nil, rfl⟩
      | some o => exact ⟨(hbefore o ho).1, (hbefore o ho).2, hold o ho⟩
    unfold Books.credit
    rw [hkey]
    refine ⟨_, rfl, hfirst.2.2, ?_⟩
    dsimp only
    cases hid : JsonVal.key? (JsonVal.get? c.bundle "bundleId") with
    | none => exact ⟨hfirst.1, hfirst.2.1⟩
    | some id =>
        dsimp only
        split
        · exact ⟨hfirst.1, hfirst.2.1⟩
        · next hnew =>
          refine ⟨?_, ?_⟩
          · intro i hi
            rcases List.mem_append.mp hi with hi | hi
            · exact hfirst.1 i hi
            · rw [List.mem_singleton.mp hi]
              exact ⟨p, m, t, c, rec, hcredit, hrelay, hid⟩
          · apply List.Nodup.append hfirst.2.1 (List.nodup_singleton id)
            simpa using hnew
  have hfresh : (b.credit relay (JsonVal.get? c.bundle "bundleId")).fresh = b.fresh + 1 := rfl
  have hcases : ∀ j x, (b.paid.set k o).get? j = some x → (j = k ∧ x = o) ∨ b.paid.get? j = some x := by
    intro j x hx
    by_cases hj : j = k
    · subst hj
      rw [JsMap.get?_set_self, Option.some.injEq] at hx
      exact Or.inl ⟨rfl, hx.symm⟩
    · rw [JsMap.get?_set_ne _ hj] at hx
      exact Or.inr hx
  refine ⟨?_, ?_, ?_, ?_⟩
  · intro j x hx
    rw [hget] at hx
    rcases hcases j x hx with ⟨-, rfl⟩ | hx
    · rw [horelay]
      exact hids
    · exact h.earned j x hx
  · intro j x hx
    rw [hget] at hx
    rcases hcases j x hx with ⟨-, rfl⟩ | hx
    · exact hnodup
    · exact h.nodup j x hx
  · intro q x hx
    rw [hget] at hx
    rcases hcases (.prim q) x hx with ⟨hk, rfl⟩ | hx
    · rw [horelay]
      exact keyOf_prim (hkey.trans hk.symm)
    · exact h.kept q x hx
  · intro n x hx
    rw [hget] at hx
    rw [hfresh]
    rcases hcases (.ref n) x hx with ⟨hk, -⟩ | hx
    · rw [(keyOf_ref (hkey.trans hk.symm)).2]
      exact Nat.lt_succ_self _
    · exact Nat.lt_succ_of_lt (h.fresh n x hx)

theorem BooksEarned.creditAll {b : Books} (h : BooksEarned H cfg xs b) {p : Prim} {m : Json} {t : Int}
    {c : Stored} (hcredit : ∀ rs, c.custody = some (.arr rs) → ∀ rec ∈ rs, Credit H cfg xs p m t c rec) :
    BooksEarned H cfg xs (creditAll b c) := by
  unfold Relief.creditAll
  split
  · next rs hrs =>
    have hall := hcredit rs hrs
    generalize rs = receipts at hall
    induction receipts generalizing b with
    | nil => exact h
    | cons rec rest ih =>
        rw [List.forall_mem_cons] at hall
        exact ih (h.credit hall.1) hall.2
  · exact h

/-! ## One report -/

/-- An entry and the books of one run. -/
def DeskEarned (H : ReliefHost) (cfg : HubConfig) (xs : List Arrival) (p : Prim) (s : Desk) : Prop :=
  Sourced H cfg xs p s.1 ∧ BooksEarned H cfg xs s.2

/-- A change to an entry that leaves the manifest and what came of it alone. -/
theorem Sourced.same {p : Prim} {e e' : Entry} (h : Sourced H cfg xs p e)
    (hmanifest : e'.manifest = e.manifest) (hat : e'.manifestAt = e.manifestAt)
    (hdest : e'.dest = e.dest) (hclinic : e'.clinic = e.clinic)
    (hchunks : ∀ k c, e'.chunks.get? k = some c → ChunkIn H xs p c) : Sourced H cfg xs p e' := by
  refine ⟨?_, ?_, hchunks⟩
  · rw [hmanifest, hat]
    exact h.manifest
  · rw [hmanifest, hat, hdest, hclinic]
    exact h.dest

/-- The destination after a bundle, which is for the same manifest. -/
theorem Sourced.received {p : Prim} {e : Entry} (h : Sourced H cfg xs p e) {d : Dest}
    (hd : e.dest = some d) (bundle : JsonVal) :
    Sourced H cfg xs p { e with dest := some (d.receiveBundle H.toHost bundle).2 } := by
  refine ⟨h.manifest, ?_, h.chunks⟩
  intro d' hd'
  obtain ⟨m, d₀, hm, htruthy, hman, hclinic, hopen⟩ := h.dest d hd
  refine ⟨m, d₀, hm, htruthy, ?_, hclinic, hopen⟩
  rw [← Option.some.inj hd', Dest.manifest_receiveBundle, hman]

theorem Sourced.drop {p : Prim} {e : Entry} (h : Sourced H cfg xs p e) (k : Dest.Key) :
    Sourced H cfg xs p (e.drop k) := by
  refine h.same rfl rfl rfl rfl ?_
  intro j c hj
  by_cases hjk : j = k
  · subst hjk
    exact absurd ((JsMap.get?_delete_self e.chunks j).symm.trans hj) (by simp)
  · exact h.chunks j c ((JsMap.get?_delete_ne e.chunks hjk).symm.trans hj)

theorem Sourced.setChunk {p : Prim} {e : Entry} (h : Sourced H cfg xs p e) {k : Dest.Key} {c : Stored}
    (hc : ChunkIn H xs p c) (n : Nat) :
    Sourced H cfg xs p { e with chunks := e.chunks.set k c, fresh := n } := by
  refine h.same rfl rfl rfl rfl ?_
  intro j x hj
  by_cases hjk : j = k
  · subst hjk
    rw [JsMap.get?_set_self, Option.some.injEq] at hj
    rw [← hj]
    exact hc
  · exact h.chunks j x ((JsMap.get?_set_ne e.chunks hjk _).symm.trans hj)

/-- **One check.** -/
theorem DeskEarned.check {p : Prim} {s : Desk} (h : DeskEarned H cfg xs p s) {now : Int} {id : JsonVal}
    {k : Dest.Key} {c : Stored} {d : Dest} (hc : s.1.chunks.get? k = some c) (hd : s.1.dest = some d) :
    DeskEarned H cfg xs p (check H cfg now id k c d s).2 := by
  have hentry := h.1.received hd c.bundle
  have hchunk := h.1.chunks k c hc
  obtain ⟨m, d₀, hm, htruthy, hman, hclinic, hopen⟩ := h.1.dest d hd
  unfold Relief.check
  dsimp only
  split
  · exact ⟨hentry, h.2⟩
  · exact ⟨hentry.drop k, h.2.refuse _⟩
  · next hpass =>
    obtain ⟨bytes, hbytes⟩ : ∃ bytes,
        Dest.checkChunk H.toHost (m.get "root") c.bundle = .ok (.inr bytes) := by
      unfold Dest.receiveBundle at hpass
      rw [hman] at hpass
      split at hpass
      · next bytes hbytes => exact ⟨bytes, hbytes⟩
      · cases hpass
      · cases hpass
    split
    · exact ⟨hentry, h.2⟩
    · exact ⟨hentry.drop k, h.2.refuse _⟩
    · next haudit =>
      rw [hclinic] at haudit
      have hmarked : ChunkIn H xs p { c with ok := true } := hchunk
      have hcredit : ∀ rs, c.custody = some (.arr rs) → ∀ rec ∈ rs,
          Credit H cfg xs p m s.1.manifestAt c rec := fun rs hrs rec hrec =>
        ⟨h.1.manifest m hm htruthy, ⟨d₀, hopen⟩, hchunk, ⟨bytes, hbytes⟩, haudit, rs, hrs, hrec⟩
      exact ⟨hentry.setChunk hmarked s.1.fresh, h.2.creditAll hcredit⟩

theorem DeskEarned.checkAll {p : Prim} {now : Int} {id : JsonVal} {ks : List Dest.Key} :
    ∀ {s : Desk}, DeskEarned H cfg xs p s → DeskEarned H cfg xs p (checkAll H cfg now id ks s).2 := by
  induction ks with
  | nil => exact fun h => h
  | cons k ks ih =>
      intro s h
      rw [Relief.checkAll]
      split
      · next c d hc hd =>
        split
        · exact ih h
        · have hnext := @DeskEarned.check H cfg xs p s h now id k c d hc hd
          split
          · next s' hs' =>
            rw [hs'] at hnext
            exact ih hnext
          · next e s' hs' =>
            rw [hs'] at hnext
            exact hnext
      · exact h

theorem DeskEarned.conclude {p : Prim} {s : Desk} (h : DeskEarned H cfg xs p s) {now : Int}
    {id : JsonVal} {m : Json} {d : Dest} :
    DeskEarned H cfg xs p (conclude H cfg now id m d s).2 := by
  unfold Relief.conclude
  split
  · exact ⟨h.1.same rfl rfl rfl rfl h.1.chunks, h.2.refuse _⟩
  · split
    · exact h
    · exact ⟨h.1.same rfl rfl rfl rfl h.1.chunks, h.2⟩

theorem DeskEarned.settle {p : Prim} {s : Desk} (h : DeskEarned H cfg xs p s) {now : Int}
    {id : JsonVal} {m : Json} : DeskEarned H cfg xs p (settle H cfg now id m s).2 := by
  have hall := @DeskEarned.checkAll H cfg xs p now id s.1.chunks.keys s h
  unfold Relief.settle
  split
  · next e s' hs' =>
    rw [hs'] at hall
    exact hall
  · next s' hs' =>
    rw [hs'] at hall
    split
    · exact hall
    · exact hall.conclude
    · exact hall

theorem openDest_manifest {m : Json} {t : Int} {d : Dest} (h : openDest H cfg m t = .ok (.inr d)) :
    d.manifest = m := by
  obtain ⟨pin, -, h⟩ := Outcome.bind_eq_ok.mp h
  split at h
  · cases h
  · split at h
    · cases h
    · split at h
      · next d' hd' =>
        cases h
        exact (Option.some.inj (Dest.makeDest_ok H.toHost hd').1).symm
      · cases h
      · cases h

theorem DeskEarned.finalize {p : Prim} {s : Desk} (h : DeskEarned H cfg xs p s) {now : Int}
    {id : JsonVal} : DeskEarned H cfg xs p (finalize H cfg now id s).2 := by
  unfold Relief.finalize
  split
  · next m hm hreport =>
    split
    · exact h
    · next htruthy =>
      rw [Bool.not_eq_false] at htruthy
      split
      · exact h.settle
      · next hnone =>
        dsimp only
        split
        · exact h
        · refine ⟨⟨?_, ?_, h.1.chunks⟩, h.2.refuse _⟩
          · intro m' hm' htruthy'
            cases hm'
            cases htruthy'
          · intro d hd
            rw [hnone] at hd
            cases hd
        · next d hd =>
          apply DeskEarned.settle
          refine ⟨⟨h.1.manifest, ?_, h.1.chunks⟩, h.2⟩
          intro d' hd'
          cases hd'
          exact ⟨m, d, hm, htruthy, openDest_manifest hd, rfl, hd⟩
  · exact h

/-! ## Frames -/

/-- A frame of the run, of a report whose identifier is no object. -/
structure FrameIn (H : ReliefHost) (xs : List Arrival) (p : Prim) (f : Json) (kind : String) (t : Int) :
    Prop where
  mem : ∃ x ∈ xs, dec H x.buf = some f ∧ x.arrivedAt = t
  isKind : JsonVal.isText (f.get "kind") kind = true
  key : JsonVal.key? (payloadOf f) = some p

theorem DeskEarned.takeManifest {p : Prim} {s : Desk} (h : DeskEarned H cfg xs p s) {now : Int}
    {id : JsonVal} {f : Json} {t : Int} (hf : FrameIn H xs p f "manifest" t) :
    DeskEarned H cfg xs p (takeManifest H cfg now id f t s).2 := by
  have htouch : Sourced H cfg xs p (s.1.touch f t) := h.1.same rfl rfl rfl rfl h.1.chunks
  unfold Relief.takeManifest
  dsimp only
  split
  · apply DeskEarned.finalize
    exact ⟨htouch, h.2.earned, h.2.nodup, h.2.kept, h.2.fresh⟩
  · next hfalsy =>
    apply DeskEarned.finalize
    refine ⟨⟨?_, ?_, htouch.chunks⟩, h.2⟩
    · intro m hm _
      obtain ⟨x, hx, hdec, ht⟩ := hf.mem
      exact ⟨x, hx, f, hdec, hf.isKind, hf.key, hm, ht⟩
    · intro d hd
      -- a destination comes of a manifest that is still there
      obtain ⟨m, d₀, hm, htruthy, -⟩ := htouch.dest d hd
      rw [hm] at hfalsy
      exact absurd htruthy hfalsy

/-- Two entries that differ in what is kept for resending. -/
structure SameReport (e e' : Entry) : Prop where
  manifest : e'.manifest = e.manifest
  manifestAt : e'.manifestAt = e.manifestAt
  dest : e'.dest = e.dest
  clinic : e'.clinic = e.clinic
  chunks : e'.chunks = e.chunks
  report : e'.report = e.report

variable (H cfg) in
/-- **What a chunk frame does**: it throws, it is a repeat, or the chunk is parked and the report
finalized. -/
theorem takeChunk_cases (now : Int) (id : JsonVal) (f : Json) (t : Int) (s : Desk) :
    ∃ e, SameReport s.1 e ∧
      ((∃ err, (routeOf (f.get "custody") = .error err ∨
          JsonVal.get (f.get "bundle") "index" = .error err) ∧
          takeChunk H cfg now id f t s = (.error err, e, s.2)) ∨
        takeChunk H cfg now id f t s = (.ok (), e, { s.2 with duplicates := s.2.duplicates + 1 }) ∨
        ∃ index n, JsonVal.get (f.get "bundle") "index" = .ok index ∧
          takeChunk H cfg now id f t s =
            finalize H cfg now id (e.park (Dest.keyOf index n) (storedOf f t), s.2)) := by
  unfold Relief.takeChunk
  dsimp only
  have horigin : ∀ b : Bool, SameReport s.1 (if b = true then s.1.touch f t
      else { s.1.touch f t with
        origin := JsonVal.get? (headOf (f.get "custody")) "prevHop" }) := by
    intro b
    cases b <;> exact ⟨rfl, rfl, rfl, rfl, rfl, rfl⟩
  have he := horigin (JsonVal.truthy (s.1.touch f t).clinic ||
    !JsonVal.truthy (JsonVal.get? (headOf (f.get "custody")) "prevHop"))
  generalize (if (JsonVal.truthy (s.1.touch f t).clinic ||
    !JsonVal.truthy (JsonVal.get? (headOf (f.get "custody")) "prevHop")) = true then _ else _) = e
      at he ⊢
  cases hroute : routeOf (f.get "custody") with
  | error err => exact ⟨e, he, Or.inl ⟨err, .inl rfl, rfl⟩⟩
  | ok route =>
      refine ⟨{ e with route := route.or e.route },
        ⟨he.manifest, he.manifestAt, he.dest, he.clinic, he.chunks, he.report⟩, ?_⟩
      cases hindex : JsonVal.get (f.get "bundle") "index" with
      | error err => exact Or.inl ⟨err, .inr rfl, rfl⟩
      | ok index =>
          dsimp only
          split
          · exact Or.inr (Or.inl rfl)
          · exact Or.inr (Or.inr ⟨index, _, rfl, rfl⟩)

theorem Sourced.sameReport {p : Prim} {e e' : Entry} (h : Sourced H cfg xs p e)
    (hsame : SameReport e e') : Sourced H cfg xs p e' := by
  refine h.same hsame.manifest hsame.manifestAt hsame.dest hsame.clinic ?_
  rw [hsame.chunks]
  exact h.chunks

theorem DeskEarned.takeChunk {p : Prim} {s : Desk} (h : DeskEarned H cfg xs p s) {now : Int}
    {id : JsonVal} {f : Json} {t : Int} (hf : FrameIn H xs p f "chunk" t) :
    DeskEarned H cfg xs p (takeChunk H cfg now id f t s).2 := by
  obtain ⟨e, hsame, ⟨err, _, heq⟩ | heq | ⟨_, _, _, heq⟩⟩ := takeChunk_cases H cfg now id f t s
  · rw [heq]
    exact ⟨h.1.sameReport hsame, h.2⟩
  · rw [heq]
    exact ⟨h.1.sameReport hsame, h.2.earned, h.2.nodup, h.2.kept, h.2.fresh⟩
  · rw [heq]
    apply DeskEarned.finalize
    refine ⟨(h.1.sameReport hsame).setChunk ?_ _, h.2⟩
    obtain ⟨x, hx, hdec, ht⟩ := hf.mem
    exact ⟨x, hx, f, hdec, hf.isKind, hf.key, by rw [ht]; rfl⟩

/-! ## The hub -/

/-- The entries under identifiers that are no objects, and the books. -/
structure HubEarned (H : ReliefHost) (cfg : HubConfig) (xs : List Arrival) (hub : Hub) : Prop where
  entries : ∀ p e, hub.payloads.get? (.prim p) = some e → Sourced H cfg xs p e
  fresh : ∀ n e, hub.payloads.get? (.ref n) = some e → n < hub.fresh
  books : BooksEarned H cfg xs hub.books

theorem sourced_new (p : Prim) : Sourced H cfg xs p {} := by
  refine ⟨?_, ?_, ?_⟩
  · intro m hm htruthy
    cases hm
    cases htruthy
  · intro d hd
    cases hd
  · intro k c hc
    cases hc

theorem booksEarned_new : BooksEarned H cfg xs {} := by
  constructor <;> (intro _ _ h; cases h)

theorem hubEarned_new : HubEarned H cfg xs {} := by
  refine ⟨?_, ?_, booksEarned_new⟩
  · intro p e he
    cases he
  · intro n e he
    cases he

section Entries

variable {hub : Hub} (hfresh : ∀ n e, hub.payloads.get? (.ref n) = some e → n < hub.fresh)
include hfresh

/-- The next object used as an identifier has no entry yet. -/
theorem get?_payloads_fresh : hub.payloads.get? (.ref hub.fresh) = none := by
  cases he : hub.payloads.get? (.ref hub.fresh) with
  | none => rfl
  | some e => exact absurd (hfresh _ e he) (Nat.lt_irrefl _)

/-- What holds of every entry under an identifier that is no object holds on when an entry it holds of is
put in. -/
theorem payloads_set {P : Prim → Entry → Prop}
    (hentries : ∀ p e, hub.payloads.get? (.prim p) = some e → P p e) {id : JsonVal} {k : Dest.Key}
    (hk : Dest.keyOf id hub.fresh = k) {e : Entry} (he : ∀ p, k = .prim p → P p e) :
    (∀ p e', (hub.payloads.set k e).get? (.prim p) = some e' → P p e') ∧
      ∀ n e', (hub.payloads.set k e).get? (.ref n) = some e' → n < hub.fresh + 1 := by
  constructor
  · intro p e' he'
    by_cases hp : Dest.Key.prim p = k
    · subst hp
      rw [JsMap.get?_set_self, Option.some.injEq] at he'
      exact he' ▸ he p rfl
    · rw [JsMap.get?_set_ne _ hp] at he'
      exact hentries p e' he'
  · intro n e' he'
    by_cases hn : Dest.Key.ref n = k
    · obtain ⟨-, rfl⟩ := keyOf_ref (hk.trans hn.symm)
      exact Nat.lt_succ_self _
    · rw [JsMap.get?_set_ne _ hn] at he'
      exact Nat.lt_succ_of_lt (hfresh n e' he')

end Entries

/-- A step on the entry of a report keeps the books in order, if it does at an identifier that is no
object, and on a new entry. -/
theorem HubEarned.onEntry {hub : Hub} (h : HubEarned H cfg xs hub) {id : JsonVal}
    {step : Desk → Outcome Unit × Desk}
    (hstep : ∀ p s, JsonVal.key? id = some p → DeskEarned H cfg xs p s →
      DeskEarned H cfg xs p (step s).2)
    (hnew : ∀ b, BooksEarned H cfg xs b → BooksEarned H cfg xs (step ({}, b)).2.2) :
    HubEarned H cfg xs (hub.onEntry id step).2 := by
  unfold Hub.onEntry
  dsimp only
  cases hk : Dest.keyOf id hub.fresh with
  | prim p =>
      have hdesk : DeskEarned H cfg xs p ((hub.payloads.get? (.prim p)).getD {}, hub.books) := by
        refine ⟨?_, h.books⟩
        cases he : hub.payloads.get? (.prim p) with
        | none => exact sourced_new p
        | some e => exact h.entries p e he
      have hafter := hstep p _ (keyOf_prim hk) hdesk
      obtain ⟨hentries, hfresh⟩ := payloads_set h.fresh h.entries hk fun q hq => by
        cases hq
        exact hafter.1
      exact ⟨hentries, hfresh, hafter.2⟩
  | ref n =>
      obtain ⟨-, rfl⟩ := keyOf_ref hk
      rw [get?_payloads_fresh h.fresh]
      obtain ⟨hentries, hfresh⟩ := payloads_set h.fresh h.entries hk fun q hq => by cases hq
      exact ⟨hentries, hfresh, hnew _ h.books⟩

theorem BooksEarned.conclude {s : Desk} (h : BooksEarned H cfg xs s.2) {now : Int} {id : JsonVal}
    {m : Json} {d : Dest} : BooksEarned H cfg xs (conclude H cfg now id m d s).2.2 := by
  unfold Relief.conclude
  split
  · exact h.refuse _
  · split
    · exact h
    · exact h

/-- Settling an entry without chunks credits nothing. -/
theorem BooksEarned.settle_empty {s : Desk} (h : BooksEarned H cfg xs s.2) (hs : s.1.chunks.keys = [])
    {now : Int} {id : JsonVal} {m : Json} : BooksEarned H cfg xs (settle H cfg now id m s).2.2 := by
  have hall : checkAll H cfg now id s.1.chunks.keys s = (.ok (), s) := by rw [hs]; rfl
  unfold Relief.settle
  rw [hall]
  dsimp only
  split
  · exact h
  · exact h.conclude
  · exact h

theorem BooksEarned.finalize_empty {s : Desk} (h : BooksEarned H cfg xs s.2)
    (hs : s.1.chunks.keys = []) {now : Int} {id : JsonVal} :
    BooksEarned H cfg xs (finalize H cfg now id s).2.2 := by
  unfold Relief.finalize
  split
  · split
    · exact h
    · split
      · exact h.settle_empty hs
      · dsimp only
        split
        · exact h
        · exact h.refuse _
        · apply BooksEarned.settle_empty
          · exact h
          · exact hs
  · exact h

theorem BooksEarned.takeManifest_new {b : Books} (h : BooksEarned H cfg xs b) {now : Int}
    {id : JsonVal} {f : Json} {t : Int} :
    BooksEarned H cfg xs (takeManifest H cfg now id f t ({}, b)).2.2 := by
  unfold Relief.takeManifest
  dsimp only
  split
  · refine BooksEarned.finalize_empty ?_ rfl
    exact ⟨h.earned, h.nodup, h.kept, h.fresh⟩
  · refine BooksEarned.finalize_empty ?_ rfl
    exact h

/-- A chunk that comes before a manifest is not judged. -/
theorem finalize_waiting {s : Desk} (hs : s.1.manifest = some .null) {now : Int} {id : JsonVal} :
    (finalize H cfg now id s).2 = s := by
  unfold Relief.finalize
  rw [hs]
  split
  · next hm _ =>
    cases hm
    rfl
  · rfl

theorem BooksEarned.takeChunk_new {b : Books} (h : BooksEarned H cfg xs b) {now : Int}
    {id : JsonVal} {f : Json} {t : Int} :
    BooksEarned H cfg xs (takeChunk H cfg now id f t ({}, b)).2.2 := by
  obtain ⟨e, hsame, ⟨err, _, heq⟩ | heq | ⟨_, _, _, heq⟩⟩ :=
    takeChunk_cases H cfg now id f t ({}, b)
  · rw [heq]
    exact h
  · rw [heq]
    exact ⟨h.earned, h.nodup, h.kept, h.fresh⟩
  · rw [heq, finalize_waiting]
    · exact h
    · exact hsame.manifest

/-- **One frame of the run.** -/
theorem HubEarned.ingest {hub : Hub} (h : HubEarned H cfg xs hub) {x : Arrival} (hx : x ∈ xs) :
    HubEarned H cfg xs (hub.ingest H cfg x).2 := by
  unfold Hub.ingest
  split
  · exact ⟨h.entries, h.fresh, h.books.refuse _⟩
  · next f hf =>
    dsimp only
    split
    · next hkind =>
      rw [Bool.and_eq_true] at hkind
      apply h.onEntry
      · intro p s hp hs
        exact hs.takeManifest ⟨⟨x, hx, hf, rfl⟩, hkind.1, hp⟩
      · exact fun b hb => hb.takeManifest_new
    · split
      · next hkind =>
        rw [Bool.and_eq_true] at hkind
        apply h.onEntry
        · intro p s hp hs
          exact hs.takeChunk ⟨⟨x, hx, hf, rfl⟩, hkind.1, hp⟩
        · exact fun b hb => hb.takeChunk_new
      · exact ⟨h.entries, h.fresh, h.books.refuse _⟩

theorem HubEarned.ingestAll {ys : List Arrival} :
    ∀ {hub : Hub}, HubEarned H cfg xs hub → (∀ x ∈ ys, x ∈ xs) →
      HubEarned H cfg xs (hub.ingestAll H cfg ys) := by
  induction ys with
  | nil => exact fun h _ => h
  | cons y rest ih =>
      intro hub h hmem
      rw [List.forall_mem_cons] at hmem
      exact ih (h.ingest hmem.1) hmem.2

/-! ## What is listed -/

/-- A name that is listed is that of a relay on the books. -/
theorem paidIds_get {hub : Hub} {m : JsMap JsString (List Prim)} (h : hub.paidIds H = .ok m)
    {name : JsString} {ids : List Prim} (hids : m.get? name = some ids) : ∃ k o,
      hub.books.paid.get? k = some o ∧ JsonVal.toStr H.toNode o.relay = .ok name ∧ ids.Perm o.ids := by
  have hall : ∀ os : List Owed, (∀ o ∈ os, ∃ k, hub.books.paid.get? k = some o) →
      ∀ acc m : JsMap JsString (List Prim),
        (∀ name ids, acc.get? name = some ids → ∃ k o, hub.books.paid.get? k = some o ∧
          JsonVal.toStr H.toNode o.relay = .ok name ∧ ids.Perm o.ids) →
        os.foldlM (fun m o => do
          return m.set (← JsonVal.toStr H.toNode o.relay)
            (o.ids.insertionSort fun p q => textLe H p q)) acc = Except.ok m →
        ∀ name ids, m.get? name = some ids → ∃ k o, hub.books.paid.get? k = some o ∧
          JsonVal.toStr H.toNode o.relay = .ok name ∧ ids.Perm o.ids := by
    intro os
    induction os with
    | nil =>
        intro _ acc m hacc hm
        cases hm
        exact hacc
    | cons o rest ih =>
        intro hmem acc m hacc hm
        rw [List.forall_mem_cons] at hmem
        obtain ⟨k, hk⟩ := hmem.1
        obtain ⟨acc', hacc', hm⟩ := Outcome.bind_eq_ok.mp hm
        obtain ⟨relay, hrelay, hacc'⟩ := Outcome.bind_eq_ok.mp hacc'
        cases hacc'
        refine ih hmem.2 _ m ?_ hm
        intro name ids hget
        by_cases hname : name = relay
        · subst hname
          rw [JsMap.get?_set_self, Option.some.injEq] at hget
          subst hget
          exact ⟨k, o, hk, hrelay, List.perm_insertionSort _ _⟩
        · rw [JsMap.get?_set_ne _ hname] at hget
          exact hacc name ids hget
  refine hall _ ?_ _ m ?_ h name ids hids
  · intro o ho
    exact JsMap.mem_values_iff.mp ho
  · intro name ids hnone
    cases hnone

/-- **What is listed for a relay is earned by it, and listed once.** -/
theorem earned {m : JsMap JsString (List Prim)}
    (h : (({} : Hub).ingestAll H cfg xs).paidIds H = .ok m) {name : JsString} {ids : List Prim}
    (hids : m.get? name = some ids) : ids.Nodup ∧
      ∃ relay, JsonVal.toStr H.toNode relay = .ok name ∧ ∀ id ∈ ids, Earned H cfg xs relay id := by
  have hbooks := (HubEarned.ingestAll (@hubEarned_new H cfg xs) fun x hx => hx).books
  obtain ⟨k, o, ho, hrelay, hperm⟩ := paidIds_get h hids
  refine ⟨hperm.nodup_iff.mpr (hbooks.nodup k o ho), o.relay, hrelay, fun id hid => ?_⟩
  exact hbooks.earned k o ho id (hperm.mem_iff.mp hid)

/-- A replay that comes to its end is a run in which no call threw. -/
theorem replay_eq {ys : List Arrival} : ∀ {hub hub' : Hub}, hub.replay H cfg ys = .ok hub' →
    hub' = hub.ingestAll H cfg ys := by
  induction ys with
  | nil => exact fun h => (Except.ok.inj h).symm
  | cons y rest ih =>
      intro hub hub' h
      unfold Hub.replay at h
      split at h
      · next hnext =>
        rw [ih h]
        show _ = Hub.ingestAll H cfg (hub.ingest H cfg y).2 rest
        rw [hnext]
      · cases h

end Relief

end DtnCustody
