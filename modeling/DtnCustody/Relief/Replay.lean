/-
# DtnCustody.Relief.Replay — the log of a hub, replayed under the last directory.

The running hub judges a chunk when it can, under the directory of that moment; a replay judges it under
the last one. Both ask for the keys of the time at which the frame came. So they come to the same, up to
the stamps of their own clocks (`unstamped`), where the two directories answer alike for every frame
that is held (`Alike`, followed from step to step).
-/
import DtnCustody.Relief.PaidFor
import DtnCustody.Relief.Provision

namespace DtnCustody

open Base Js

namespace Relief

/-! ## Stamps -/

/-- A report without the time at which it was verified. -/
def Report.unstamped : Report → Report
  | .verified r => .verified { r with verifiedAt := 0 }
  | .refused reason => .refused reason

/-- The same entry in two runs, the stamp of its report apart. -/
def SameEntry (p p' : Entry) : Prop :=
  ∃ r, p' = { p with report := r } ∧ r.map Report.unstamped = p.report.map Report.unstamped

/-- The same books, the refusals apart, which nothing reads. -/
def SameBooks (b b' : Books) : Prop := ∃ refusals, b' = { b with refusals }

/-- **The same desk in two runs**, whose chunks are among `P` and whose manifest is among `Q`. -/
structure Alike (P : Stored → Prop) (Q : Json → Int → Prop) (s s' : Desk) : Prop where
  entry : SameEntry s.1 s'.1
  books : SameBooks s.2 s'.2
  chunks : ∀ k c, s.1.chunks.get? k = some c → P { c with ok := false }
  manifest : ∀ m, s.1.manifest = some m → m.truthy = true → Q m s.1.manifestAt

/-- Two steps that come out the same. -/
structure AlikeSteps (P : Stored → Prop) (Q : Json → Int → Prop) (r r' : Outcome Unit × Desk) : Prop where
  outcome : r.1 = r'.1
  desk : Alike P Q r.2 r'.2

/-- The two directories answer alike for what is among `P` and `Q`. -/
structure Answers (H : ReliefHost) (cfg : HubConfig) (d d' : Directory) (P : Stored → Prop)
    (Q : Json → Int → Prop) : Prop where
  custody : ∀ c, P { c with ok := false } → ∀ clinic,
    judgeCustody H (cfg.under d) clinic c = judgeCustody H (cfg.under d') clinic c
  manifest : ∀ m t, Q m t → openDest H (cfg.under d) m t = openDest H (cfg.under d') m t

section Steps

variable {H : ReliefHost} {cfg : HubConfig} {d d' : Directory} {P : Stored → Prop}
  {Q : Json → Int → Prop}

theorem creditAll_refusals (b : Books) (c : Stored) (refusals : List Refusal) :
    creditAll { b with refusals } c = { creditAll b c with refusals } := by
  unfold creditAll
  split
  · next rs hrs =>
    clear hrs
    have hall : ∀ b : Books, rs.foldl (fun b rec =>
          b.credit (rec.get "thisHop") (JsonVal.get? c.bundle "bundleId")) { b with refusals } =
        { rs.foldl (fun b rec =>
          b.credit (rec.get "thisHop") (JsonVal.get? c.bundle "bundleId")) b with refusals } := by
      induction rs with
      | nil => exact fun b => rfl
      | cons rec rest ih => exact fun b => ih (b.credit _ _)
    exact hall b
  · rfl

theorem chunks_delete {chunks : JsMap Dest.Key Stored}
    (h : ∀ k c, chunks.get? k = some c → P { c with ok := false }) (k : Dest.Key) :
    ∀ j c, (chunks.delete k).get? j = some c → P { c with ok := false } := fun j c hc =>
  h j c (JsMap.get?_of_delete hc)

theorem chunks_set {chunks : JsMap Dest.Key Stored}
    (h : ∀ k c, chunks.get? k = some c → P { c with ok := false }) (k : Dest.Key) {c : Stored}
    (hc : P { c with ok := false }) :
    ∀ j x, (chunks.set k c).get? j = some x → P { x with ok := false } := by
  intro j x hx
  by_cases hj : j = k
  · subst hj
    rw [JsMap.get?_set_self, Option.some.injEq] at hx
    rw [← hx]
    exact hc
  · rw [JsMap.get?_set_ne _ hj] at hx
    exact h j x hx

/-- **One check.** -/
theorem check_alike (hd : Answers H cfg d d' P Q) {s s' : Desk} (h : Alike P Q s s') {now now' : Int}
    {id : JsonVal} {k : Dest.Key} {c : Stored} (hc : s.1.chunks.get? k = some c) {dest : Dest} :
    AlikeSteps P Q (check H (cfg.under d) now id k c dest s)
      (check H (cfg.under d') now' id k c dest s') := by
  have hheld := h.chunks k c hc
  have hjudge := hd.custody c hheld s.1.clinic
  obtain ⟨e, b⟩ := s
  obtain ⟨e', b'⟩ := s'
  obtain ⟨⟨r, he, hr⟩, ⟨refusals, hb⟩, hchunks, hmanifest⟩ := h
  dsimp only at he hb hr hjudge hchunks hmanifest
  subst he hb
  unfold check
  dsimp only
  rw [← hjudge]
  generalize dest.receiveBundle H.toHost c.bundle = received
  obtain ⟨verdict, dest'⟩ := received
  cases verdict with
  | error err => exact ⟨rfl, ⟨r, rfl, hr⟩, ⟨refusals, rfl⟩, hchunks, hmanifest⟩
  | ok refusal =>
      cases refusal with
      | some refusal => exact ⟨rfl, ⟨r, rfl, hr⟩, ⟨_, rfl⟩, chunks_delete hchunks k, hmanifest⟩
      | none =>
          cases judgeCustody H (cfg.under d) e.clinic c with
          | error err => exact ⟨rfl, ⟨r, rfl, hr⟩, ⟨refusals, rfl⟩, hchunks, hmanifest⟩
          | ok denial =>
              cases denial with
              | some denial =>
                  exact ⟨rfl, ⟨r, rfl, hr⟩, ⟨_, rfl⟩, chunks_delete hchunks k, hmanifest⟩
              | none =>
                  exact ⟨rfl, ⟨r, rfl, hr⟩, ⟨refusals, creditAll_refusals b c refusals⟩,
                    chunks_set hchunks k hheld, hmanifest⟩

theorem checkAll_alike (hd : Answers H cfg d d' P Q) {now now' : Int} {id : JsonVal}
    {ks : List Dest.Key} : ∀ {s s' : Desk}, Alike P Q s s' →
      AlikeSteps P Q (checkAll H (cfg.under d) now id ks s) (checkAll H (cfg.under d') now' id ks s') := by
  induction ks with
  | nil => exact fun h => ⟨rfl, h⟩
  | cons k ks ih =>
      intro s s' h
      obtain ⟨r, he, -⟩ := h.entry
      have hchunks : s'.1.chunks = s.1.chunks := by rw [he]
      have hdest : s'.1.dest = s.1.dest := by rw [he]
      unfold checkAll
      rw [hchunks, hdest]
      split
      · next c dest hc _ =>
        split
        · exact ih h
        · have hstep := @check_alike H cfg d d' P Q hd s s' h now now' id k c hc dest
          generalize check H (cfg.under d) now id k c dest s = out at hstep ⊢
          generalize check H (cfg.under d') now' id k c dest s' = out' at hstep ⊢
          obtain ⟨o, t⟩ := out
          obtain ⟨o', t'⟩ := out'
          obtain ⟨ho, hdesk⟩ := hstep
          dsimp only at ho
          subst ho
          cases o with
          | error e => exact ⟨rfl, hdesk⟩
          | ok u => exact ih hdesk
      · exact ⟨rfl, h⟩

theorem hopsFrom_under (arrivedAt : Int) (rs : List Json) : ∀ (node since : JsonVal),
    hopsFrom H (cfg.under d') arrivedAt node since rs =
      hopsFrom H (cfg.under d) arrivedAt node since rs := by
  induction rs with
  | nil => exact fun _ _ => rfl
  | cons rec rest ih =>
      intro node since
      rw [hopsFrom, hopsFrom]
      simp only [ih]

/-- A report is made of what does not depend on the directory or on the clock. -/
theorem makeReport_under {p : Entry} {r : Option Report} {now now' : Int} {m file : Json}
    {bytes : Bytes} :
    makeReport H (cfg.under d') now' { p with report := r } m file bytes =
      (makeReport H (cfg.under d) now p m file bytes).map fun v => { v with verifiedAt := now' } := by
  unfold makeReport
  dsimp only
  cases hname : JsonVal.get (some file) "name" with
  | error e => rfl
  | ok name =>
      rw [Outcome.ok_bind, Outcome.ok_bind]
      cases htext : JsonVal.toStr H.toNode name with
      | error e => rfl
      | ok text =>
          rw [Outcome.ok_bind, Outcome.ok_bind]
          split
          · next rs arrivedAt _ _ =>
            cases hcreated : JsonVal.get (m.get "meta") "createdAt" with
            | error e => rfl
            | ok createdAt =>
                rw [Outcome.ok_bind, Outcome.ok_bind, @hopsFrom_under H cfg d d']
                cases hhops : hopsFrom H (cfg.under d) arrivedAt p.clinic createdAt rs with
                | error e => rfl
                | ok hops => rfl
          · rfl

theorem conclude_alike {s s' : Desk} (h : Alike P Q s s') {now now' : Int} {id : JsonVal} {m : Json}
    {dest : Dest} : AlikeSteps P Q (conclude H (cfg.under d) now id m dest s)
      (conclude H (cfg.under d') now' id m dest s') := by
  obtain ⟨e, b⟩ := s
  obtain ⟨e', b'⟩ := s'
  obtain ⟨⟨r, he, hr⟩, ⟨refusals, hb⟩, hchunks, hmanifest⟩ := h
  dsimp only at he hb hr hchunks hmanifest
  subst he hb
  unfold conclude
  have hopen : openReport H (cfg.under d') id dest = openReport H (cfg.under d) id dest := rfl
  rw [hopen]
  split
  · exact ⟨rfl, ⟨_, rfl, rfl⟩, ⟨_, rfl⟩, hchunks, hmanifest⟩
  · next file bytes _ =>
    dsimp only
    rw [@makeReport_under H cfg d d' e r now now' m file bytes]
    cases makeReport H (cfg.under d) now e m file bytes with
    | error err => exact ⟨rfl, ⟨r, rfl, hr⟩, ⟨refusals, rfl⟩, hchunks, hmanifest⟩
    | ok v => exact ⟨rfl, ⟨_, rfl, rfl⟩, ⟨refusals, rfl⟩, hchunks, hmanifest⟩

theorem settle_alike (hd : Answers H cfg d d' P Q) {s s' : Desk} (h : Alike P Q s s')
    {now now' : Int} {id : JsonVal} {m : Json} : AlikeSteps P Q (settle H (cfg.under d) now id m s)
      (settle H (cfg.under d') now' id m s') := by
  obtain ⟨r, he, -⟩ := h.entry
  have hkeys : s'.1.chunks.keys = s.1.chunks.keys := by rw [he]
  have hall := @checkAll_alike H cfg d d' P Q hd now now' id s.1.chunks.keys s s' h
  unfold settle
  rw [hkeys]
  generalize checkAll H (cfg.under d) now id s.1.chunks.keys s = out at hall ⊢
  generalize checkAll H (cfg.under d') now' id s.1.chunks.keys s' = out' at hall ⊢
  obtain ⟨o, t⟩ := out
  obtain ⟨o', t'⟩ := out'
  obtain ⟨ho, hdesk⟩ := hall
  dsimp only at ho
  subst ho
  cases o with
  | error e => exact ⟨rfl, hdesk⟩
  | ok u =>
      obtain ⟨r', he', -⟩ := hdesk.entry
      have hsize : t'.1.chunks.size = t.1.chunks.size := by rw [he']
      have hdest : t'.1.dest = t.1.dest := by rw [he']
      dsimp only
      rw [hsize, hdest]
      split
      · exact ⟨rfl, hdesk⟩
      · exact conclude_alike hdesk
      · exact ⟨rfl, hdesk⟩

theorem finalize_alike (hd : Answers H cfg d d' P Q) {s s' : Desk} (h : Alike P Q s s')
    {now now' : Int} {id : JsonVal} : AlikeSteps P Q (finalize H (cfg.under d) now id s)
      (finalize H (cfg.under d') now' id s') := by
  have halike := h
  obtain ⟨e, b⟩ := s
  obtain ⟨e', b'⟩ := s'
  obtain ⟨⟨r, he, hr⟩, ⟨refusals, hb⟩, hchunks, hmanifest⟩ := h
  dsimp only at he hb hr hchunks hmanifest
  subst he hb
  unfold finalize
  dsimp only
  split
  · next m hm hreport =>
    -- no report in the one run, so none in the other
    rw [hreport] at hr
    obtain rfl : r = none := Option.map_eq_none_iff.mp hr
    rw [hm] at halike ⊢
    dsimp only
    split
    · exact ⟨rfl, halike⟩
    · next htruthy =>
      rw [Bool.not_eq_false] at htruthy
      split
      · exact settle_alike hd halike
      · rw [← hd.manifest m e.manifestAt (hmanifest m hm htruthy)]
        split
        · exact ⟨rfl, halike⟩
        · refine ⟨rfl, ⟨none, rfl, by rw [hreport]⟩, ⟨_, rfl⟩, hchunks, fun m' hm' htruthy' => ?_⟩
          cases hm'
          cases htruthy'
        · apply settle_alike hd
          refine ⟨⟨none, rfl, by rw [hreport]⟩, ⟨refusals, rfl⟩, hchunks, fun m' hm' => ?_⟩
          exact hmanifest m' (hm.trans hm')
  · next hnone =>
    split
    · next _ m hm =>
      have hreport : e.report = none := Option.map_eq_none_iff.mp hr.symm
      exact absurd hreport (hnone m hm)
    · exact ⟨rfl, halike⟩

theorem isVerified_unstamped {r r' : Option Report}
    (h : r.map Report.unstamped = r'.map Report.unstamped) :
    r.any Report.isVerified = r'.any Report.isVerified := by
  have hsame : ∀ v : Report, v.unstamped.isVerified = v.isVerified := by
    intro v
    cases v <;> rfl
  have hany : ∀ r : Option Report, (r.map Report.unstamped).any Report.isVerified =
      r.any Report.isVerified := by
    intro r
    cases r with
    | none => rfl
    | some v => exact hsame v
  rw [← hany r, h, hany r']

/-! ## Frames -/

theorem takeManifest_alike (hd : Answers H cfg d d' P Q) {s s' : Desk} (h : Alike P Q s s')
    {now now' : Int} {id : JsonVal} {f : Json} {t : Int}
    (hf : ∀ m, f.get "manifest" = some m → m.truthy = true → Q m t) :
    AlikeSteps P Q (takeManifest H (cfg.under d) now id f t s)
      (takeManifest H (cfg.under d') now' id f t s') := by
  obtain ⟨e, b⟩ := s
  obtain ⟨e', b'⟩ := s'
  obtain ⟨⟨r, he, hr⟩, ⟨refusals, hb⟩, hchunks, hmanifest⟩ := h
  dsimp only at he hb hr hchunks hmanifest
  subst he hb
  unfold takeManifest
  dsimp only [Entry.touch]
  split
  · exact finalize_alike hd ⟨⟨r, rfl, hr⟩, ⟨refusals, rfl⟩, hchunks, hmanifest⟩
  · exact finalize_alike hd ⟨⟨r, rfl, hr⟩, ⟨refusals, rfl⟩, hchunks, hf⟩

theorem takeChunk_alike (hd : Answers H cfg d d' P Q) {s s' : Desk} (h : Alike P Q s s')
    {now now' : Int} {id : JsonVal} {f : Json} {t : Int} (hf : P (storedOf f t)) :
    AlikeSteps P Q (takeChunk H (cfg.under d) now id f t s)
      (takeChunk H (cfg.under d') now' id f t s') := by
  obtain ⟨e, b⟩ := s
  obtain ⟨e', b'⟩ := s'
  obtain ⟨⟨r, he, hr⟩, ⟨refusals, hb⟩, hchunks, hmanifest⟩ := h
  dsimp only at he hb hr hchunks hmanifest
  subst he hb
  unfold takeChunk
  dsimp only [Entry.touch]
  generalize JsonVal.get? (headOf (f.get "custody")) "prevHop" = source
  generalize hsource : (JsonVal.truthy e.clinic || !JsonVal.truthy source) = noted
  -- whether an origin is noted or not, the rest is the same
  cases noted
  all_goals
    simp only [if_true, if_false, Bool.false_eq_true]
    cases routeOf (f.get "custody") with
    | error err => exact ⟨rfl, ⟨r, rfl, hr⟩, ⟨refusals, rfl⟩, hchunks, hmanifest⟩
    | ok route =>
        dsimp only
        cases JsonVal.get (f.get "bundle") "index" with
        | error err => exact ⟨rfl, ⟨r, rfl, hr⟩, ⟨refusals, rfl⟩, hchunks, hmanifest⟩
        | ok index =>
            dsimp only
            rw [isVerified_unstamped hr]
            split
            · exact ⟨rfl, ⟨r, rfl, hr⟩, ⟨refusals, rfl⟩, hchunks, hmanifest⟩
            · apply finalize_alike hd
              exact ⟨⟨r, rfl, hr⟩, ⟨refusals, rfl⟩, chunks_set hchunks _ hf, hmanifest⟩

/-! ## Hubs -/

/-- **The same hub in two runs.** -/
structure AlikeHubs (P : Stored → Prop) (Q : Json → Int → Prop) (hub hub' : Hub) : Prop where
  entries : ∀ k, Option.Rel SameEntry (hub.payloads.get? k) (hub'.payloads.get? k)
  chunks : ∀ p e, hub.payloads.get? p = some e → ∀ k c, e.chunks.get? k = some c →
    P { c with ok := false }
  manifest : ∀ p e, hub.payloads.get? p = some e → ∀ m, e.manifest = some m → m.truthy = true →
    Q m e.manifestAt
  books : SameBooks hub.books hub'.books
  fresh : hub'.fresh = hub.fresh

theorem sameEntry_refl (p : Entry) : SameEntry p p := ⟨p.report, rfl, rfl⟩

theorem alikeHubs_new : AlikeHubs P Q {} {} := by
  refine ⟨fun k => .none, ?_, ?_, ⟨[], rfl⟩, rfl⟩
  · intro p e he
    cases he
  · intro p e he
    cases he

/-- What is asked of the entries may become less. -/
theorem AlikeHubs.mono {P' : Stored → Prop} {Q' : Json → Int → Prop} {hub hub' : Hub}
    (h : AlikeHubs P Q hub hub') (hP : ∀ c, P c → P' c) (hQ : ∀ m t, Q m t → Q' m t) :
    AlikeHubs P' Q' hub hub' where
  entries := h.entries
  chunks := fun p e he k c hc => hP _ (h.chunks p e he k c hc)
  manifest := fun p e he m hm htruthy => hQ _ _ (h.manifest p e he m hm htruthy)
  books := h.books
  fresh := h.fresh

theorem AlikeHubs.refuse {hub hub' : Hub} (h : AlikeHubs P Q hub hub') {now now' : Int}
    {reason : String} : AlikeHubs P Q (hub.refuse now reason) (hub'.refuse now' reason) := by
  obtain ⟨refusals, hb⟩ := h.books
  have hrefused : hub'.books.refuse { refusedAt := now', reason := .code reason } =
      { hub.books with refusals := refusals ++ [{ refusedAt := now', reason := .code reason }] } := by
    rw [Books.refuse, hb]
  exact ⟨h.entries, h.chunks, h.manifest, ⟨_, hrefused⟩, h.fresh⟩

/-- The entry of a report on both sides; it is a new one on both or on neither. -/
theorem AlikeHubs.desk {hub hub' : Hub} (h : AlikeHubs P Q hub hub') (k : Dest.Key) :
    Alike P Q ((hub.payloads.get? k).getD {}, hub.books) ((hub'.payloads.get? k).getD {}, hub'.books) := by
  have hentry := h.entries k
  have hchunks := h.chunks k
  have hmanifest := h.manifest k
  generalize hub.payloads.get? k = e at hentry hchunks hmanifest
  generalize hub'.payloads.get? k = e' at hentry
  cases hentry with
  | none =>
      refine ⟨sameEntry_refl _, h.books, ?_, ?_⟩
      · intro j c hc
        cases hc
      · intro m hm htruthy
        cases hm
        cases htruthy
  | some hsame => exact ⟨hsame, h.books, hchunks _ rfl, hmanifest _ rfl⟩

theorem onEntry_alike {hub hub' : Hub} (h : AlikeHubs P Q hub hub') {id : JsonVal}
    {step step' : Desk → Outcome Unit × Desk}
    (hstep : ∀ s s', Alike P Q s s' → AlikeSteps P Q (step s) (step' s')) :
    (hub.onEntry id step).1 = (hub'.onEntry id step').1 ∧
      AlikeHubs P Q (hub.onEntry id step).2 (hub'.onEntry id step').2 := by
  unfold Hub.onEntry
  dsimp only
  rw [h.fresh]
  have hafter := hstep _ _ (h.desk (Dest.keyOf id hub.fresh))
  generalize step ((hub.payloads.get? (Dest.keyOf id hub.fresh)).getD {}, hub.books) = out
    at hafter ⊢
  generalize step' ((hub'.payloads.get? (Dest.keyOf id hub.fresh)).getD {}, hub'.books) = out'
    at hafter ⊢
  obtain ⟨houtcome, hdesk⟩ := hafter
  rw [houtcome]
  refine ⟨rfl, ?_, ?_, ?_, hdesk.books, rfl⟩
  · intro k
    by_cases hk : k = Dest.keyOf id hub.fresh
    · subst hk
      rw [JsMap.get?_set_self, JsMap.get?_set_self]
      exact .some hdesk.entry
    · rw [JsMap.get?_set_ne _ hk, JsMap.get?_set_ne _ hk]
      exact h.entries k
  · intro k e he
    by_cases hk : k = Dest.keyOf id hub.fresh
    · subst hk
      rw [JsMap.get?_set_self, Option.some.injEq] at he
      subst he
      exact hdesk.chunks
    · rw [JsMap.get?_set_ne _ hk] at he
      exact h.chunks k e he
  · intro k e he
    by_cases hk : k = Dest.keyOf id hub.fresh
    · subst hk
      rw [JsMap.get?_set_self, Option.some.injEq] at he
      subst he
      exact hdesk.manifest
    · rw [JsMap.get?_set_ne _ hk] at he
      exact h.manifest k e he

/-- **One frame**, at two clocks and under two directories. -/
theorem ingest_alike (hd : Answers H cfg d d' P Q) {hub hub' : Hub} (h : AlikeHubs P Q hub hub')
    {x x' : Arrival} (hbuf : x'.buf = x.buf) (hat : x'.arrivedAt = x.arrivedAt)
    (hchunk : ∀ f, dec H x.buf = some f → JsonVal.isText (f.get "kind") "chunk" = true →
      P (storedOf f x.arrivedAt))
    (hmanifest : ∀ f, dec H x.buf = some f → JsonVal.isText (f.get "kind") "manifest" = true →
      ∀ m, f.get "manifest" = some m → m.truthy = true → Q m x.arrivedAt) :
    (hub.ingest H (cfg.under d) x).1 = (hub'.ingest H (cfg.under d') x').1 ∧
      AlikeHubs P Q (hub.ingest H (cfg.under d) x).2 (hub'.ingest H (cfg.under d') x').2 := by
  unfold Hub.ingest
  rw [hbuf, hat]
  split
  · exact ⟨rfl, h.refuse⟩
  · next f hf =>
    dsimp only
    split
    · next hkind =>
      rw [Bool.and_eq_true] at hkind
      apply onEntry_alike h
      exact fun s s' hs => takeManifest_alike hd hs (hmanifest f hf hkind.1)
    · split
      · next hkind =>
        rw [Bool.and_eq_true] at hkind
        apply onEntry_alike h
        exact fun s s' hs => takeChunk_alike hd hs (hchunk f hf hkind.1)
      · exact ⟨rfl, h.refuse⟩

end Steps

/-! ## Two directories -/

/-- A chunk whose receipts name relays that a directory knows as relays, or that keep their keys. -/
def CustodyNamed (N : Node) (d : Directory) (c : Stored) : Prop :=
  ∀ rs, c.custody = some (.arr rs) → ∀ rec ∈ rs, ∀ name, JsonVal.toStr N (rec.get "thisHop") = .ok name →
    RelayNamed d c.arrivedAt name

section Directories

variable {H : ReliefHost}

/-- The audit asks for the keys of the names in its receipts only. -/
theorem auditFrom_keys {o : Receipt.AuditOptions} {keys : JsString → Pin} {rs : List Json}
    (h : ∀ rec ∈ rs, ∀ name, JsonVal.toStr H.toNode (rec.get "thisHop") = .ok name →
      keys name = o.keys name) : ∀ (i : Nat) (prev : JsonVal) (gaps : List Gap),
        Receipt.auditFrom H.toHost { o with keys } i prev gaps rs =
          Receipt.auditFrom H.toHost o i prev gaps rs := by
  induction rs with
  | nil => exact fun _ _ _ => rfl
  | cons rec rest ih =>
      intro i prev gaps
      rw [List.forall_mem_cons] at h
      have hcheck : Receipt.checkReceipt H.toHost { o with keys } rec =
          Receipt.checkReceipt H.toHost o rec := by
        unfold Receipt.checkReceipt
        dsimp only
        cases hname : JsonVal.toStr H.toNode (rec.get "thisHop") with
        | error e => rfl
        | ok name => simp only [Outcome.ok_bind, h.1 name hname]
      rw [Receipt.auditFrom, Receipt.auditFrom, hcheck]
      simp only [ih h.2]

theorem revokedHop_extends {cfg : HubConfig} {d d' : Directory} {t : Int} (h : Extends t d d')
    (rs : List Json) : ∀ i, revokedHop (cfg.under d') t i rs = revokedHop (cfg.under d) t i rs := by
  induction rs with
  | nil => exact fun _ => rfl
  | cons rec rest ih =>
      intro i
      rw [revokedHop, revokedHop]
      have hsame : ∀ pub, isRevoked (cfg.under d').directory.revoked pub t =
          isRevoked (cfg.under d).directory.revoked pub t := h.isRevoked_eq
      simp only [hsame, ih]

/-- **A chunk is judged the same** under a directory and a later one. -/
theorem judgeCustody_extends {cfg : HubConfig} {d d' : Directory} (hapart : d.Apart) {c : Stored}
    (h : Extends c.arrivedAt d d') (hnamed : CustodyNamed H.toNode d' c) (clinic : JsonVal) :
    judgeCustody H (cfg.under d) clinic c = judgeCustody H (cfg.under d') clinic c := by
  unfold judgeCustody
  split
  · next rs hrs =>
    rw [revokedHop_extends h]
    have haudit : Receipt.auditCustodyChain H.toHost c.custody
        { bundleId := JsonVal.get? c.bundle "bundleId",
          keys := keysAt (cfg.under d).directory.relays (cfg.under d).directory.revoked c.arrivedAt,
          origin := clinic.getD .null } = Receipt.auditCustodyChain H.toHost c.custody
        { bundleId := JsonVal.get? c.bundle "bundleId",
          keys := keysAt (cfg.under d').directory.relays (cfg.under d').directory.revoked c.arrivedAt,
          origin := clinic.getD .null } := by
      rw [hrs]
      unfold Receipt.auditCustodyChain
      split
      · rfl
      · next rs' _ heq =>
        cases heq
        symm
        apply auditFrom_keys (o := { bundleId := _, keys := _, origin := _ })
        intro rec hrec name hname
        exact h.keysAt_eq hapart (hnamed rs hrs rec hrec name hname)
      · rfl
    rw [hrs] at haudit ⊢
    rw [haudit]
  · rfl

/-- **A manifest is opened the same** under a directory and a later one. -/
theorem openDest_extends {cfg : HubConfig} {d d' : Directory} (hapart : d.Apart) {m : Json} {t : Int}
    (h : Extends t d d') (hnamed : ClinicNamed H.toNode d' t (JsonVal.get? (m.get "meta") "clinic")) :
    openDest H (cfg.under d) m t = openDest H (cfg.under d') m t := by
  have hkey : keyAt H.toNode (cfg.under d).directory.clinics (cfg.under d).directory.revoked
      (JsonVal.get? (m.get "meta") "clinic") t = keyAt H.toNode (cfg.under d').directory.clinics
      (cfg.under d').directory.revoked (JsonVal.get? (m.get "meta") "clinic") t :=
    (h.keyAt_eq hapart hnamed).symm
  have hrevoked : isRevoked (cfg.under d).directory.revoked (m.get "signerPub") t =
      isRevoked (cfg.under d').directory.revoked (m.get "signerPub") t := (h.isRevoked_eq _).symm
  unfold openDest
  rw [hrevoked]
  dsimp only
  rw [hkey]

end Directories

/-! ## A running hub -/

inductive Event where
  | frame (x : Arrival)
  /-- `revoke`, and `setDirectory` with what it gave. -/
  | revoke (n : DeployNode) (pub : JsString) (revokedAt : Int)

def Event.time : Event → Int
  | .frame x => x.arrivedAt
  | .revoke _ _ t => t

def Event.frame? : Event → Option Arrival
  | .frame x => some x
  | .revoke .. => none

structure Live where
  directory : Directory
  hub : Hub := {}

variable (H : ReliefHost) (cfg : HubConfig)

def Live.step (s : Live) : Event → Outcome Live
  | .frame x =>
      match s.hub.ingest H (cfg.under s.directory) x with
      | (.ok _, hub) => .ok { s with hub }
      | (.error e, _) => .error e
  | .revoke n pub t => do return { s with directory := ← s.directory.revoke n pub t }

/-- A run in which no frame makes `ingest` throw. -/
def Live.run (s : Live) : List Event → Outcome Live
  | [] => .ok s
  | e :: rest => do Live.run (← s.step H cfg e) rest

/-- The frames of a run, as they are in the log. -/
def frames (events : List Event) : List Arrival := events.filterMap Event.frame?

/-- The same line of the log, whenever it is read. -/
def SameLine (x x' : Arrival) : Prop := x'.buf = x.buf ∧ x'.arrivedAt = x.arrivedAt

theorem sameLine_refl (x : Arrival) : SameLine x x := ⟨rfl, rfl⟩

/-- A frame, and a revocation after it, at a later time. -/
def Strictly : Event → Event → Prop
  | .frame x, .revoke _ _ t => x.arrivedAt < t
  | _, _ => True

/-- The names in a frame, against the directory at the end. -/
def Named (d : Directory) (x : Arrival) : Prop :=
  ∀ f, dec H x.buf = some f →
    (JsonVal.isText (f.get "kind") "chunk" = true →
      CustodyNamed H.toNode d (storedOf f x.arrivedAt)) ∧
    (JsonVal.isText (f.get "kind") "manifest" = true → ClinicNamed H.toNode d x.arrivedAt
      (JsonVal.get? (JsonVal.get? (f.get "manifest") "meta") "clinic"))

/-- What is left of the run revokes after `t`. -/
def Lasts (rest : List Event) (t : Int) : Prop := ∀ n pub u, Event.revoke n pub u ∈ rest → t < u

variable {H cfg}

/-- A key revoked in time leaves the list in order, and before what follows. -/
theorem ordered_revoke {d d₁ : Directory} {n : DeployNode} {pub : JsString} {u : Int} {rest : List Event}
    (hrevoke : d.revoke n pub u = .ok d₁) (hordered : d.Ordered)
    (hbefore : ∀ r ∈ d.revoked, ∀ e ∈ Event.revoke n pub u :: rest, r.revokedAt ≤ e.time)
    (hfirst : ∀ e ∈ rest, u ≤ e.time) :
    d₁.Ordered ∧ ∀ r ∈ d₁.revoked, ∀ e ∈ rest, r.revokedAt ≤ e.time := by
  obtain ⟨old, hrevoked, -⟩ := revoke_ok hrevoke
  constructor
  · unfold Directory.Ordered
    rw [hrevoked]
    apply List.pairwise_append.mpr
    refine ⟨hordered, List.pairwise_singleton _ _, fun r hr r' hr' => ?_⟩
    rw [List.mem_singleton.mp hr']
    exact hbefore r hr _ List.mem_cons_self
  · intro r hr e he
    rw [hrevoked] at hr
    rcases List.mem_append.mp hr with hr | hr
    · exact hbefore r hr e (List.mem_cons_of_mem _ he)
    · rw [List.mem_singleton.mp hr]
      exact hfirst e he

/-- The directory at the end extends the one of the moment, for a time that the rest of the run leaves
alone. -/
theorem extends_run {rest : List Event} : ∀ {s s' : Live}, s.run H cfg rest = .ok s' →
    rest.Pairwise (fun e e' => e.time ≤ e'.time) → s.directory.Ordered →
      (∀ r ∈ s.directory.revoked, ∀ e ∈ rest, r.revokedAt ≤ e.time) →
        ∀ {t}, Lasts rest t → Extends t s.directory s'.directory := by
  induction rest with
  | nil =>
      intro s s' h _ _ _ t _
      cases h
      exact .same
  | cons e rest ih =>
      intro s s' h htimes hordered hbefore t hlasts
      obtain ⟨hfirst, htimes'⟩ := List.pairwise_cons.mp htimes
      obtain ⟨s₁, hstep, h⟩ := Outcome.bind_eq_ok.mp h
      have hrest : Lasts rest t := fun n pub u hu => hlasts n pub u (List.mem_cons_of_mem _ hu)
      cases e with
      | frame x =>
          rw [Live.step] at hstep
          split at hstep
          · cases hstep
            exact ih h htimes' hordered
              (fun r hr e he => hbefore r hr e (List.mem_cons_of_mem _ he)) hrest
          · cases hstep
      | revoke n pub u =>
          obtain ⟨d₁, hrevoke, hstep⟩ := Outcome.bind_eq_ok.mp hstep
          cases hstep
          obtain ⟨hordered₁, hbefore₁⟩ := ordered_revoke hrevoke hordered hbefore hfirst
          have hnow : t < u := hlasts n pub u List.mem_cons_self
          exact (Extends.same.revoke hnow hordered₁ hrevoke).trans (ih h htimes' hordered₁ hbefore₁ hrest)

/-- What is asked of a chunk that is held: the rest of the run leaves its time alone, and its receipts
have their names. -/
def HeldChunk (H : ReliefHost) (d : Directory) (rest : List Event) (c : Stored) : Prop :=
  Lasts rest c.arrivedAt ∧ CustodyNamed H.toNode d c

def HeldManifest (H : ReliefHost) (d : Directory) (rest : List Event) (m : Json) (t : Int) : Prop :=
  Lasts rest t ∧ ClinicNamed H.toNode d t (JsonVal.get? (m.get "meta") "clinic")

/-- **Whatever is held is judged as it will be at the end.** -/
theorem answers_run {rest : List Event} {s s' : Live} (h : s.run H cfg rest = .ok s')
    (htimes : rest.Pairwise fun e e' => e.time ≤ e'.time) (hordered : s.directory.Ordered)
    (hbefore : ∀ r ∈ s.directory.revoked, ∀ e ∈ rest, r.revokedAt ≤ e.time) (hapart : s.directory.Apart) :
    Answers H cfg s.directory s'.directory (HeldChunk H s'.directory rest)
      (HeldManifest H s'.directory rest) where
  custody := fun _ hc clinic =>
    judgeCustody_extends hapart (extends_run h htimes hordered hbefore hc.1) hc.2 clinic
  manifest := fun _ _ hm =>
    openDest_extends hapart (extends_run h htimes hordered hbefore hm.1) hm.2

/-- **The rest of a run, replayed**, from hubs that are the same. -/
theorem replay_alike {rest : List Event} : ∀ {s s' : Live} {hub : Hub} {log : List Arrival},
    s.run H cfg rest = .ok s' → rest.Pairwise (fun e e' => e.time ≤ e'.time) →
      rest.Pairwise Strictly → s.directory.Ordered → s.directory.Apart →
        (∀ r ∈ s.directory.revoked, ∀ e ∈ rest, r.revokedAt ≤ e.time) →
          (∀ x ∈ frames rest, Named H s'.directory x) → List.Forall₂ SameLine (frames rest) log →
            AlikeHubs (HeldChunk H s'.directory rest) (HeldManifest H s'.directory rest) s.hub hub →
              ∃ hub', hub.replay H (cfg.under s'.directory) log = .ok hub' ∧
                AlikeHubs (fun _ => True) (fun _ _ => True) s'.hub hub' := by
  induction rest with
  | nil =>
      intro s s' hub log h _ _ _ _ _ _ hlog halike
      cases h
      cases hlog
      exact ⟨hub, rfl, halike.mono (fun _ _ => trivial) fun _ _ _ => trivial⟩
  | cons e rest ih =>
      intro s s' hub log hrun htimes hstrict hordered hapart hbefore hnamed hlog halike
      obtain ⟨hfirst, htimes'⟩ := List.pairwise_cons.mp htimes
      obtain ⟨hlater, hstrict'⟩ := List.pairwise_cons.mp hstrict
      obtain ⟨s₁, hstep, h⟩ := Outcome.bind_eq_ok.mp hrun
      have hlasts : ∀ {t}, Lasts (e :: rest) t → Lasts rest t := fun ht n pub u hu =>
        ht n pub u (List.mem_cons_of_mem _ hu)
      have halike' : AlikeHubs (HeldChunk H s'.directory rest) (HeldManifest H s'.directory rest)
          s.hub hub := halike.mono (fun _ hc => ⟨hlasts hc.1, hc.2⟩) fun _ _ hm => ⟨hlasts hm.1, hm.2⟩
      cases e with
      | revoke n pub u =>
          obtain ⟨d₁, hrevoke, hstep⟩ := Outcome.bind_eq_ok.mp hstep
          cases hstep
          obtain ⟨hordered₁, hbefore₁⟩ := ordered_revoke hrevoke hordered hbefore hfirst
          have hkeys := keys_revoke hrevoke
          have hapart₁ : d₁.Apart := by
            unfold Directory.Apart
            rw [hkeys.1, hkeys.2]
            exact hapart
          exact ih h htimes' hstrict' hordered₁ hapart₁ hbefore₁ hnamed hlog halike'
      | frame x =>
          cases hlog with
          | @cons _ x' _ log hline hlog =>
              have hbefore' : ∀ r ∈ s.directory.revoked, ∀ e ∈ rest, r.revokedAt ≤ e.time :=
                fun r hr e he => hbefore r hr e (List.mem_cons_of_mem _ he)
              have hafter : Lasts rest x.arrivedAt := fun n pub u hu => hlater _ hu
              have hnames := hnamed x List.mem_cons_self
              rw [Live.step] at hstep
              split at hstep
              · next hub₁ hingest =>
                cases hstep
                have hanswers := answers_run h htimes' hordered hbefore' hapart
                have hsame := ingest_alike hanswers halike' hline.1 hline.2
                  (fun f hf hkind => ⟨hafter, (hnames f hf).1 hkind⟩)
                  (fun f hf hkind m hm _ => ⟨hafter, by
                    have hclinic := (hnames f hf).2 hkind
                    rwa [hm] at hclinic⟩)
                rw [hingest] at hsame
                obtain ⟨houtcome, halike₁⟩ := hsame
                obtain ⟨hub', hreplay, hend⟩ := ih h htimes' hstrict' hordered hapart hbefore'
                  (fun y hy => hnamed y (List.mem_cons_of_mem _ hy)) hlog halike₁
                refine ⟨hub', ?_, hend⟩
                unfold Hub.replay
                split
                · next id hub₂ hingest' =>
                  rw [hingest'] at hreplay
                  exact hreplay
                · next e hub₂ hingest' =>
                  rw [hingest'] at houtcome
                  cases houtcome
              · cases hstep

/-- What a report says: its status, and the bytes of the file. -/
def Report.said : Report → String × Option Bytes
  | .verified r => ("verified", some r.bytes)
  | .refused _ => ("refused", none)

theorem AlikeHubs.said {P : Stored → Prop} {Q : Json → Int → Prop} {hub hub' : Hub}
    (h : AlikeHubs P Q hub hub') (id : JsString) :
    (hub'.report id).map Report.said = (hub.report id).map Report.said := by
  have hsame : ∀ v : Report, v.unstamped.said = v.said := by
    intro v
    cases v <;> rfl
  have hmap : ∀ r : Option Report, (r.map Report.unstamped).map Report.said = r.map Report.said := by
    intro r
    cases r with
    | none => rfl
    | some v => exact congrArg some (hsame v)
  have hentry := h.entries (.prim (.str id))
  unfold Hub.report
  generalize hub.payloads.get? (.prim (.str id)) = e at hentry ⊢
  generalize hub'.payloads.get? (.prim (.str id)) = e' at hentry ⊢
  cases hentry with
  | none => rfl
  | some hentry =>
      obtain ⟨r, he, hr⟩ := hentry
      rw [he, Option.bind_some, Option.bind_some, ← hmap r, hr, hmap]

theorem AlikeHubs.paidIds {P : Stored → Prop} {Q : Json → Int → Prop} {hub hub' : Hub}
    (h : AlikeHubs P Q hub hub') : hub'.paidIds H = hub.paidIds H := by
  obtain ⟨refusals, hbooks⟩ := h.books
  rw [Hub.paidIds, Hub.paidIds, hbooks]

/-- **A log replayed under the last directory comes to what the hub came to**, where no frame shares its
time with a revocation after it, and no name in it stands for a node of the other book whose key is
revoked later. -/
theorem replay_eq_live (H : ReliefHost) (cfg : HubConfig) {pubOf : String → JsString}
    {nodes : List DeployNode} {d : Directory} (hprov : provision pubOf nodes = .ok d)
    {events : List Event} {s : Live} (hrun : Live.run H cfg { directory := d } events = .ok s)
    (htimes : events.Pairwise fun e e' => e.time ≤ e'.time) (hstrict : events.Pairwise Strictly)
    (hnamed : ∀ x ∈ frames events, Named H s.directory x) {log : List Arrival}
    (hlog : List.Forall₂ SameLine (frames events) log) :
    ∃ hub, ({} : Hub).replay H (cfg.under s.directory) log = .ok hub ∧
      hub.paidIds H = s.hub.paidIds H ∧
      ∀ id, (hub.report id).map Report.said = (s.hub.report id).map Report.said := by
  obtain ⟨hapart, hnone⟩ := provision_apart hprov
  have hordered : d.Ordered := by
    unfold Directory.Ordered
    rw [hnone]
    exact List.Pairwise.nil
  have hbefore : ∀ r ∈ d.revoked, ∀ e ∈ events, r.revokedAt ≤ e.time := by
    intro r hr
    rw [hnone] at hr
    exact absurd hr List.not_mem_nil
  obtain ⟨hub, hreplay, halike⟩ := replay_alike hrun htimes hstrict hordered hapart hbefore hnamed hlog
    alikeHubs_new
  exact ⟨hub, hreplay, halike.paidIds, halike.said⟩

/-! ## Two runs -/

/-- A clinic, a relay and the hub. -/
def sampleNodes : List DeployNode :=
  [{ name := "c", role := "clinic", eid := "dtn://c/", next := some "dtn://r/" },
    { name := "r", role := "relay", eid := "dtn://r/", next := some "dtn://h/" },
    { name := "h", role := "hub", eid := "dtn://h/" }]

/-- Private and public key are one byte. -/
def keyOfByte (b : UInt8) : AgentKey := ⟨[b], utf16 (Base64.encode (List.replicate 12 0 ++ [b]))⟩

def clinicKey : AgentKey := keyOfByte 7

def relayKey : AgentKey := keyOfByte 8

def samplePub (name : String) : JsString := if name = "c" then clinicKey.pub else relayKey.pub

/-- A report of one chunk in the name of `clinic`. -/
def reportOf (clinic : String) (kp : AgentKey) : Source.Prepared :=
  match Source.prepare sampleRelief.toHost kp [1]
      { payloadId := some (.text "p"), chunkSize := 1, chunkSize_pos := Nat.one_pos,
        metaFields := [(js "clinic", .text clinic), (js "createdAt", .int 0)] } with
  | .ok out => out
  | .error _ => ⟨.null, []⟩

/-- The relay's receipt for what it had from `clinic`. -/
def relayReceipt (clinic : String) (bundleId : JsonVal) : Json :=
  match Receipt.signRecord sampleRelief.toHost relayKey
      (bundleId.toList.map (fun id => (js "bundleId", id)) ++ [(js "kind", .text "custody/1"),
        (js "payloadId", .text "p"), (js "prevHop", .text clinic), (js "thisHop", .text "dtn://r/"),
        (js "receivedAt", .int 1), (js "forwardedAt", .int 1)]) with
  | .ok v => v
  | .error _ => .null

/-- The manifest and the chunk, as they reach the hub. -/
def reportFrames (clinic : String) (kp : AgentKey) : List Event :=
  let out := reportOf clinic kp
  let bundle := (out.bundles[0]?).getD .null
  [.frame (arriving "manifest" [(js "manifest", out.manifest)]),
    .frame (arriving "chunk" [(js "bundle", bundle),
      (js "custody", .arr [relayReceipt clinic (bundle.get "bundleId")])])]

/-- The relay's key is revoked. -/
def revokeRelay (t : Int) : Event :=
  .revoke { name := "r", role := "relay", eid := "dtn://r/", next := some "dtn://h/" } (js "new") t

/-- How many bundles the relay is listed for, by the hub that ran and by the replay. -/
def bothPaid (events : List Event) : Outcome (Option Nat × Option Nat) := do
  let s ← Live.run sampleRelief sampleConfig { directory := ← provision samplePub sampleNodes } events
  let hub ← ({} : Hub).replay sampleRelief (sampleConfig.under s.directory) (frames events)
  let live ← s.hub.paidIds sampleRelief
  let replayed ← hub.paidIds sampleRelief
  return ((live.get? (js "dtn://r/")).map List.length, (replayed.get? (js "dtn://r/")).map List.length)

/-- The report of the clinic, and later the relay's key is revoked. -/
def revokedLater : List Event := reportFrames "dtn://c/" clinicKey ++ [revokeRelay 5]

theorem named_revokedLater {d : Directory} {s : Live} (hprov : provision samplePub sampleNodes = .ok d)
    (hrun : Live.run sampleRelief sampleConfig { directory := d } revokedLater = .ok s) :
    ∀ x ∈ frames revokedLater, Named sampleRelief s.directory x := by
  have hbooks : (do
      let d ← provision samplePub sampleNodes
      let s ← Live.run sampleRelief sampleConfig { directory := d } revokedLater
      return (s.directory.revoked.map Revoked.eid, s.directory.relays.map Prod.fst) :
        Outcome (List JsString × List JsString)) = .ok ([js "dtn://r/"], [js "dtn://r/"]) := by
    decide +kernel
  have hnames : (frames revokedLater).all (fun x => (dec sampleRelief x.buf).all fun f =>
      decide (JsonVal.isText (f.get "kind") "manifest" = true → JsonVal.toStr sampleRelief.toNode
        (JsonVal.get? (JsonVal.get? (f.get "manifest") "meta") "clinic") ≠ .ok (js "dtn://r/"))) =
      true := by decide +kernel
  rw [hprov, Outcome.ok_bind, hrun, Outcome.ok_bind] at hbooks
  obtain ⟨hrevoked, hrelays⟩ := Prod.mk.inj (Except.ok.inj hbooks)
  have heid : ∀ r ∈ s.directory.revoked, r.eid = js "dtn://r/" := by
    intro r hr
    have hmem := List.mem_map_of_mem (f := Revoked.eid) hr
    rw [hrevoked] at hmem
    exact List.mem_singleton.mp hmem
  intro x hx f hf
  refine ⟨fun _ rs _ rec _ name _ r hr _ _ => ?_, fun hkind r hr _ hname => ?_⟩
  · rw [hrelays, heid r hr]
    exact List.mem_singleton_self _
  · have hcheck := List.all_eq_true.mp hnames x hx
    rw [hf, Option.all_some, decide_eq_true_eq] at hcheck
    rw [heid r hr] at hname
    exact absurd hname (hcheck hkind)

/-- The relay is paid for the chunk, by the hub that ran and by the replay. -/
theorem revokedLater_replayed : ∃ d s hub, provision samplePub sampleNodes = .ok d ∧
    Live.run sampleRelief sampleConfig { directory := d } revokedLater = .ok s ∧
    ({} : Hub).replay sampleRelief (sampleConfig.under s.directory) (frames revokedLater) = .ok hub ∧
    hub.paidIds sampleRelief = s.hub.paidIds sampleRelief ∧
    ∀ id, (hub.report id).map Report.said = (s.hub.report id).map Report.said := by
  have hpaid : (bothPaid revokedLater).map Prod.fst = .ok (some 1) := by decide +kernel
  have hevents : ∃ m c, revokedLater =
      [.frame (arriving "manifest" m), .frame (arriving "chunk" c), revokeRelay 5] := ⟨_, _, rfl⟩
  have htimes : revokedLater.Pairwise fun e e' => e.time ≤ e'.time := by
    obtain ⟨m, c, hevents⟩ := hevents
    rw [hevents]
    simp [Event.time, arriving, revokeRelay]
  have hstrict : revokedLater.Pairwise Strictly := by
    obtain ⟨m, c, hevents⟩ := hevents
    rw [hevents]
    simp [Strictly, arriving, revokeRelay]
  cases hprov : provision samplePub sampleNodes with
  | error e =>
      rw [bothPaid, hprov] at hpaid
      cases hpaid
  | ok d =>
      cases hrun : Live.run sampleRelief sampleConfig { directory := d } revokedLater with
      | error e =>
          rw [bothPaid, hprov, Outcome.ok_bind, hrun] at hpaid
          cases hpaid
      | ok s =>
          have hlog : List.Forall₂ SameLine (frames revokedLater) (frames revokedLater) :=
            List.forall₂_same.mpr fun x _ => sameLine_refl x
          have hnamed := named_revokedLater hprov hrun
          obtain ⟨hub, hreplay, hsame⟩ := replay_eq_live sampleRelief sampleConfig hprov hrun htimes
            hstrict hnamed hlog
          exact ⟨d, s, hub, rfl, hrun, hreplay, hsame⟩

/-- **The replay pays where the hub did not, and the other way round**: a report signed by a relay as if
it were a clinic, and one that comes in the millisecond in which the relay's key is revoked. -/
theorem replay_differs :
    ((reportFrames "dtn://r/" relayKey ++ [revokeRelay 5]).Pairwise (fun e e' => e.time ≤ e'.time) ∧
      bothPaid (reportFrames "dtn://r/" relayKey ++ [revokeRelay 5]) = .ok (none, some 1)) ∧
    (reportFrames "dtn://c/" clinicKey ++ [revokeRelay 1]).Pairwise (fun e e' => e.time ≤ e'.time) ∧
      bothPaid (reportFrames "dtn://c/" clinicKey ++ [revokeRelay 1]) = .ok (some 1, none) := by
  decide +kernel

end Relief

end DtnCustody
