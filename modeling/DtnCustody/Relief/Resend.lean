/-
# DtnCustody.Relief.Resend — the clinic of `relief/kit/lib/roles.mjs`: what it sends again.

`onFrame` answers a request that the hub signed: it sends the manifest, if the request asks for it, and
then the chunks one by one. It waits after each frame, and other calls go on meanwhile, so a run is a
sequence of calls and of turns that an answer under way takes (`ClinicState.step`).

A request is known again by its `claimId` as a value, but it was checked by the text of it; and how
often a chunk was sent is counted under the identifier that the request has for the payload. Where all
requests carry their content identifier as a string and name payloads as these name themselves, each is
answered once and within the limit (`resends_bounded`). A copy with its identifier in a list is taken
for a new request each time (`resent_twice`).
-/
import DtnCustody.Relief.PaidFor

namespace DtnCustody

open Base Js

namespace Relief

/-! ## Payloads -/

structure ResendConfig where
  eid : JsString
  hubSignPub : JsonVal := some .null
  maxResendsPerChunk : Nat := 5
  /-- What a value inherits under a name. A function has no text in JSON, and is `none` within. -/
  inherited : Json → JsString → Option JsonVal := fun _ _ => none

/-- What a clinic has sent: `sent`, and the `store` if it has one. -/
structure Shelf where
  sent : JsMap JsString Json := .empty
  store : Option (JsonVal → Outcome JsonVal) := none

/-- `store ? store.load(id) : null`. -/
def Shelf.stored (x : Shelf) (id : JsonVal) : Outcome JsonVal :=
  match x.store with
  | none => .ok (some .null)
  | some load => load id

/-- `load(id)`; what was sent is found by a string. -/
def Shelf.load (x : Shelf) (id : JsonVal) : Outcome JsonVal :=
  match id with
  | some (.str s) =>
      match x.sent.get? s with
      | some p => .ok (some p)
      | none => x.stored id
  | _ => x.stored id

/-- The identifier that a payload has in its manifest. -/
def ownId (p : JsonVal) : JsonVal := JsonVal.get? (JsonVal.get? p "manifest") "payloadId"

variable (H : ReliefHost) (cfg : ResendConfig)

/-- `v[k]`; `none` is a property that is not there. -/
def member (v : JsonVal) (k : JsString) : Outcome (Option JsonVal) :=
  match v with
  | none => .error .typeError
  | some .null => .error .typeError
  | some (.arr xs) =>
      if k = js "length" then .ok (some (some (.int xs.length)))
      else match (Json.arrayIndex? k).bind (xs[·]?) with
        | some x => .ok (some (some x))
        | none => .ok (cfg.inherited (.arr xs) k)
  | some (.obj fields) =>
      match fields.find? fun p => p.1 = k with
      | some p => .ok (some (some p.2))
      | none => .ok (cfg.inherited (.obj fields) k)
  | some (.str s) =>
      if k = js "length" then .ok (some (some (.int s.length)))
      else match (Json.arrayIndex? k).bind (s[·]?) with
        | some u => .ok (some (some (.str [u])))
        | none => .ok (cfg.inherited (.str s) k)
  | some v => .ok (cfg.inherited v k)

/-- `!!b`, for a property. -/
def memberTruthy : Option JsonVal → Bool
  | none => false
  | some none => true
  | some (some v) => v.truthy

/-! ## Frames -/

/-- `enc({ v: FRAME_V, kind: "manifest", manifest: p.manifest, lastHop: eid })`. -/
def manifestFrame (p : JsonVal) : Bytes :=
  toUtf8 ((Json.obj ([(js "v", .int 1), (js "kind", .text "manifest")] ++
    ((JsonVal.get? p "manifest").toList.map fun m => (js "manifest", m)) ++
    [(js "lastHop", .str cfg.eid)])).stringify H.toNode)

/-- `enc({ v: FRAME_V, kind: "chunk", bundle: b, custody: [], lastHop: eid })`. -/
def chunkFrame (b : JsonVal) : Bytes :=
  toUtf8 ((Json.obj ([(js "v", .int 1), (js "kind", .text "chunk")] ++
    (b.toList.map fun b => (js "bundle", b)) ++
    [(js "custody", .arr []), (js "lastHop", .str cfg.eid)])).stringify H.toNode)

/-! ## Answering -/

/-- A frame that was sent again, with the call and the request that made it go out, the identifier of
its payload, and the text of the chunk's index if it is a chunk. -/
structure Resent where
  call : Nat
  request : Json
  payload : JsonVal
  chunk : Option JsString
  frame : Bytes

/-- A call that waits for a frame to be sent. -/
structure Answering where
  call : Nat
  request : Json
  payload : JsonVal
  /-- What is left of `q.indexes || []`, which may not be a list. -/
  todo : Outcome (List Json)
  sent : Nat := 0

/-- `{ ok: true, resent }`, with `duplicate` where it is one, or `{ ok: false, reason }`. -/
inductive ResendAnswer where
  | ok (resent : Nat) (duplicate : Bool := false)
  | fail (reason : String)

structure ClinicState where
  seenRequests : List Dest.Key := []
  resent : JsMap JsString Nat := .empty
  calls : Nat := 0
  answering : List Answering := []
  answers : List (Nat × Outcome ResendAnswer) := []
  log : List Resent := []

namespace ClinicState

variable (s : ClinicState)

def answer (call : Nat) (a : Outcome ResendAnswer) : ClinicState :=
  { s with answers := s.answers ++ [(call, a)] }

/-- `resent.get(k) ?? 0`. -/
def times (k : JsString) : Nat := (s.resent.get? k).getD 0

end ClinicState

/-- A chunk that is to be sent: its index as text, what is there, its key, and the indexes after it. -/
structure NextChunk where
  index : JsString
  bundle : JsonVal
  key : JsString
  rest : List Json

/-- The loop over the indexes, up to the first chunk that is there and within its limit. -/
def seek (s : ClinicState) (q : Json) (p : JsonVal) : List Json → Outcome (Option NextChunk)
  | [] => .ok none
  | index :: rest => do
      let text ← index.toStr H.toNode
      let b ← member cfg (← JsonVal.get p "bundles") text
      let k := (← JsonVal.toStr H.toNode (q.get "payloadId")) ++ js " " ++ text
      if memberTruthy b = false ∨ cfg.maxResendsPerChunk ≤ s.times k then seek s q p rest
      else return some { index := text, bundle := b.getD none, key := k, rest }

namespace ClinicState

variable (s : ClinicState)

/-- A turn of an answer: one more chunk is sent, or the answer is done. -/
def advance (t : Answering) : ClinicState :=
  match (do seek H cfg s t.request t.payload (← t.todo) : Outcome (Option NextChunk)) with
  | .error e => s.answer t.call (.error e)
  | .ok none => s.answer t.call (.ok (.ok t.sent))
  | .ok (some x) =>
      { s with
        resent := s.resent.set x.key (s.times x.key + 1)
        answering := s.answering ++ [{ t with todo := .ok x.rest, sent := t.sent + 1 }]
        log := s.log ++ [{ call := t.call, request := t.request, payload := ownId t.payload,
                           chunk := some x.index, frame := chunkFrame H cfg x.bundle }] }

/-- The manifest goes out before the chunks. -/
def sendManifest (t : Answering) : ClinicState :=
  { s with
    answering := s.answering ++ [{ t with sent := t.sent + 1 }]
    log := s.log ++ [{ call := t.call, request := t.request, payload := ownId t.payload,
                       chunk := none, frame := manifestFrame H cfg t.payload }] }

end ClinicState

/-- `q.indexes || []`, iterated over. -/
def indexesOf (q : Json) : Outcome (List Json) :=
  Merkle.iterate (orElseFalsy (q.get "indexes") (some (.arr [])))

/-- A request that was signed by the hub and is for this clinic, or the reason it is refused for. -/
def judgeRequest (f : Json) : Outcome (String ⊕ Json) := do
  match ← Receipt.verifyRecord H.toHost (orElseFalsy (f.get "request") (some (.obj []))), f.get "request" with
  | .ok signer, some q =>
      if JsonVal.truthy cfg.hubSignPub = false ∨ JsonVal.strictEq (some signer) cfg.hubSignPub = false then
        return .inl "not_signed_by_hub"
      else if JsonVal.isText (q.get "kind") "resend/1" = false ∨
          JsonVal.strictEq (q.get "clinic") (some (.str cfg.eid)) = false then
        return .inl "not_for_this_clinic"
      else return .inr q
  | .ok _, none => return .inl "not_signed_by_hub"
  | .fail reason, _ => return .inl reason

namespace ClinicState

variable (s : ClinicState)

/-- What is done with a request that has passed. -/
def take (call : Nat) (shelf : Shelf) (q : Json) : ClinicState :=
  let k := Dest.keyOf (q.get "claimId") call
  if k ∈ s.seenRequests then s.answer call (.ok (.ok 0 true))
  else
    let s := { s with seenRequests := s.seenRequests ++ [k] }
    match shelf.load (q.get "payloadId") with
    | .error e => s.answer call (.error e)
    | .ok p =>
        if JsonVal.truthy p = false then s.answer call (.ok (.fail "unknown_payload"))
        else
          let t : Answering := { call, request := q, payload := p, todo := indexesOf q }
          if JsonVal.truthy (q.get "manifest") then s.sendManifest H cfg t else s.advance H cfg t

/-- `onFrame(transport, buf)`, up to where it first waits. -/
def onFrame (shelf : Shelf) (buf : Bytes) : ClinicState :=
  let call := s.calls
  let s := { s with calls := s.calls + 1 }
  match dec H buf with
  | none => s.answer call (.ok (.fail "not_a_resend_request"))
  | some f =>
      if JsonVal.isText (f.get "kind") "resend" = false then
        s.answer call (.ok (.fail "not_a_resend_request"))
      else match judgeRequest H cfg f with
        | .error e => s.answer call (.error e)
        | .ok (.inl reason) => s.answer call (.ok (.fail reason))
        | .ok (.inr q) => s.take H cfg call shelf q

end ClinicState

/-! ## Runs -/

inductive ClinicEvent where
  /-- A frame comes in, with what the clinic has sent by then. -/
  | frame (shelf : Shelf) (buf : Bytes)
  /-- The frame that an answer waits for has been sent, and the answer goes on. -/
  | turn (i : Nat)
  /-- The transport fails under an answer, which ends there. -/
  | fail (i : Nat) (e : Err)

namespace ClinicState

def step (s : ClinicState) : ClinicEvent → ClinicState
  | .frame shelf buf => s.onFrame H cfg shelf buf
  | .turn i =>
      match s.answering[i]? with
      | none => s
      | some t => { s with answering := s.answering.eraseIdx i }.advance H cfg t
  | .fail i e =>
      match s.answering[i]? with
      | none => s
      | some t => { s with answering := s.answering.eraseIdx i }.answer t.call (.error e)

def run (s : ClinicState) (events : List ClinicEvent) : ClinicState := events.foldl (step H cfg) s

/-- How often a chunk of a payload was sent again. -/
def chunkCount (s : ClinicState) (id index : JsString) : Nat :=
  s.log.countP fun x => JsonVal.strictEq x.payload (some (.str id)) && decide (x.chunk = some index)

end ClinicState

/-- The hub has signed the request. -/
def SignedByHub (q : Json) : Prop :=
  ∃ signer, Receipt.verifyRecord H.toHost (some q) = .ok (.ok signer) ∧
    JsonVal.strictEq (some signer) cfg.hubSignPub = true

/-- **Answered once, within the limit**: frames for one request content go out in one call, no chunk
goes out more often than it may, and nothing without the hub's signature. -/
structure Bounded (s : ClinicState) : Prop where
  once : ∀ x ∈ s.log, ∀ y ∈ s.log, x.request.contentId H.toNode = y.request.contentId H.toNode →
    x.call = y.call
  limit : ∀ id index, s.chunkCount id index ≤ cfg.maxResendsPerChunk
  signed : ∀ x ∈ s.log, SignedByHub H cfg x.request

/-- The request carries its content identifier as a string, and its payload, if it is there, has the
identifier that the request has for it. -/
def plainRequest (shelf : Shelf) (q : Json) : Bool :=
  (match q.get "claimId", q.contentId H.toNode with
    | some (.str s), .ok id => decide (s = id)
    | _, _ => false) &&
  match shelf.load (q.get "payloadId"), q.get "payloadId" with
  | .ok p, some (.str id) => !JsonVal.truthy p || JsonVal.strictEq (ownId p) (some (.str id))
  | .ok p, _ => !JsonVal.truthy p
  | .error _, _ => true

/-- A request that passes is plain. -/
def ClinicEvent.plain : ClinicEvent → Bool
  | .frame shelf buf =>
      (dec H buf).all fun f => !JsonVal.isText (f.get "kind") "resend" ||
        match judgeRequest H cfg f with
        | .ok (.inr q) => plainRequest H shelf q
        | _ => true
  | _ => true

/-! ## What a run keeps -/

variable {H cfg} {s : ClinicState}

/-- A frame was sent for the request in the call, or will be. -/
def ClinicState.Labelled (s : ClinicState) (call : Nat) (q : Json) : Prop :=
  (∃ x ∈ s.log, x.call = call ∧ x.request = q) ∨ ∃ t ∈ s.answering, t.call = call ∧ t.request = q

/-- The request has been seen, under its content identifier. -/
def ClinicState.Seen (H : ReliefHost) (s : ClinicState) (q : Json) : Prop :=
  ∃ id, q.contentId H.toNode = .ok id ∧ .prim (.str id) ∈ s.seenRequests

/-- The request names the payload as that names itself. -/
def Names (q : Json) (p : JsonVal) : Prop :=
  ∃ id, q.get "payloadId" = some (.str id) ∧ ownId p = some (.str id)

/-- **The invariant.** Requests that frames go out for are signed and seen, one call for each content;
and no chunk has gone out more often than its key was counted. -/
structure Sound (H : ReliefHost) (cfg : ResendConfig) (s : ClinicState) : Prop where
  signed : ∀ call q, s.Labelled call q → SignedByHub H cfg q
  seen : ∀ call q, s.Labelled call q → s.Seen H q
  once : ∀ call call' q q', s.Labelled call q → s.Labelled call' q' →
    q.contentId H.toNode = q'.contentId H.toNode → call = call'
  named : ∀ t ∈ s.answering, Names t.request t.payload
  limit : ∀ k, s.times k ≤ cfg.maxResendsPerChunk
  counted : ∀ id index, s.chunkCount id index ≤ s.times (id ++ js " " ++ index)

theorem Sound.bounded (h : Sound H cfg s) : Bounded H cfg s where
  once x hx y hy := h.once x.call y.call x.request y.request (Or.inl ⟨x, hx, rfl, rfl⟩)
    (Or.inl ⟨y, hy, rfl, rfl⟩)
  limit id index := (h.counted id index).trans (h.limit _)
  signed x hx := h.signed x.call x.request (Or.inl ⟨x, hx, rfl, rfl⟩)

/-- Fewer answers under way, and more calls done. -/
theorem Sound.of_sublist {s' : ClinicState} (h : Sound H cfg s) (hlog : s'.log = s.log)
    (hanswering : ∀ t ∈ s'.answering, t ∈ s.answering) (hresent : s'.resent = s.resent)
    (hseen : ∀ k ∈ s.seenRequests, k ∈ s'.seenRequests) : Sound H cfg s' := by
  have hlabel : ∀ call q, s'.Labelled call q → s.Labelled call q := by
    rintro call q (⟨x, hx, hxq⟩ | ⟨t, ht, htq⟩)
    · exact Or.inl ⟨x, hlog ▸ hx, hxq⟩
    · exact Or.inr ⟨t, hanswering t ht, htq⟩
  refine ⟨fun call q hq => h.signed call q (hlabel call q hq), fun call q hq => ?_,
    fun call call' q q' hq hq' => h.once call call' q q' (hlabel call q hq) (hlabel call' q' hq'),
    fun t ht => h.named t (hanswering t ht), fun k => ?_, fun id index => ?_⟩
  · obtain ⟨id, hid, hin⟩ := h.seen call q (hlabel call q hq)
    exact ⟨id, hid, hseen _ hin⟩
  · rw [ClinicState.times, hresent]
    exact h.limit k
  · rw [ClinicState.chunkCount, hlog, ClinicState.times, hresent]
    exact h.counted id index

theorem Sound.answer (h : Sound H cfg s) (call : Nat) (a : Outcome ResendAnswer) :
    Sound H cfg (s.answer call a) :=
  h.of_sublist rfl (fun _ ht => ht) rfl (fun _ hk => hk)

/-- A state to which the answer `t` belongs too. -/
def ClinicState.withAnswer (s : ClinicState) (t : Answering) : ClinicState :=
  { s with answering := s.answering ++ [t] }

theorem Sound.without {t : Answering} (h : Sound H cfg (s.withAnswer t)) : Sound H cfg s :=
  h.of_sublist rfl (fun _ ht => List.mem_append_left _ ht) rfl (fun _ hk => hk)

theorem labelled_withAnswer (s : ClinicState) (t : Answering) :
    (s.withAnswer t).Labelled t.call t.request :=
  Or.inr ⟨t, List.mem_append_right _ List.mem_cons_self, rfl, rfl⟩

/-- A frame of the answer `t` goes out: no call and no request is new. -/
theorem labelled_sent {s' : ClinicState} {t t' : Answering} {x : Resent}
    (hcall : t'.call = t.call ∧ x.call = t.call) (hreq : t'.request = t.request ∧ x.request = t.request)
    (hlog : s'.log = s.log ++ [x]) (hanswering : s'.answering = s.answering ++ [t']) {call : Nat} {q : Json}
    (h : s'.Labelled call q) : (s.withAnswer t).Labelled call q := by
  rcases h with ⟨y, hy, hyq⟩ | ⟨u, hu, huq⟩
  · rw [hlog, List.mem_append, List.mem_singleton] at hy
    rcases hy with hy | rfl
    · exact Or.inl ⟨y, hy, hyq⟩
    · rw [hcall.2, hreq.2] at hyq
      exact Or.inr ⟨t, List.mem_append_right _ List.mem_cons_self, hyq⟩
  · rw [hanswering, List.mem_append, List.mem_singleton] at hu
    rcases hu with hu | rfl
    · exact Or.inr ⟨u, List.mem_append_left _ hu, huq⟩
    · rw [hcall.1, hreq.1] at huq
      exact Or.inr ⟨t, List.mem_append_right _ List.mem_cons_self, huq⟩

/-- What remains to be said of a frame that goes out is how it is counted. -/
theorem Sound.sent {s' : ClinicState} {t : Answering} (h : Sound H cfg (s.withAnswer t)) (t' : Answering)
    (x : Resent) (hcall : t'.call = t.call ∧ x.call = t.call) (hreq : t'.request = t.request ∧ x.request = t.request)
    (hpayload : t'.payload = t.payload) (hlog : s'.log = s.log ++ [x])
    (hanswering : s'.answering = s.answering ++ [t']) (hseen : s'.seenRequests = s.seenRequests)
    (hlimit : ∀ k, s'.times k ≤ cfg.maxResendsPerChunk)
    (hcounted : ∀ id index, s'.chunkCount id index ≤ s'.times (id ++ js " " ++ index)) :
    Sound H cfg s' := by
  have hlabel : ∀ {call : Nat} {q : Json}, s'.Labelled call q → (s.withAnswer t).Labelled call q :=
    fun hq => labelled_sent hcall hreq hlog hanswering hq
  refine ⟨fun call q hq => h.signed call q (hlabel hq), fun call q hq => ?_,
    fun call call' q q' hq hq' => h.once call call' q q' (hlabel hq) (hlabel hq'), ?_, hlimit, hcounted⟩
  · obtain ⟨id, hid, hin⟩ := h.seen call q (hlabel hq)
    exact ⟨id, hid, hseen ▸ hin⟩
  · intro u hu
    rw [hanswering, List.mem_append, List.mem_singleton] at hu
    rcases hu with hu | rfl
    · exact h.named u (List.mem_append_left _ hu)
    · rw [hreq.1, hpayload]
      exact h.named t (List.mem_append_right _ List.mem_cons_self)

/-- **A chunk that is found is within its limit**, under the key of its payload and index. -/
theorem seek_found {q : Json} {p : JsonVal} {items : List Json} {x : NextChunk}
    (h : seek H cfg s q p items = .ok (some x)) : s.times x.key < cfg.maxResendsPerChunk ∧
      ∃ id, JsonVal.toStr H.toNode (q.get "payloadId") = .ok id ∧ x.key = id ++ js " " ++ x.index := by
  induction items with
  | nil => cases h
  | cons index rest ih =>
      obtain ⟨text, _, h⟩ := Outcome.bind_eq_ok.mp h
      obtain ⟨bundles, _, h⟩ := Outcome.bind_eq_ok.mp h
      obtain ⟨b, _, h⟩ := Outcome.bind_eq_ok.mp h
      obtain ⟨id, hid, h⟩ := Outcome.bind_eq_ok.mp h
      dsimp only at h
      split at h
      · exact ih h
      · rename_i hopen
        cases h
        rw [not_or, not_le] at hopen
        exact ⟨hopen.2, id, hid, rfl⟩

theorem times_set (resent : JsMap JsString Nat) (key k : JsString) (n : Nat) :
    ((resent.set key n).get? k).getD 0 = if k = key then n else (resent.get? k).getD 0 := by
  by_cases hk : k = key
  · rw [if_pos hk, hk, JsMap.get?_set_self]
    rfl
  · rw [if_neg hk, JsMap.get?_set_ne _ hk]

theorem Sound.sendManifest {t : Answering} (h : Sound H cfg (s.withAnswer t)) :
    Sound H cfg (s.sendManifest H cfg t) := by
  refine h.sent { t with sent := t.sent + 1 } _ ⟨rfl, rfl⟩ ⟨rfl, rfl⟩ rfl rfl rfl rfl h.limit ?_
  intro id index
  -- the manifest is no chunk
  show List.countP _ (s.log ++ [_]) ≤ s.times _
  rw [List.countP_append, List.countP_singleton, if_neg (by simp)]
  exact h.counted id index

theorem Sound.advance {t : Answering} (h : Sound H cfg (s.withAnswer t)) :
    Sound H cfg (s.advance H cfg t) := by
  unfold ClinicState.advance
  split
  · exact h.without.answer _ _
  · exact h.without.answer _ _
  · rename_i x hx
    obtain ⟨items, _, hx⟩ := Outcome.bind_eq_ok.mp hx
    obtain ⟨hless, id, hid, hkey⟩ := seek_found hx
    obtain ⟨own, hown, hownId⟩ := h.named t (List.mem_append_right _ List.mem_cons_self)
    have hid : own = id := by
      rw [hown] at hid
      exact Except.ok.inj hid
    subst hid
    refine h.sent { t with todo := .ok x.rest, sent := t.sent + 1 } _ ⟨rfl, rfl⟩ ⟨rfl, rfl⟩ rfl rfl rfl rfl
      ?_ ?_
    · intro k
      show ((s.resent.set x.key (s.times x.key + 1)).get? k).getD 0 ≤ _
      rw [times_set]
      split
      · exact hless
      · exact h.limit k
    · intro id index
      show List.countP _ (s.log ++ [_]) ≤ ((s.resent.set x.key (s.times x.key + 1)).get? _).getD 0
      rw [List.countP_append, List.countP_singleton, times_set]
      have hcounted : s.chunkCount id index ≤ s.times (id ++ js " " ++ index) := h.counted id index
      unfold ClinicState.chunkCount at hcounted
      by_cases hsame : id = own ∧ index = x.index
      · obtain ⟨rfl, rfl⟩ := hsame
        rw [← hkey] at hcounted ⊢
        rw [if_pos rfl]
        split <;> omega
      · -- another chunk: its own count is the same, and its key's no less
        rw [if_neg]
        · split
          · rename_i hk
            rw [hk] at hcounted
            omega
          · exact hcounted
        · rw [hownId, Bool.and_eq_true, decide_eq_true_eq, Option.some.injEq]
          rintro ⟨hstrict, hindex⟩
          have := JsonVal.eq_of_strictEq hstrict
          rw [Option.some.injEq, Json.str.injEq] at this
          exact hsame ⟨this.symm, hindex.symm⟩

/-! ## Requests that pass -/

/-- What is no request is read as an empty one, whose identifier is not `undefined`. -/
theorem not_verifies_empty (signer : Json) :
    Receipt.verifyRecord H.toHost (some (.obj [])) ≠ .ok (.ok signer) := by
  intro h
  have hid : (Json.obj []).contentId H.toNode =
      .ok (js "0x" ++ Json.sha256hex H.toNode (js "\x7b" ++ js "\x7d")) := rfl
  have hne : toLowerCase (js "0x" ++ Json.sha256hex H.toNode (js "\x7b" ++ js "\x7d")) ≠
      toLowerCase (js "undefined") := by
    intro heq
    have hhead := congrArg List.head? heq
    rw [toLowerCase, toLowerCase, List.map_append, List.head?_append_of_ne_nil _ (by decide)] at hhead
    exact absurd hhead (by decide)
  have hfail : Receipt.verifyObject H.toHost (.obj []) = .ok (.fail "claimId_mismatch") := by
    have hclaim : JsonVal.toStr H.toNode ((Json.obj []).get "claimId") = .ok (js "undefined") := rfl
    rw [Receipt.verifyObject, hid, Outcome.ok_bind, hclaim, Outcome.ok_bind, if_pos hne]
    rfl
  have h : Receipt.verifyObject H.toHost (.obj []) = .ok (.ok signer) := h
  rw [hfail] at h
  cases h

theorem signedByHub_of_judge {f q : Json} (h : judgeRequest H cfg f = .ok (.inr q)) :
    SignedByHub H cfg q := by
  obtain ⟨v, hv, h⟩ := Outcome.bind_eq_ok.mp h
  cases v with
  | fail reason => cases h
  | ok signer =>
      cases hq : f.get "request" with
      | none =>
          rw [hq] at h
          cases h
      | some r =>
          rw [hq] at h hv
          dsimp only at h
          split at h
          · cases h
          · rename_i hsigner
            split at h
            · cases h
            · cases h
              rw [not_or, Bool.not_eq_false, Bool.not_eq_false] at hsigner
              refine ⟨signer, ?_, hsigner.2⟩
              unfold orElseFalsy at hv
              split at hv
              · exact hv
              · exact absurd hv (not_verifies_empty signer)

/-- What a plain request says of its content and its payload. -/
theorem plainRequest_iff {shelf : Shelf} {q : Json} (h : plainRequest H shelf q = true) :
    (∃ id, q.get "claimId" = some (.str id) ∧ q.contentId H.toNode = .ok id) ∧
      ∀ p, shelf.load (q.get "payloadId") = .ok p → JsonVal.truthy p = true → Names q p := by
  rw [plainRequest, Bool.and_eq_true] at h
  obtain ⟨hclaim, hpayload⟩ := h
  constructor
  · split at hclaim
    · rename_i s id hs hid
      exact ⟨id, (of_decide_eq_true hclaim) ▸ hs, hid⟩
    · cases hclaim
  · intro p hp htruthy
    rw [hp] at hpayload
    split at hpayload
    · rename_i p' id hp' hid
      cases hp'
      rw [htruthy, Bool.not_true, Bool.false_or] at hpayload
      exact ⟨id, hid, JsonVal.eq_of_strictEq hpayload⟩
    · rename_i p' hp' _
      cases hp'
      rw [htruthy] at hpayload
      cases hpayload
    · rename_i hp'
      cases hp'

/-- A request that passes is not yet seen, and its answer begins. -/
theorem Sound.take {call : Nat} {shelf : Shelf} {q : Json} (h : Sound H cfg s)
    (hsigned : SignedByHub H cfg q) (hplain : plainRequest H shelf q = true) :
    Sound H cfg (s.take H cfg call shelf q) := by
  obtain ⟨⟨id, hclaim, hid⟩, hnames⟩ := plainRequest_iff hplain
  have hkey : Dest.keyOf (q.get "claimId") call = .prim (.str id) := by
    rw [hclaim]
    rfl
  unfold ClinicState.take
  dsimp only
  rw [hkey]
  split
  · exact h.answer _ _
  · rename_i hnew
    set s' : ClinicState := { s with seenRequests := s.seenRequests ++ [.prim (.str id)] } with hs'
    have hmarked : Sound H cfg s' :=
      h.of_sublist rfl (fun _ ht => ht) rfl (fun _ hk => List.mem_append_left _ hk)
    have hbegun : ∀ p todo, Names q p →
        Sound H cfg (s'.withAnswer { call, request := q, payload := p, todo }) := by
      intro p todo hpq
      -- what is labelled is what was, and the new answer
      have hlabel : ∀ call' q', (s'.withAnswer { call, request := q, payload := p, todo }).Labelled call' q' →
          s.Labelled call' q' ∨ call' = call ∧ q' = q := by
        rintro call' q' (⟨x, hx, hxq⟩ | ⟨t, ht, htq⟩)
        · exact Or.inl (Or.inl ⟨x, hx, hxq⟩)
        · rcases List.mem_append.mp ht with ht | ht
          · exact Or.inl (Or.inr ⟨t, ht, htq⟩)
          · rw [List.mem_singleton.mp ht] at htq
            exact Or.inr ⟨htq.1.symm, htq.2.symm⟩
      have hfresh : ∀ call' q', s.Labelled call' q' → q'.contentId H.toNode ≠ q.contentId H.toNode := by
        intro call' q' hq' heq
        obtain ⟨id', hid', hin⟩ := h.seen call' q' hq'
        rw [hid', hid, Except.ok.injEq] at heq
        exact hnew (heq ▸ hin)
      refine ⟨fun call' q' hq' => ?_, fun call' q' hq' => ?_, fun call₁ call₂ q₁ q₂ h₁ h₂ heq => ?_,
        fun t ht => ?_, h.limit, h.counted⟩
      · rcases hlabel call' q' hq' with hq' | ⟨_, rfl⟩
        · exact h.signed call' q' hq'
        · exact hsigned
      · rcases hlabel call' q' hq' with hq' | ⟨_, rfl⟩
        · exact hmarked.seen call' q' hq'
        · exact ⟨id, hid, List.mem_append_right _ List.mem_cons_self⟩
      · rcases hlabel call₁ q₁ h₁ with hold₁ | ⟨hcall₁, hq₁⟩
        · rcases hlabel call₂ q₂ h₂ with hold₂ | ⟨_, hq₂⟩
          · exact h.once call₁ call₂ q₁ q₂ hold₁ hold₂ heq
          · exact absurd (hq₂ ▸ heq) (hfresh call₁ q₁ hold₁)
        · rcases hlabel call₂ q₂ h₂ with hold₂ | ⟨hcall₂, _⟩
          · exact absurd (hq₁ ▸ heq).symm (hfresh call₂ q₂ hold₂)
          · rw [hcall₁, hcall₂]
      · rcases List.mem_append.mp ht with ht | ht
        · exact h.named t ht
        · rw [List.mem_singleton.mp ht]
          exact hpq
    split
    · exact hmarked.answer _ _
    · rename_i p hp
      split
      · exact hmarked.answer _ _
      · rename_i htruthy
        have hpq := hnames p hp (eq_true_of_ne_false htruthy)
        split
        · exact (hbegun p _ hpq).sendManifest
        · exact (hbegun p _ hpq).advance

theorem Sound.step {ev : ClinicEvent} (h : Sound H cfg s) (hplain : ev.plain H cfg = true) :
    Sound H cfg (s.step H cfg ev) := by
  cases ev with
  | frame shelf buf =>
      have hcalls : Sound H cfg { s with calls := s.calls + 1 } :=
        h.of_sublist rfl (fun _ ht => ht) rfl (fun _ hk => hk)
      show Sound H cfg (s.onFrame H cfg shelf buf)
      unfold ClinicState.onFrame
      have hplain : (dec H buf).all (fun f => !JsonVal.isText (f.get "kind") "resend" ||
          match judgeRequest H cfg f with
          | .ok (.inr q) => plainRequest H shelf q
          | _ => true) = true := hplain
      cases hdec : dec H buf with
      | none => exact hcalls.answer _ _
      | some f =>
          rw [hdec, Option.all_some] at hplain
          dsimp only
          split
          · exact hcalls.answer _ _
          · rename_i hkind
            rw [eq_true_of_ne_false hkind, Bool.not_true, Bool.false_or] at hplain
            split
            · exact hcalls.answer _ _
            · exact hcalls.answer _ _
            · rename_i q hq
              rw [hq] at hplain
              exact hcalls.take (signedByHub_of_judge hq) hplain
  | turn i =>
      show Sound H cfg (match s.answering[i]? with | none => s | some t => _)
      cases ht : s.answering[i]? with
      | none => exact h
      | some t =>
          refine Sound.advance (h.of_sublist rfl (fun u hu => ?_) rfl (fun _ hk => hk))
          rcases List.mem_append.mp hu with hu | hu
          · exact List.mem_of_mem_eraseIdx hu
          · rw [List.mem_singleton.mp hu]
            exact List.mem_of_getElem? ht
  | fail i e =>
      show Sound H cfg (match s.answering[i]? with | none => s | some t => _)
      cases ht : s.answering[i]? with
      | none => exact h
      | some t =>
          refine Sound.answer ?_ _ _
          exact h.of_sublist rfl (fun u hu => List.mem_of_mem_eraseIdx hu) rfl (fun _ hk => hk)

theorem sound_new : Sound H cfg {} := by
  have hno : ∀ call q, ¬ ClinicState.Labelled {} call q := by
    rintro call q (⟨x, hx, _⟩ | ⟨t, ht, _⟩)
    · cases hx
    · cases ht
  exact ⟨fun call q hq => absurd hq (hno call q), fun call q hq => absurd hq (hno call q),
    fun call _ q _ hq => absurd hq (hno call q), fun t ht => (by cases ht), fun _ => Nat.zero_le _,
    fun _ _ => le_refl _⟩

theorem sound_run {events : List ClinicEvent} :
    ∀ {s : ClinicState}, Sound H cfg s → (∀ ev ∈ events, ev.plain H cfg = true) →
      Sound H cfg (s.run H cfg events) := by
  induction events with
  | nil => exact fun h _ => h
  | cons ev events ih =>
      intro s h hplain
      rw [List.forall_mem_cons] at hplain
      exact ih (h.step hplain.1) hplain.2

/-- **A clinic answers each request once and within its limit**, whatever comes and in whatever order
the answers go on, where all requests that pass are plain. -/
theorem resends_bounded (H : ReliefHost) (cfg : ResendConfig) (events : List ClinicEvent)
    (hplain : ∀ ev ∈ events, ev.plain H cfg = true) : Bounded H cfg (ClinicState.run H cfg {} events) :=
  (sound_run sound_new hplain).bounded

/-! ### One request, and a copy of it -/

def sampleResends : ResendConfig where
  eid := js "c"
  hubSignPub := some (.str Path.sampleKey.pub)
  maxResendsPerChunk := 1

def sampleShelf : Shelf where
  sent := JsMap.ofList [(js "p",
    .obj [(js "manifest", sampleOut.manifest), (js "bundles", .arr sampleOut.bundles)])]

def sampleRequest : Json :=
  match Receipt.signRecord sampleRelief.toHost Path.sampleKey
      [(js "kind", .text "resend/1"), (js "payloadId", .text "p"), (js "clinic", .text "c"),
        (js "manifest", .bool true), (js "indexes", .arr [.int 0]), (js "route", .arr []),
        (js "seq", .int 0), (js "at", .int 1)] with
  | .ok q => q
  | .error _ => .null

/-- The request with its identifier in a list. -/
def wrappedRequest : Json :=
  match sampleRequest with
  | .obj fields =>
      .obj (Receipt.setField fields "claimId" (.arr (sampleRequest.get "claimId").toList))
  | v => v

def requestFrame (q : Json) : ClinicEvent :=
  .frame sampleShelf
    (toUtf8 ((Json.obj [(js "v", .int 1), (js "kind", .text "resend"), (js "request", q)]).stringify sampleNode))

/-- The request and the same again, with the turns of the answer between them. -/
def replayedRequest : List ClinicEvent :=
  [requestFrame sampleRequest, .turn 0, requestFrame sampleRequest, .turn 0]

theorem replayed_bounded :
    Bounded sampleRelief sampleResends (ClinicState.run sampleRelief sampleResends {} replayedRequest) :=
  resends_bounded sampleRelief sampleResends replayedRequest (by decide +kernel)

/-- Two calls answered requests of one content. -/
def answeredTwice (log : List Resent) : Bool :=
  log.any fun x => log.any fun y => decide (x.call ≠ y.call) &&
    decide (x.request.contentId sampleRelief.toNode = y.request.contentId sampleRelief.toNode)

/-- **A request is answered twice.** The copy has the content of the request and the hub's signature,
and a second manifest goes out for it. -/
theorem resent_twice : ¬ Bounded sampleRelief sampleResends (ClinicState.run sampleRelief sampleResends {}
    [requestFrame sampleRequest, requestFrame wrappedRequest]) := by
  intro h
  have hlog : answeredTwice (ClinicState.run sampleRelief sampleResends {}
      [requestFrame sampleRequest, requestFrame wrappedRequest]).log = true := by decide +kernel
  obtain ⟨x, hx, hsome⟩ := List.any_eq_true.mp hlog
  obtain ⟨y, hy, htwice⟩ := List.any_eq_true.mp hsome
  rw [Bool.and_eq_true, decide_eq_true_eq, decide_eq_true_eq] at htwice
  exact htwice.1 (h.once x hx y hy htwice.2)

end Relief

end DtnCustody
