/-
# DtnCustody.Gateway.FromDtn — `Gateway.fromDtn` of `gateway/gateway.mjs`.

A bundle off the DTN side is decoded, addressed, put together and, if it carries an ingress receipt,
checked against the pinned gateways. Decoding, addressing and reassembly are guarded: what they throw is a
rejection. The check of the receipt is not, and its JSON is the sender's.

Events and datagrams are kept as lists; what a listener of `delivered` does, and the log, are left out.
-/
import DtnCustody.Agent.Chain
import DtnCustody.Agent.Path
import DtnCustody.Gateway.Ingress
import DtnCustody.Gateway.Reassembly

namespace DtnCustody

open Base Js

/-- The runtime with the socket that delivers: payload, port and host. -/
structure DtnHost extends GatewayHost where
  send : Bytes → JsNum → JsString → Outcome Unit

namespace Gateway

/-! ## Endpoint identifiers -/

/-- `{ scheme, node, service }`. -/
structure Eid where
  scheme : String
  node : String
  service : String
  deriving DecidableEq

/-- What `.` does not match. -/
def isLineEnd (c : Char) : Bool := c = '\n' || c = '\r' || c.val = 0x2028 || c.val = 0x2029

/-- `/^ipn:(\d+)\.(\d+)$/`. -/
def parseIpn (s : List Char) : Option Eid :=
  let rest := s.drop 4
  let node := rest.takeWhile Char.isDigit
  match rest.dropWhile Char.isDigit with
  | '.' :: service =>
      if s.take 4 = "ipn:".toList ∧ node ≠ [] ∧ service ≠ [] ∧ service.all Char.isDigit then
        some { scheme := "ipn", node := String.ofList node, service := String.ofList service }
      else none
  | _ => none

/-- `/^dtn:\/\/([^/]+)\/(.*)$/`. -/
def parseDtn (s : List Char) : Option Eid :=
  let rest := s.drop 6
  let node := rest.takeWhile (· ≠ '/')
  match rest.dropWhile (· ≠ '/') with
  | '/' :: service =>
      if s.take 6 = "dtn://".toList ∧ node ≠ [] ∧ service.all (fun c => !isLineEnd c) then
        some { scheme := "dtn", node := String.ofList node, service := String.ofList service }
      else none
  | _ => none

/-- `parseEid(eid)`; `none` is a throw. -/
def parseEid (eid : String) : Option Eid := (parseIpn eid.toList).or (parseDtn eid.toList)

example : parseEid "ipn:2.1" = some ⟨"ipn", "2", "1"⟩ := by decide

/-! ## The gateway -/

structure GatewayConfig where
  scheme : String
  nodeName : String
  reassembly : Config
  pinnedGateways : Option (JsString → Pin) := none
  requireIngressReceipt : Bool := false
  /-- `ipEgress[service]?.udp`. -/
  udp : String → Option JsString := fun _ => none

/-- A `delivered` event. -/
structure Delivery where
  source : String
  dest : String
  payload : Bytes
  ingress : Option IngressVerdict

structure Gate where
  reassembly : State := {}
  fromDtn : Nat := 0
  toIp : Nat := 0
  rejected : Nat := 0
  delivered : List Delivery := []

def Gate.reject (g : Gate) : Gate := { g with rejected := g.rejected + 1 }

/-- `_localService(dest)`. -/
def localService (cfg : GatewayConfig) (dest : String) : Option String := do
  let e ← parseEid dest
  if e.scheme = cfg.scheme ∧ e.node = cfg.nodeName then some e.service else none

def IngressVerdict.isOk : IngressVerdict → Bool
  | .ok _ => true
  | .fail _ _ => false

variable (H : DtnHost) (cfg : GatewayConfig)

/-- The ingress receipt, if there is a block for it. -/
def ingressOf (b : Bundle) : Outcome (Option IngressVerdict) :=
  if b.blocks.any fun x => x.type = ingressBlockType then
    do return some (← verifyIngress H.toGatewayHost b cfg.pinnedGateways)
  else .ok none

/-- `const [h, p] = udp.split(":")` and `send(payload, Number(p), h)`. -/
def sendUdp (udp : JsString) (payload : Bytes) : Outcome Unit :=
  let host := udp.takeWhile (· ≠ 58)
  let port := match udp.dropWhile (· ≠ 58) with
    | [] => .nan
    | _ :: rest => H.stringToNumber (rest.takeWhile (· ≠ 58))
  H.send payload port host

/-- A bundle for a service of this node, whole. -/
def deliver (service : String) (b : Bundle) (g : Gate) : Outcome Unit × Gate :=
  match ingressOf H cfg b with
  | .error e => (.error e, g)
  | .ok ingress =>
      if cfg.requireIngressReceipt && !ingress.any IngressVerdict.isOk then (.ok (), g.reject)
      else match b.payloadOf with
        | .error e => (.error e, g)
        | .ok payload =>
            let d := { source := b.primary.source, dest := b.primary.dest, payload, ingress }
            let g := { g with delivered := g.delivered ++ [d] }
            match (cfg.udp service).filter (· ≠ []) with
            | none => (.ok (), g)
            | some udp =>
                match sendUdp H udp payload with
                | .error e => (.error e, g)
                | .ok () => (.ok (), { g with toIp := g.toIp + 1 })

def fromDtn (now : Int) (g : Gate) (bytes : Bytes) : Outcome Unit × Gate :=
  match Bundle.decodeBundle H.toNode bytes with
  | .error _ => (.ok (), g.reject)
  | .ok b =>
      match localService cfg b.primary.dest with
      | none => (.ok (), g.reject)
      | some service =>
          let r := reassemble H.toNode cfg.reassembly now g.reassembly b
          let g := { g with reassembly := r.1 }
          match r.2 with
          | .error _ => (.ok (), g.reject)
          | .ok none => (.ok (), g)
          | .ok (some whole) => deliver H cfg service whole { g with fromDtn := g.fromDtn + 1 }

/-- The gateway after a run of calls, whatever each of them does. -/
def Gate.serve (calls : List (Int × Bytes)) : Gate :=
  calls.foldl (fun g c => (Gateway.fromDtn H cfg c.1 g c.2).2) {}

/-! ## The receipt -/

/-- The receipt of a bundle can be checked: it is not too deep, and what is turned into a string can
be. -/
def Checkable (b : Bundle) : Prop :=
  ∀ blk, b.ofType ingressBlockType = some blk → ∀ receipt, readIngress H.toGatewayHost blk.data = .ok receipt →
    Receipt.Legible receipt ∧ ∀ signer, Receipt.verifyRecord H.toHost (some receipt) = .ok (.ok signer) →
      cfg.pinnedGateways.isSome → JsonVal.printable (receipt.get "gateway") = true

/-- There is a payload block. -/
def HasPayload (b : Bundle) : Prop := ∃ x ∈ b.blocks, x.type = Bundle.payloadType

variable {H cfg}

theorem HasPayload.payloadOf_ok {b : Bundle} (h : HasPayload b) : ∃ data, b.payloadOf = .ok data := by
  obtain ⟨x, hx, htype⟩ := h
  unfold Bundle.payloadOf
  split
  · exact ⟨_, rfl⟩
  · next hnone => exact absurd htype (by simpa using List.find?_eq_none.mp hnone x hx)

/-- **The receipt is checked without a throw exactly when it can be.** -/
theorem returns_verifyIngress {b : Bundle} (hb : HasPayload b) :
    Outcome.Returns (verifyIngress H.toGatewayHost b cfg.pinnedGateways) ↔ Checkable H cfg b := by
  obtain ⟨data, hdata⟩ := hb.payloadOf_ok
  have hcheck : ∀ receipt signer, Outcome.Returns
      (checkIngress H.toGatewayHost b cfg.pinnedGateways receipt signer) ↔
        (cfg.pinnedGateways.isSome → JsonVal.printable (receipt.get "gateway") = true) := by
    intro receipt signer
    have hrest : ∀ pinned : Bool, Outcome.Returns (if pinned = false then
          (return .fail "gateway_key_not_pinned" (some receipt) : Outcome IngressVerdict)
        else if JsonVal.strictEq (receipt.get "payloadHash")
            (some (.str (sha256 H.toGatewayHost data))) = false
          then return .fail "payload_changed" (some receipt) else return .ok receipt) := by
      intro pinned
      split
      · exact Outcome.returns_pure _
      · split
        · exact Outcome.returns_pure _
        · exact Outcome.returns_pure _
    unfold checkIngress
    rw [hdata]
    simp only [Outcome.ok_bind]
    rw [Outcome.returns_bind]
    unfold isPinned
    cases cfg.pinnedGateways with
    | none => exact ⟨fun _ h => (by cases h), fun _ => ⟨Outcome.returns_ok _, fun a _ => hrest a⟩⟩
    | some keys =>
        dsimp only
        rw [Outcome.returns_map, JsonVal.returns_toStr]
        exact ⟨fun h _ => h.1, fun h => ⟨h rfl, fun a _ => hrest a⟩⟩
  unfold verifyIngress Checkable
  cases b.ofType ingressBlockType with
  | none => exact ⟨fun _ blk h => (by cases h), fun _ => Outcome.returns_ok _⟩
  | some blk =>
      dsimp only
      cases hread : readIngress H.toGatewayHost blk.data with
      | error e =>
          refine ⟨fun _ blk' hblk receipt hreceipt => ?_, fun _ => Outcome.returns_ok _⟩
          cases hblk
          rw [hread] at hreceipt
          cases hreceipt
      | ok receipt =>
          dsimp only
          rw [Outcome.returns_bind, Receipt.returns_verifyRecord]
          constructor
          · rintro ⟨hlegible, hsigned⟩ blk' hblk receipt' hreceipt
            cases hblk
            rw [hread] at hreceipt
            cases hreceipt
            exact ⟨hlegible, fun signer hsigner => (hcheck _ signer).mp (hsigned _ hsigner)⟩
          · intro h
            obtain ⟨hlegible, hsigned⟩ := h blk rfl receipt hread
            refine ⟨hlegible, fun v hv => ?_⟩
            cases v with
            | fail reason => exact Outcome.returns_pure _
            | ok signer => exact (hcheck _ signer).mpr (hsigned signer hv)

/-! ## Reassembly -/

/-- The first fragments that are kept have a payload. -/
def Sane (s : State) : Prop :=
  ∀ k e, s.partials.get? k = some e → ∀ b, e.first = some b → HasPayload b

section Reassembly

variable {N : Node} {c : Config} {now : Int} {s : State} {b : Bundle} {part : Bytes}

theorem sane_expire (h : Sane s) : Sane (expire c now s) := by
  have hall : ∀ (es : List (JsString × Entry)) (s : State), Sane s → Sane (es.foldl (fun s p =>
      if exceeds (now - p.2.since) c.lifetimeMs then
        { s with partials := s.partials.delete p.1, partialBytes := s.partialBytes - p.2.bytes }
      else s) s) := by
    intro es
    induction es with
    | nil => exact fun s h => h
    | cons p rest ih =>
        intro s h
        rw [List.foldl_cons]
        apply ih
        split
        · exact fun k e he => h k e (JsMap.get?_of_delete he)
        · exact h
  exact hall _ s h

/-- The entry of a fragment, with the fragment, and the state with this entry. -/
def storedEntry (c : Config) (now : Int) (s : State) (b : Bundle) (part : Bytes) : Entry :=
  (entryOf (expire c now s) now b.primary).store b part

def storedState (c : Config) (now : Int) (s : State) (b : Bundle) (part : Bytes) : State :=
  kept (opened (expire c now s) now b.primary) (keyOf b.primary) (storedEntry c now s b part)
    (added (entryOf (expire c now s) now b.primary) b.primary.fragmentOffset part)

/-- **What the account leaves open**: the fragment is the first of a set and finds no room, or it is stored
and the set then cannot be put in order or together. -/
def Astray (N : Node) (c : Config) (now : Int) (s : State) (b : Bundle) : Prop :=
  ∃ part, b.payloadOf = .ok part ∧
    (((expire c now s).partials.has (keyOf b.primary) = false ∧
        exceeds ((expire c now s).partialBytes + part.length) c.maxReassemblyBytes = true) ∨
      ∃ err, (finish N (storedState c now s b part) (keyOf b.primary)
        (storedEntry c now s b part)).2 = .error err)

theorem finish_cases (s : State) (key : JsString) (e : Entry) :
    (∃ err, (finish N s key e).2 = .error err) ∨ finish N s key e = (s, .ok none) ∨
      ∃ first w payload, e.first = some first ∧ wholeBundle N first payload = .ok w ∧
        finish N s key e = (closed s key e, .ok (some w)) := by
  unfold finish
  split
  · next err _ => exact .inl ⟨err, rfl⟩
  · exact .inr (.inl rfl)
  · next first sorted hready =>
    split
    · next err _ => exact .inl ⟨err, rfl⟩
    · next payload _ =>
      cases hwhole : wholeBundle N first payload with
      | error err => exact .inl ⟨err, rfl⟩
      | ok w =>
          refine .inr (.inr ⟨first, w, payload, ?_, hwhole, rfl⟩)
          obtain ⟨ps, -, hready⟩ := Outcome.bind_eq_ok.mp hready
          obtain ⟨reach, -, hready⟩ := Outcome.bind_eq_ok.mp hready
          cases reach with
          | none => cases hready
          | some stop =>
              dsimp only at hready
              split at hready
              · cases hready
              · obtain ⟨x, hx, heq⟩ := Option.map_eq_some_iff.mp (Except.ok.inj hready)
                cases heq
                exact hx

/-- **One fragment or bundle, case by case.** -/
theorem reassemble_cases (N : Node) (c : Config) (now : Int) (s : State) (b : Bundle) :
    reassemble N c now s b = (s, .ok (some b)) ∨
      (∃ err, reassemble N c now s b = (s, .error err)) ∨
      (∃ err, reassemble N c now s b = (expire c now s, .error err)) ∨
      (∃ err, (reassemble N c now s b).2 = .error err ∧ Astray N c now s b) ∨
      ∃ part, b.payloadOf = .ok part ∧
        (reassemble N c now s b = (storedState c now s b part, .ok none) ∨
          ∃ first w payload, (storedEntry c now s b part).first = some first ∧
            wholeBundle N first payload = .ok w ∧ reassemble N c now s b =
              (closed (storedState c now s b part) (keyOf b.primary) (storedEntry c now s b part),
                .ok (some w))) := by
  unfold reassemble
  split
  · next err _ => exact .inr (.inl ⟨err, rfl⟩)
  · split
    · exact .inl rfl
    · split
      · next err _ => exact .inr (.inl ⟨err, rfl⟩)
      · next part hpart =>
        split
        · next err _ => exact .inr (.inl ⟨err, rfl⟩)
        · exact .inr (.inl ⟨_, rfl⟩)
        · unfold storeFragment
          dsimp only
          split
          · next hagrees =>
            -- only a set that was there can disagree
            have hhas : (expire c now s).partials.has (keyOf b.primary) = true := by
              unfold agrees at hagrees
              split at hagrees
              · cases hagrees
              · next e he => rw [JsMap.has, he]; rfl
            rw [opened, if_pos hhas]
            exact .inr (.inr (.inl ⟨_, rfl⟩))
          · split
            · next hfull =>
              cases hhas : (expire c now s).partials.has (keyOf b.primary) with
              | true =>
                  rw [opened, if_pos hhas]
                  exact .inr (.inr (.inl ⟨_, rfl⟩))
              | false =>
                  refine .inr (.inr (.inr (.inl ⟨_, rfl, part, hpart, .inl ⟨hhas, ?_⟩⟩)))
                  have hbytes : (opened (expire c now s) now b.primary).partialBytes =
                      (expire c now s).partialBytes := by
                    rw [opened, if_neg (by rw [hhas]; exact Bool.false_ne_true)]
                  rw [hbytes, added, hfull.2] at hfull
                  exact hfull.1
            · rcases @finish_cases N (storedState c now s b part) (keyOf b.primary)
                (storedEntry c now s b part) with ⟨err, herr⟩ | hwait | hdone
              · exact .inr (.inr (.inr (.inl ⟨err, herr, part, hpart, .inr ⟨err, herr⟩⟩)))
              · exact .inr (.inr (.inr (.inr ⟨part, hpart, .inl hwait⟩)))
              · exact .inr (.inr (.inr (.inr ⟨part, hpart, .inr hdone⟩)))

theorem sane_set {key : JsString} {e : Entry} {n : Int} {k : Nat} (h : Sane s)
    (he : ∀ b, e.first = some b → HasPayload b) : Sane { s with
      partials := s.partials.set key e, partialBytes := n, fragmentsIn := k } := by
  intro j x hx
  by_cases hj : j = key
  · subst hj
    rw [JsMap.get?_set_self, Option.some.injEq] at hx
    rw [← hx]
    exact he
  · rw [JsMap.get?_set_ne _ hj] at hx
    exact h j x hx

theorem sane_entryOf {p : Primary} (h : Sane s) : ∀ b, (entryOf s now p).first = some b → HasPayload b := by
  intro b hb
  unfold entryOf at hb
  cases he : s.partials.get? (keyOf p) with
  | none =>
      rw [he] at hb
      cases hb
  | some e =>
      rw [he] at hb
      exact h _ e he b hb

theorem sane_opened {p : Primary} (h : Sane s) : Sane (opened s now p) := by
  unfold opened
  split
  · exact h
  · exact sane_set h (sane_entryOf h)

theorem first_store {e : Entry} : (e.store b part).first =
    if b.primary.fragmentOffset.isInt 0 then some b else e.first := by
  unfold Entry.store
  cases e.has b.primary.fragmentOffset <;> cases b.primary.fragmentOffset.isInt 0 <;> rfl

theorem sane_storedEntry (h : Sane s) (hb : HasPayload b) :
    ∀ x, (storedEntry c now s b part).first = some x → HasPayload x := by
  have hold := @sane_entryOf now (expire c now s) b.primary (sane_expire h)
  intro x hx
  rw [storedEntry, first_store] at hx
  split at hx
  · cases hx
    exact hb
  · exact hold x hx

theorem sane_storedState (h : Sane s) (hb : HasPayload b) : Sane (storedState c now s b part) :=
  sane_set (sane_opened (sane_expire h)) (sane_storedEntry h hb)

theorem sane_finish {key : JsString} {e : Entry} (h : Sane s) : Sane (finish N s key e).1 := by
  unfold finish
  split
  · exact h
  · exact h
  · split
    · exact h
    · exact fun k e he => h k e (JsMap.get?_of_delete he)

theorem sane_reassemble (h : Sane s) (hb : HasPayload b) : Sane (reassemble N c now s b).1 := by
  unfold reassemble
  split
  · exact h
  · split
    · exact h
    · split
      · exact h
      · split
        · exact h
        · exact h
        · unfold storeFragment
          dsimp only
          split
          · exact sane_opened (sane_expire h)
          · split
            · exact sane_opened (sane_expire h)
            · exact sane_finish (sane_storedState h hb)

/-- A bundle that was put together has the blocks of its first fragment. -/
theorem hasPayload_wholeBundle {first w : Bundle} {payload : Bytes} (hfirst : HasPayload first)
    (h : wholeBundle N first payload = .ok w) : HasPayload w := by
  obtain ⟨flags, -, h⟩ := Outcome.bind_eq_ok.mp h
  cases h
  obtain ⟨x, hx, htype⟩ := hfirst
  refine ⟨_, List.mem_map_of_mem hx, ?_⟩
  rw [if_pos htype]
  exact htype

end Reassembly

/-! ## Runs -/

theorem hasPayload_decoded {bytes : Bytes} {b : Bundle} (h : Bundle.decodeBundle H.toNode bytes = .ok b) :
    HasPayload b := (Bundle.decodeBundle_wellFormed H.toNode h).payload

/-- Delivering leaves the buffer alone. -/
theorem reassembly_deliver {service : String} {b : Bundle} {g : Gate} :
    (deliver H cfg service b g).2.reassembly = g.reassembly := by
  unfold deliver
  split
  · rfl
  · split
    · rfl
    · split
      · rfl
      · dsimp only
        split
        · rfl
        · split
          · rfl
          · rfl

theorem sane_fromDtn {now : Int} {g : Gate} {bytes : Bytes} (h : Sane g.reassembly) :
    Sane (fromDtn H cfg now g bytes).2.reassembly := by
  unfold fromDtn
  split
  · exact h
  · next b hb =>
    have hnext := @sane_reassemble H.toNode cfg.reassembly now g.reassembly b h (hasPayload_decoded hb)
    split
    · exact h
    · dsimp only
      split
      · exact hnext
      · exact hnext
      · rw [reassembly_deliver]
        exact hnext

/-- Every state of a run keeps first fragments that have a payload. -/
theorem sane_serve (calls : List (Int × Bytes)) : Sane (Gate.serve H cfg calls).reassembly := by
  induction calls using List.reverseRecOn with
  | nil =>
      intro k e he
      cases he
  | append_singleton front c ih =>
      rw [Gate.serve, List.foldl_concat]
      exact sane_fromDtn ih

/-! ## The account -/

inductive Fate where
  | delivered
  | waiting
  | rejected

variable (H cfg) in
/-- **What a call has done** to the gateway `g` with these bytes, when `g'` is the gateway after it. -/
def Accounts (now : Int) (g : Gate) (bytes : Bytes) (g' : Gate) : Fate → Prop
  | .delivered => ∃ b w payload ingress, Bundle.decodeBundle H.toNode bytes = .ok b ∧
      (reassemble H.toNode cfg.reassembly now g.reassembly b).2 = .ok (some w) ∧
      w.payloadOf = .ok payload ∧ g'.rejected = g.rejected ∧
      g'.delivered = g.delivered ++ [⟨w.primary.source, w.primary.dest, payload, ingress⟩]
  | .waiting => ∃ b part, Bundle.decodeBundle H.toNode bytes = .ok b ∧ b.payloadOf = .ok part ∧
      g' = { g with reassembly := storedState cfg.reassembly now g.reassembly b part }
  | .rejected => g'.rejected = g.rejected + 1 ∧ g'.delivered = g.delivered ∧ g'.toIp = g.toIp ∧
      ((∀ b, Bundle.decodeBundle H.toNode bytes = .ok b →
          ¬ Astray H.toNode cfg.reassembly now g.reassembly b) →
        g'.reassembly = g.reassembly ∨ g'.reassembly = expire cfg.reassembly now g.reassembly ∨
        (cfg.requireIngressReceipt = true ∧ ∃ b part, Bundle.decodeBundle H.toNode bytes = .ok b ∧
          g'.reassembly = closed (storedState cfg.reassembly now g.reassembly b part) (keyOf b.primary)
            (storedEntry cfg.reassembly now g.reassembly b part)))

/-- The three exclude one another. -/
theorem accounts_unique {now : Int} {g g' : Gate} {bytes : Bytes} {fate fate' : Fate}
    (h : Accounts H cfg now g bytes g' fate) (h' : Accounts H cfg now g bytes g' fate') : fate' = fate := by
  -- a rejection counts, a delivery is an event, and a waiting fragment is neither
  have hcount : ∀ fate, Accounts H cfg now g bytes g' fate →
      (fate = .delivered ↔ g'.delivered ≠ g.delivered) ∧ (fate = .rejected ↔ g'.rejected ≠ g.rejected) := by
    intro fate h
    cases fate with
    | delivered =>
        obtain ⟨b, w, payload, ingress, -, -, -, hrejected, hdelivered⟩ := h
        rw [hrejected, hdelivered]
        simp
    | waiting =>
        obtain ⟨b, part, -, -, rfl⟩ := h
        simp
    | rejected =>
        obtain ⟨hrejected, hdelivered, -⟩ := h
        rw [hrejected, hdelivered]
        simp
  have hdelivered := (hcount fate h).1.trans (hcount fate' h').1.symm
  have hrejected := (hcount fate h).2.trans (hcount fate' h').2.symm
  cases fate <;> cases fate' <;> grind

/-- A whole bundle is delivered, or rejected for its receipt. -/
theorem deliver_cases {service : String} {w : Bundle} {g : Gate} (hw : HasPayload w)
    (hcheck : Checkable H cfg w)
    (hsend : ∀ udp payload, cfg.udp service = some udp → Outcome.Returns (sendUdp H udp payload)) :
    (deliver H cfg service w g).1 = .ok () ∧
      ((cfg.requireIngressReceipt = true ∧ (deliver H cfg service w g).2 = g.reject) ∨
        ∃ payload ingress n, w.payloadOf = .ok payload ∧ (deliver H cfg service w g).2 =
          { g with delivered := g.delivered ++ [⟨w.primary.source, w.primary.dest, payload, ingress⟩],
                   toIp := n }) := by
  obtain ⟨payload, hpayload⟩ := hw.payloadOf_ok
  obtain ⟨ingress, hingress⟩ : Outcome.Returns (ingressOf H cfg w) := by
    unfold ingressOf
    split
    · rw [Outcome.returns_map]
      exact (returns_verifyIngress hw).mpr hcheck
    · exact Outcome.returns_ok _
  unfold deliver
  rw [hingress]
  dsimp only
  split
  · next hrefused =>
    rw [Bool.and_eq_true] at hrefused
    exact ⟨rfl, .inl ⟨hrefused.1, rfl⟩⟩
  · rw [hpayload]
    dsimp only
    split
    · exact ⟨rfl, .inr ⟨payload, ingress, _, rfl, rfl⟩⟩
    · next udp hudp =>
      obtain ⟨⟨⟩, hsent⟩ := hsend udp payload (Option.filter_eq_some_iff.mp hudp).1
      rw [hsent]
      exact ⟨rfl, .inr ⟨payload, ingress, _, rfl, rfl⟩⟩

/-- **Every call is accounted for**, in every state that calls lead to: it returns, unless the receipt of
the bundle that it comes to cannot be checked, and exactly one thing has happened. -/
theorem fromDtn_accounts (H : DtnHost) (cfg : GatewayConfig)
    (hsend : ∀ service udp payload, cfg.udp service = some udp → Outcome.Returns (sendUdp H udp payload))
    (calls : List (Int × Bytes)) (now : Int) (bytes : Bytes)
    (hcheck : ∀ b w, Bundle.decodeBundle H.toNode bytes = .ok b → localService cfg b.primary.dest ≠ none →
      (reassemble H.toNode cfg.reassembly now (Gate.serve H cfg calls).reassembly b).2 = .ok (some w) →
        Checkable H cfg w) :
    (fromDtn H cfg now (Gate.serve H cfg calls) bytes).1 = .ok () ∧
      ∃! fate, Accounts H cfg now (Gate.serve H cfg calls) bytes
        (fromDtn H cfg now (Gate.serve H cfg calls) bytes).2 fate := by
  have hsane := @sane_serve H cfg calls
  generalize Gate.serve H cfg calls = g at hcheck hsane ⊢
  suffices hmain : (fromDtn H cfg now g bytes).1 = .ok () ∧
      ∃ fate, Accounts H cfg now g bytes (fromDtn H cfg now g bytes).2 fate by
    obtain ⟨hreturns, fate, hfate⟩ := hmain
    exact ⟨hreturns, fate, hfate, fun fate' hfate' => accounts_unique hfate hfate'⟩
  unfold fromDtn
  cases hdecode : Bundle.decodeBundle H.toNode bytes with
  | error e => exact ⟨rfl, .rejected, rfl, rfl, rfl, fun _ => .inl rfl⟩
  | ok b =>
      dsimp only
      have hb := hasPayload_decoded hdecode
      cases hservice : localService cfg b.primary.dest with
      | none => exact ⟨rfl, .rejected, rfl, rfl, rfl, fun _ => .inl rfl⟩
      | some service =>
          have hwhole : ∀ w s', reassemble H.toNode cfg.reassembly now g.reassembly b = (s', .ok (some w)) →
              HasPayload w → (s' = g.reassembly ∨ ∃ part, s' =
                closed (storedState cfg.reassembly now g.reassembly b part) (keyOf b.primary)
                  (storedEntry cfg.reassembly now g.reassembly b part)) →
              (deliver H cfg service w { g with reassembly := s', fromDtn := g.fromDtn + 1 }).1 = .ok () ∧
                ∃ fate, Accounts H cfg now g bytes
                  (deliver H cfg service w { g with reassembly := s', fromDtn := g.fromDtn + 1 }).2 fate := by
            intro w s' hrun hpayload hs'
            obtain ⟨hreturns, ⟨hrequire, heq⟩ | ⟨payload, ingress, n, hdata, heq⟩⟩ :=
              @deliver_cases H cfg service w { g with reassembly := s', fromDtn := g.fromDtn + 1 } hpayload
                (hcheck b w hdecode (by rw [hservice]; exact Option.some_ne_none _) (by rw [hrun]))
                (hsend service)
            · refine ⟨hreturns, .rejected, ?_⟩
              rw [heq]
              refine ⟨rfl, rfl, rfl, fun _ => ?_⟩
              rcases hs' with rfl | ⟨part, rfl⟩
              · exact .inl rfl
              · exact .inr (.inr ⟨hrequire, b, part, hdecode, rfl⟩)
            · refine ⟨hreturns, .delivered, b, w, payload, ingress, hdecode, by rw [hrun], hdata, ?_⟩
              rw [heq]
              exact ⟨rfl, rfl⟩
          dsimp only
          rcases reassemble_cases H.toNode cfg.reassembly now g.reassembly b with
            hrun | ⟨err, hrun⟩ | ⟨err, hrun⟩ | ⟨err, hrun, hastray⟩ |
            ⟨part, hpart, hrun | ⟨first, w, payload, hfirst, hw, hrun⟩⟩
          · have hdone := hwhole b _ hrun hb (.inl rfl)
            rw [hrun]
            exact hdone
          · rw [hrun]
            exact ⟨rfl, .rejected, rfl, rfl, rfl, fun _ => .inl rfl⟩
          · rw [hrun]
            exact ⟨rfl, .rejected, rfl, rfl, rfl, fun _ => .inr (.inl rfl)⟩
          · rw [hrun]
            exact ⟨rfl, .rejected, rfl, rfl, rfl, fun hnot => absurd hastray (hnot b hdecode)⟩
          · rw [hrun]
            exact ⟨rfl, .waiting, b, part, hdecode, hpart, rfl⟩
          · have hpayload := hasPayload_wholeBundle (sane_storedEntry hsane hb first hfirst) hw
            have hdone := hwhole w _ hrun hpayload (.inr ⟨part, rfl⟩)
            rw [hrun]
            exact hdone

/-! ## Three bytes -/

def sampleDtn : DtnHost :=
  { Path.sampleHost with isoDate := fun _ => none, send := fun _ _ _ => .ok () }

/-- Node 2, with one service. -/
def nodeConfig (requireIngressReceipt : Bool) : GatewayConfig where
  scheme := "ipn"
  nodeName := "2"
  reassembly := { lifetimeMs := .inf false, maxReassemblyBytes := .fin 3 }
  requireIngressReceipt
  udp service := if service = "1" then some (js "127.0.0.1:9") else none

/-- Three bytes for it, without a receipt. -/
def plainArgs : BundleArgs where
  payload := [1, 2, 3]
  source := "ipn:1.1"
  dest := "ipn:2.1"
  lifetimeMs := .fin 1000
  seq := .fin 0
  now := .fin 946684800001
  maxPayload := .fin 2

/-- They are sent in two fragments. -/
def fragmentAt (i : Nat) : Bytes :=
  (((makeBundles sampleDtn.toGatewayHost plainArgs).toOption.getD [])[i]?).getD []

theorem checkable_of_none {b : Bundle} (h : b.ofType ingressBlockType = none) : Checkable H cfg b := by
  intro blk hblk
  rw [h] at hblk
  cases hblk

/-- The second fragment completes the set, and the three bytes are delivered. -/
theorem fragments_accounted : ((fromDtn sampleDtn (nodeConfig false) 0
      (Gate.serve sampleDtn (nodeConfig false) [(0, fragmentAt 0)]) (fragmentAt 1)).2.delivered.map
        Delivery.payload = [[1, 2, 3]]) ∧
    (fromDtn sampleDtn (nodeConfig false) 0 (Gate.serve sampleDtn (nodeConfig false) [(0, fragmentAt 0)])
      (fragmentAt 1)).1 = .ok () ∧
    ∃! fate, Accounts sampleDtn (nodeConfig false) 0
      (Gate.serve sampleDtn (nodeConfig false) [(0, fragmentAt 0)]) (fragmentAt 1)
      (fromDtn sampleDtn (nodeConfig false) 0 (Gate.serve sampleDtn (nodeConfig false) [(0, fragmentAt 0)])
        (fragmentAt 1)).2 fate := by
  have hnone : (Bundle.decodeBundle sampleDtn.toNode (fragmentAt 1)).toOption.all (fun b =>
      ((reassemble sampleDtn.toNode (nodeConfig false).reassembly 0
        (Gate.serve sampleDtn (nodeConfig false) [(0, fragmentAt 0)]).reassembly b).2.toOption.getD none).all
          fun w => (w.ofType ingressBlockType).isNone) = true := by decide +kernel
  refine ⟨by decide +kernel, ?_⟩
  apply fromDtn_accounts sampleDtn (nodeConfig false)
  · exact fun _ _ _ _ => Outcome.returns_ok ()
  · intro b w hb _ hw
    rw [hb] at hnone
    have hthis : (w.ofType ingressBlockType).isNone = true := by
      have hrest := hnone
      simp only [Except.toOption, Option.all_some] at hrest
      rw [hw] at hrest
      exact hrest
    exact checkable_of_none (Option.isNone_iff_eq_none.mp hthis)

/-- A bundle whose receipt is an array in an array, forty times. -/
def deepBundle : Bytes :=
  let text := String.ofList (List.replicate 40 '[' ++ List.replicate 40 ']')
  let data := ((Cbor.Item.array [.text text]).encodeItem).toOption.getD []
  (Bundle.encodeBundle sampleDtn.toNode
    (bundleObject plainArgs [ingressBlock data] (.int 1, .int 0) (.int 1000) none [1])).toOption.getD []

/-- **A call that throws, and a rejection that changes the buffer**: the receipt of a whole bundle is too
deep, and a set is complete when its receipt is found to be missing. -/
theorem receipt_unguarded :
    (fromDtn sampleDtn (nodeConfig false) 0 {} deepBundle).1.isOk = false ∧
      let g := Gate.serve sampleDtn (nodeConfig true) [(0, fragmentAt 0)]
      let g' := (fromDtn sampleDtn (nodeConfig true) 0 g (fragmentAt 1)).2
      g'.rejected = g.rejected + 1 ∧ g.reassembly.partials.size = 1 ∧
        g'.reassembly.partials.size = 0 ∧ g'.reassembly.reassembled = g.reassembly.reassembled + 1 := by
  decide +kernel

end Gateway

end DtnCustody
