/-
# DtnCustody.Relief.Provision — `provision` and `revoke` of `relief/kit/provision.mjs`, and which key a name
stands for at a time, as keys are revoked.

The directory of a hub has the keys of the clinics and those of the relays, and the keys that were
revoked. Revoking puts a new key where the old one was. The old one goes to the list with its node and
its time, and there it no longer says whether the node is a clinic or a relay. Here the directory is the
one in the configuration of the hub; the private keys, the addresses and the other files are left out.

A directory that is revoked in only after a time should say of that time what it said before. For the
test of a signer it does (`Extends.isRevoked_eq`). For the key of a name it does within one book: the
list of revoked keys answers for a name whichever book is asked, so once a relay's key is on it, the
relay has a key as a clinic at every time before (`Extends.keyAt_eq`, `Extends.keysAt_eq`, with what they
ask of the name).
-/
import DtnCustody.Relief.Hub

namespace DtnCustody

open Base Js

namespace Relief

/-! ## A deployment -/

/-- A node of `deployment.nodes`; its properties are strings, and `next` may be missing. -/
structure DeployNode where
  name : String
  role : String
  eid : String
  next : Option String := none

def roles : List String := ["clinic", "relay", "hub"]

/-- `[a-z0-9]`. -/
def isLowerOrDigit (c : Char) : Bool := c.isLower || c.isDigit

/-- `/^[a-z0-9][a-z0-9-]*$/`. -/
def isNodeName (s : String) : Bool :=
  match s.toList with
  | [] => false
  | c :: rest => isLowerOrDigit c && rest.all fun c => isLowerOrDigit c || c = '-'

/-- `/^dtn:\/\/[a-z0-9.-]+\/$/`. -/
def isNodeEid (s : String) : Bool :=
  let back := s.toList.drop 6
  s.toList.take 6 = "dtn://".toList && back.getLast? = some '/' && !back.dropLast.isEmpty &&
    back.dropLast.all fun c => isLowerOrDigit c || c = '.' || c = '-'

/-- The loop over the nodes, with the names and endpoints so far. -/
def checkNodes (nodes : List DeployNode) : (names eids : List String) → List DeployNode → Outcome Unit
  | _, _, [] => .ok ()
  | names, eids, n :: rest =>
      if n.role ∉ roles then .error (.error (n.name ++ ": role must be clinic, relay or hub"))
      else if isNodeName n.name = false then .error (.error ("bad node name " ++ n.name))
      else if isNodeEid n.eid = false then
        .error (.error (n.name ++ ": eid must look like dtn://name.dtn/"))
      else if n.name ∈ names ∨ n.eid ∈ eids then
        .error (.error ("duplicate node " ++ n.name ++ " / " ++ n.eid))
      else if n.role ≠ "hub" ∧ ¬ nodes.any (fun m => n.next = some m.eid) then
        .error (.error (n.name ++ ": next hop " ++ n.next.getD "undefined" ++
          " is not a node in this deployment"))
      else checkNodes nodes (names ++ [n.name]) (eids ++ [n.eid]) rest

/-- The keys of the nodes of a role; `pubOf` is what `genKeypair` gave for a name. -/
def bookOf (pubOf : String → JsString) (role : String) (nodes : List DeployNode) :
    List (JsString × Json) :=
  (nodes.filter (·.role = role)).map fun n => (js n.eid, .str (pubOf n.name))

/-- `provision(deployment)`. -/
def provision (pubOf : String → JsString) (nodes : List DeployNode) : Outcome Directory :=
  if (nodes.filter (·.role = "hub")).length ≠ 1 then
    .error (.error "deployment needs exactly one hub")
  else do
    checkNodes nodes [] [] nodes
    return { clinics := bookOf pubOf "clinic" nodes, relays := bookOf pubOf "relay" nodes }

/-- `revoke(…, name, { at })`, from the configuration of the node on; `pub` is its new key. The nodes
of a deployment have their keys in the directory. -/
def Directory.revoke (d : Directory) (n : DeployNode) (pub : JsString) (revokedAt : Int) :
    Outcome Directory :=
  if n.role = "hub" then
    .error (.error "the hub's key cannot be revoked here: provision a new deployment")
  else
    let book := if n.role = "clinic" then d.clinics else d.relays
    match Pin.find book (js n.eid) with
    | .own (.str old) =>
        let renewed := Receipt.setProp book (js n.eid) (.str pub)
        let revoked := d.revoked ++ [{ eid := js n.eid, pub := old, revokedAt }]
        .ok (if n.role = "clinic" then { d with clinics := renewed, revoked }
          else { d with relays := renewed, revoked })
    | _ => .error .typeError

/-! ## What a directory keeps -/

/-- No endpoint has a key as a clinic and one as a relay. -/
def Directory.Apart (d : Directory) : Prop :=
  ∀ eid ∈ d.clinics.map Prod.fst, eid ∉ d.relays.map Prod.fst

/-- The nodes that pass have a role each, and no name or endpoint twice. -/
theorem checkNodes_ok {nodes rest : List DeployNode} : ∀ {names eids : List String},
    checkNodes nodes names eids rest = .ok () →
      (rest.Pairwise fun n m => n.name ≠ m.name ∧ n.eid ≠ m.eid) ∧
        ∀ n ∈ rest, n.role ∈ roles ∧ n.name ∉ names ∧ n.eid ∉ eids := by
  induction rest with
  | nil => exact fun _ => ⟨List.Pairwise.nil, fun n hn => absurd hn List.not_mem_nil⟩
  | cons n rest ih =>
      intro names eids h
      unfold checkNodes at h
      split at h
      · cases h
      · next hrole =>
        split at h
        · cases h
        · split at h
          · cases h
          · split at h
            · cases h
            · next hnew =>
              split at h
              · cases h
              · obtain ⟨hpairs, hfresh⟩ := ih h
                rw [List.pairwise_cons, List.forall_mem_cons]
                refine ⟨⟨fun m hm => ?_, hpairs⟩, ⟨not_not.mp hrole, not_or.mp hnew⟩, fun m hm => ?_⟩
                · obtain ⟨-, hname, heid⟩ := hfresh m hm
                  constructor
                  · intro hsame
                    apply hname
                    rw [hsame]
                    exact List.mem_append_right _ List.mem_cons_self
                  · intro hsame
                    apply heid
                    rw [hsame]
                    exact List.mem_append_right _ List.mem_cons_self
                · obtain ⟨hrole, hname, heid⟩ := hfresh m hm
                  exact ⟨hrole, fun hold => hname (List.mem_append_left _ hold),
                    fun hold => heid (List.mem_append_left _ hold)⟩

theorem checkNodes_eids {nodes : List DeployNode} (h : checkNodes nodes [] [] nodes = .ok ()) :
    (nodes.map (·.eid)).Nodup :=
  List.pairwise_map.mpr ((checkNodes_ok h).1.imp fun hne => hne.2)

theorem checkNodes_names {nodes : List DeployNode} (h : checkNodes nodes [] [] nodes = .ok ()) :
    (nodes.map (·.name)).Nodup :=
  List.pairwise_map.mpr ((checkNodes_ok h).1.imp fun hne => hne.1)

/-- **A directory that was provisioned** has every endpoint in one book, and nothing revoked. -/
theorem provision_apart {pubOf : String → JsString} {nodes : List DeployNode} {d : Directory}
    (h : provision pubOf nodes = .ok d) : d.Apart ∧ d.revoked = [] := by
  unfold provision at h
  split at h
  · cases h
  · obtain ⟨_, hcheck, h⟩ := Outcome.bind_eq_ok.mp h
    cases h
    have hnodup := checkNodes_eids hcheck
    refine ⟨?_, rfl⟩
    intro eid hclinic hrelay
    obtain ⟨p, hp, hpeid⟩ := List.mem_map.mp hclinic
    obtain ⟨q, hq, hqeid⟩ := List.mem_map.mp hrelay
    obtain ⟨n, hn, rfl⟩ := List.mem_map.mp hp
    obtain ⟨m, hm, rfl⟩ := List.mem_map.mp hq
    have heid : js m.eid = js n.eid := hqeid.trans hpeid.symm
    rw [List.mem_filter, decide_eq_true_eq] at hn hm
    have hsame : m = n := List.inj_on_of_nodup_map hnodup hm.1 hn.1 (js_inj.mp heid)
    have hroles : "clinic" = "relay" := by rw [← hn.2, ← hm.2, hsame]
    exact absurd hroles (by decide)

theorem keys_setProp {fields : List (JsString × Json)} {key : JsString} {v w : Json}
    (h : Pin.find fields key = .own w) :
    (Receipt.setProp fields key v).map Prod.fst = fields.map Prod.fst := by
  have hany : fields.any (fun p => p.1 = key) = true := by
    unfold Pin.find at h
    split at h
    · next p hp =>
      have hkey := List.find?_some hp
      exact List.any_eq_true.mpr ⟨p, List.mem_of_find?_eq_some hp, hkey⟩
    · split at h <;> cases h
  rw [Receipt.setProp, if_pos hany, List.map_map]
  apply List.map_congr_left
  intro p _
  show (if p.1 = key then (p.1, v) else p).1 = p.1
  split <;> rfl

theorem mem_keys_find {fields : List (JsString × Json)} {key : JsString} {w : Json}
    (h : Pin.find fields key = .own w) : key ∈ fields.map Prod.fst := by
  unfold Pin.find at h
  split at h
  · next p hp =>
    have hkey : p.1 = key := by simpa using List.find?_some hp
    exact List.mem_map.mpr ⟨p, List.mem_of_find?_eq_some hp, hkey⟩
  · split at h <;> cases h

/-- **What revoking does**: a new key in the book of the node, and the old one on the list. -/
theorem revoke_ok {d d' : Directory} {n : DeployNode} {pub : JsString} {t : Int}
    (h : d.revoke n pub t = .ok d') : ∃ old : JsString,
      d'.revoked = d.revoked ++ [{ eid := js n.eid, pub := old, revokedAt := t }] ∧
      ((Pin.find d.clinics (js n.eid) = .own (.str old) ∧ d'.relays = d.relays ∧
          d'.clinics = Receipt.setProp d.clinics (js n.eid) (.str pub)) ∨
        (Pin.find d.relays (js n.eid) = .own (.str old) ∧ d'.clinics = d.clinics ∧
          d'.relays = Receipt.setProp d.relays (js n.eid) (.str pub))) := by
  unfold Directory.revoke at h
  split at h
  · cases h
  · dsimp only at h
    split at h
    · next old hold =>
      refine ⟨old, ?_⟩
      by_cases hclinic : n.role = "clinic"
      · rw [if_pos hclinic] at h hold
        cases h
        exact ⟨rfl, .inl ⟨hold, rfl, by rw [if_pos hclinic]⟩⟩
      · rw [if_neg hclinic] at h hold
        cases h
        exact ⟨rfl, .inr ⟨hold, rfl, by rw [if_neg hclinic]⟩⟩
    · cases h

/-- Revoking adds to no book. -/
theorem keys_revoke {d d' : Directory} {n : DeployNode} {pub : JsString} {t : Int}
    (h : d.revoke n pub t = .ok d') : d'.clinics.map Prod.fst = d.clinics.map Prod.fst ∧
      d'.relays.map Prod.fst = d.relays.map Prod.fst := by
  obtain ⟨old, -, ⟨hfind, hrelays, hclinics⟩ | ⟨hfind, hclinics, hrelays⟩⟩ := revoke_ok h
  · rw [hrelays, hclinics, keys_setProp hfind]
    exact ⟨rfl, rfl⟩
  · rw [hrelays, hclinics, keys_setProp hfind]
    exact ⟨rfl, rfl⟩

theorem apart_revoke {d d' : Directory} {n : DeployNode} {pub : JsString} {t : Int}
    (h : d.revoke n pub t = .ok d') (hd : d.Apart) : d'.Apart := by
  obtain ⟨hclinics, hrelays⟩ := keys_revoke h
  unfold Directory.Apart
  rw [hclinics, hrelays]
  exact hd

end Relief

end DtnCustody

namespace DtnCustody

open Base Js

namespace Relief

/-! ## The list of revoked keys -/

/-- Keys are revoked one after the other. -/
def Directory.Ordered (d : Directory) : Prop := d.revoked.Pairwise fun r s => r.revokedAt ≤ s.revokedAt

theorem laterKey_eq {revoked : List Revoked} (h : revoked.Pairwise fun r s => r.revokedAt ≤ s.revokedAt)
    (eid : JsonVal) (t : Int) : laterKey revoked eid t =
      revoked.find? fun r => JsonVal.strictEq (some (.str r.eid)) eid && decide (t < r.revokedAt) := by
  unfold laterKey
  rw [(h.filter _).insertionSort_eq, List.head?_filter]

/-- The next key to be revoked counts for a time before, if no other does. -/
theorem laterKey_append {revoked : List Revoked} {r : Revoked}
    (h : (revoked ++ [r]).Pairwise fun r s => r.revokedAt ≤ s.revokedAt) (eid : JsonVal) {t : Int}
    (ht : t < r.revokedAt) : laterKey (revoked ++ [r]) eid t = (laterKey revoked eid t).or
      (if JsonVal.strictEq (some (.str r.eid)) eid then some r else none) := by
  rw [laterKey_eq h, laterKey_eq (List.pairwise_append.mp h).1, List.find?_append]
  congr 1
  rw [List.find?_singleton, decide_eq_true ht, Bool.and_true]

theorem isRevoked_append {revoked : List Revoked} {r : Revoked} (pub : JsonVal) {t : Int}
    (ht : t < r.revokedAt) : isRevoked (revoked ++ [r]) pub t = isRevoked revoked pub t := by
  have hlate : ¬ r.revokedAt ≤ t := not_le.mpr ht
  rw [isRevoked, isRevoked, List.any_append, List.any_cons, List.any_nil, decide_eq_false hlate,
    Bool.and_false, Bool.or_false, Bool.or_false]

/-! ## A directory and a later one -/

/-- `d'` is `d` after keys were revoked, all of them after `t`. -/
inductive Extends (t : Int) (d : Directory) : Directory → Prop where
  | same : Extends t d d
  | revoke {d' d'' : Directory} {n : DeployNode} {pub : JsString} {revokedAt : Int} : Extends t d d' →
      t < revokedAt → d''.Ordered → d'.revoke n pub revokedAt = .ok d'' → Extends t d d''

/-- The name `v` of a clinic, if it stands for a node whose key is revoked after `t`: it is the text of
the endpoint, and the node is a clinic. -/
def ClinicNamed (N : Node) (d : Directory) (t : Int) (v : JsonVal) : Prop :=
  ∀ r ∈ d.revoked, t < r.revokedAt → JsonVal.toStr N v = .ok r.eid →
    v = some (.str r.eid) ∧ r.eid ∈ d.clinics.map Prod.fst

/-- The name of a relay, if it stands for a node whose key is revoked after `t`: the node is a relay. -/
def RelayNamed (d : Directory) (t : Int) (name : JsString) : Prop :=
  ∀ r ∈ d.revoked, t < r.revokedAt → name = r.eid → r.eid ∈ d.relays.map Prod.fst

variable {t : Int} {d d' d'' : Directory}

theorem Extends.trans (h : Extends t d d') (h' : Extends t d' d'') : Extends t d d'' := by
  induction h' with
  | same => exact h
  | revoke _ hlate hordered hrevoke ih => exact ih.revoke hlate hordered hrevoke

theorem Extends.apart (h : Extends t d d') (hd : d.Apart) : d'.Apart := by
  induction h with
  | same => exact hd
  | revoke _ _ _ hrevoke ih => exact apart_revoke hrevoke ih

theorem Extends.isRevoked_eq (h : Extends t d d') (pub : JsonVal) :
    isRevoked d'.revoked pub t = isRevoked d.revoked pub t := by
  induction h with
  | same => rfl
  | revoke _ hlate _ hrevoke ih =>
      obtain ⟨old, hrevoked, -⟩ := revoke_ok hrevoke
      rw [hrevoked, isRevoked_append pub hlate, ih]

/-- One more key revoked is on the list, behind those that were. -/
theorem laterKey_revoke {n : DeployNode} {pub : JsString} {revokedAt : Int} (hlate : t < revokedAt)
    (hordered : d'.Ordered) (hrevoke : d.revoke n pub revokedAt = .ok d') : ∃ old : JsString,
      { eid := js n.eid, pub := old, revokedAt } ∈ d'.revoked ∧
      (∀ v, laterKey d'.revoked v t = (laterKey d.revoked v t).or
        (if JsonVal.strictEq (some (.str (js n.eid))) v then some { eid := js n.eid, pub := old, revokedAt }
          else none)) ∧
      ((Pin.find d.clinics (js n.eid) = .own (.str old) ∧ d'.relays = d.relays ∧
          d'.clinics = Receipt.setProp d.clinics (js n.eid) (.str pub)) ∨
        (Pin.find d.relays (js n.eid) = .own (.str old) ∧ d'.clinics = d.clinics ∧
          d'.relays = Receipt.setProp d.relays (js n.eid) (.str pub))) := by
  obtain ⟨old, hrevoked, hbooks⟩ := revoke_ok hrevoke
  unfold Directory.Ordered at hordered
  rw [hrevoked] at hordered ⊢
  exact ⟨old, List.mem_append_right _ List.mem_cons_self, fun v => laterKey_append hordered v hlate, hbooks⟩

/-- One more key revoked, for the key of a clinic. -/
theorem keyAt_revoke {N : Node} {n : DeployNode} {pub : JsString} {revokedAt : Int}
    (hlate : t < revokedAt) (hordered : d'.Ordered) (hrevoke : d.revoke n pub revokedAt = .ok d')
    (hapart : d.Apart) {v : JsonVal} (hv : ClinicNamed N d' t v) :
    keyAt N d'.clinics d'.revoked v t = keyAt N d.clinics d.revoked v t := by
  obtain ⟨old, hmem, hkey, hbooks⟩ := laterKey_revoke hlate hordered hrevoke
  have hnamed := hv _ hmem hlate
  unfold keyAt
  rw [hkey]
  cases laterKey d.revoked v t with
  | some r => rfl
  | none =>
      rw [Option.none_or]
      split
      · next r hr =>
        -- the node itself: it is a clinic, and before it had the old key
        split at hr
        · next hsame =>
          cases hr
          obtain rfl : some (.str (js n.eid)) = v := JsonVal.eq_of_strictEq hsame
          have hclinic := (hnamed rfl).2
          rcases hbooks with ⟨hfind, -, -⟩ | ⟨hfind, hclinics, -⟩
          · show _ = Except.ok (Pin.find d.clinics (js n.eid))
            rw [hfind]
          · rw [hclinics] at hclinic
            exact absurd (mem_keys_find hfind) (hapart _ hclinic)
        · cases hr
      · next hnone =>
        split at hnone
        · cases hnone
        · next hother =>
          cases hname : JsonVal.toStr N v with
          | error e => rfl
          | ok name =>
              show Except.ok (Pin.find d'.clinics name) = Except.ok (Pin.find d.clinics name)
              rcases hbooks with ⟨hfind, -, hclinics⟩ | ⟨-, hclinics, -⟩
              · have hne : name ≠ js n.eid := by
                  rintro rfl
                  obtain ⟨rfl, -⟩ := hnamed hname
                  exact hother (by simp [JsonVal.strictEq])
                rw [hclinics, Pin.find_setProp_ne hne]
              · rw [hclinics]

/-- **The key of a clinic's name at a time** is not changed by what is revoked later. -/
theorem Extends.keyAt_eq {N : Node} (h : Extends t d d') (hapart : d.Apart) {v : JsonVal}
    (hv : ClinicNamed N d' t v) :
    keyAt N d'.clinics d'.revoked v t = keyAt N d.clinics d.revoked v t := by
  induction h with
  | same => rfl
  | @revoke d₁ d₂ n pub revokedAt hext hlate hordered hrevoke ih =>
      rw [keyAt_revoke hlate hordered hrevoke (hext.apart hapart) hv]
      apply ih
      obtain ⟨old, hrevoked, -⟩ := revoke_ok hrevoke
      intro r hr hrt hname
      rw [← (keys_revoke hrevoke).1]
      exact hv r (by rw [hrevoked]; exact List.mem_append_left _ hr) hrt hname

/-- One more key revoked, for the key of a relay. -/
theorem keysAt_revoke {n : DeployNode} {pub : JsString} {revokedAt : Int}
    (hlate : t < revokedAt) (hordered : d'.Ordered) (hrevoke : d.revoke n pub revokedAt = .ok d')
    (hapart : d.Apart) {name : JsString} (hv : RelayNamed d' t name) :
    keysAt d'.relays d'.revoked t name = keysAt d.relays d.revoked t name := by
  obtain ⟨old, hmem, hkey, hbooks⟩ := laterKey_revoke hlate hordered hrevoke
  have hnamed := hv _ hmem hlate
  unfold keysAt
  rw [hkey]
  cases laterKey d.revoked (some (.str name)) t with
  | some r => rfl
  | none =>
      rw [Option.none_or]
      split
      · next r hr =>
        split at hr
        · next hsame =>
          cases hr
          obtain rfl : js n.eid = name := by simpa using JsonVal.eq_of_strictEq hsame
          have hrelay := hnamed rfl
          rcases hbooks with ⟨hfind, hrelays, -⟩ | ⟨hfind, -, -⟩
          · rw [hrelays] at hrelay
            exact absurd hrelay (hapart _ (mem_keys_find hfind))
          · rw [hfind]
        · cases hr
      · next hnone =>
        split at hnone
        · cases hnone
        · next hother =>
          rcases hbooks with ⟨-, hrelays, -⟩ | ⟨-, -, hrelays⟩
          · rw [hrelays]
          · have hne : name ≠ js n.eid := by
              rintro rfl
              exact hother (by simp [JsonVal.strictEq])
            rw [hrelays, Pin.find_setProp_ne hne]

/-- **The key of a relay's name at a time** is not changed by what is revoked later. -/
theorem Extends.keysAt_eq (h : Extends t d d') (hapart : d.Apart) {name : JsString}
    (hv : RelayNamed d' t name) :
    keysAt d'.relays d'.revoked t name = keysAt d.relays d.revoked t name := by
  induction h with
  | same => rfl
  | @revoke d₁ d₂ n pub revokedAt hext hlate hordered hrevoke ih =>
      rw [keysAt_revoke hlate hordered hrevoke (hext.apart hapart) hv]
      apply ih
      obtain ⟨old, hrevoked, -⟩ := revoke_ok hrevoke
      intro r hr hrt hname
      rw [← (keys_revoke hrevoke).2]
      exact hv r (by rw [hrevoked]; exact List.mem_append_left _ hr) hrt hname

end Relief

end DtnCustody
