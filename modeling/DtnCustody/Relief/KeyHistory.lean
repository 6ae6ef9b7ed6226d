/-
# DtnCustody.Relief.KeyHistory — the files of a deployment as keys are revoked.

`provision` writes three copies of a node's public key: one in the configuration of the node, one in the
public directory, one in the hub's copy of the directory. `revoke` renews all three, and puts the old key
on the two lists of revoked keys. The books of a directory hold the latest key only. A key of before is
found again on the list: the first one on it that was revoked later than the time asked for
(`key_history`).

The payout addresses, the data rates and the other settings stay what they are and are left out, and so
is the reason of a revocation. A name that every object has as a property is no node's.
-/
import DtnCustody.Relief.Provision

namespace DtnCustody

open Base Js

namespace Relief

/-! ## The two books -/

/-- `directory[book]`, with `book` as it is chosen for a role. -/
def Directory.book (d : Directory) (role : String) : List (JsString × Json) :=
  if role = "clinic" then d.clinics else d.relays

/-- The directory with a new key in a book, and the record of the old one. -/
def Directory.renew (d : Directory) (role : String) (eid pub : JsString) (record : Revoked) :
    Directory :=
  let renewed := Receipt.setProp (d.book role) eid (.str pub)
  let revoked := d.revoked ++ [record]
  if role = "clinic" then { d with clinics := renewed, revoked } else { d with relays := renewed, revoked }

theorem Directory.revoke_eq {d : Directory} {n : DeployNode} {old pub : JsString} {t : Int}
    (hrole : n.role ≠ "hub") (hold : Pin.find (d.book n.role) (js n.eid) = .own (.str old)) :
    d.revoke n pub t =
      .ok (d.renew n.role (js n.eid) pub { eid := js n.eid, pub := old, revokedAt := t }) := by
  unfold Directory.book at hold
  rw [Directory.revoke, if_neg hrole]
  dsimp only
  rw [hold]
  rfl

/-- The key of another endpoint stays, in either book. -/
theorem Directory.find_renew_ne {d : Directory} {role role' : String} {eid eid' pub : JsString}
    {record : Revoked} (h : eid' ≠ eid) :
    Pin.find ((d.renew role eid pub record).book role') eid' = Pin.find (d.book role') eid' := by
  unfold Directory.renew Directory.book
  by_cases hrole : role = "clinic"
  · by_cases hrole' : role' = "clinic"
    · rw [if_pos hrole, if_pos hrole', if_pos hrole', if_pos hrole]
      exact Pin.find_setProp_ne h
    · rw [if_pos hrole, if_neg hrole', if_neg hrole']
  · by_cases hrole' : role' = "clinic"
    · rw [if_neg hrole, if_pos hrole', if_pos hrole']
    · rw [if_neg hrole, if_neg hrole', if_neg hrole', if_neg hrole]
      exact Pin.find_setProp_ne h

theorem Directory.find_renew_self (d : Directory) (role : String) (eid pub : JsString)
    (record : Revoked) : Pin.find ((d.renew role eid pub record).book role) eid = .own (.str pub) := by
  have hset := Pin.find_setProp_self (d.book role) eid (.str pub)
  unfold Directory.renew
  by_cases hrole : role = "clinic"
  · rw [if_pos hrole]
    unfold Directory.book at hset ⊢
    rw [if_pos hrole] at hset ⊢
    rw [if_pos hrole]
    exact hset
  · rw [if_neg hrole]
    unfold Directory.book at hset ⊢
    rw [if_neg hrole] at hset ⊢
    rw [if_neg hrole]
    exact hset

theorem Directory.revoked_renew (d : Directory) (role : String) (eid pub : JsString) (record : Revoked) :
    (d.renew role eid pub record).revoked = d.revoked ++ [record] := by
  unfold Directory.renew
  dsimp only
  split <;> rfl

/-! ## A key asked for -/

/-- A key on the list, with the time it was revoked. -/
def Revoked.entry (r : Revoked) : JsString × Int := (r.pub, r.revokedAt)

/-- With all revocations past, the key of an endpoint is the one in its book. -/
theorem keyAt_past (N : Node) {current : List (JsString × Json)} {revoked : List Revoked}
    (eid : JsString) {t : Int} (h : ∀ r ∈ revoked, r.revokedAt ≤ t) :
    keyAt N current revoked (some (.str eid)) t = .ok (Pin.find current eid) := by
  have hnone : laterKey revoked (some (.str eid)) t = none := by
    have hfilter : (revoked.filter fun r => JsonVal.strictEq (some (.str r.eid)) (some (.str eid)) &&
        decide (t < r.revokedAt)) = [] := by
      refine List.filter_eq_nil_iff.mpr fun r hr => ?_
      rw [decide_eq_false (not_lt.mpr (h r hr)), Bool.and_false]
      exact Bool.false_ne_true
    rw [laterKey, hfilter]
    rfl
  rw [keyAt, hnone]
  rfl

/-- A key of a node, asked for before later revocations. -/
theorem Extends.keyAt_book (N : Node) {t : Int} {d d' : Directory} (h : Extends t d d')
    (hapart : d.Apart) {role : String} {eid : JsString} {v : Json}
    (hbook : Pin.find (d'.book role) eid = .own v) :
    keyAt N (d'.book role) d'.revoked (some (.str eid)) t =
      keyAt N (d.book role) d.revoked (some (.str eid)) t := by
  have hmem := mem_keys_find hbook
  unfold Directory.book at hmem ⊢
  split
  · next hrole =>
    rw [if_pos hrole] at hmem
    refine h.keyAt_eq hapart fun r _ _ hname => ?_
    obtain rfl : eid = r.eid := Except.ok.inj hname
    exact ⟨rfl, hmem⟩
  · next hrole =>
    rw [if_neg hrole] at hmem
    have hkeys : keysAt d'.relays d'.revoked t eid = keysAt d.relays d.revoked t eid :=
      h.keysAt_eq hapart fun r _ _ hname => hname ▸ hmem
    unfold keysAt at hkeys
    unfold keyAt
    cases hd' : laterKey d'.revoked (some (.str eid)) t <;>
      cases hd : laterKey d.revoked (some (.str eid)) t <;> rw [hd', hd] at hkeys <;>
        exact congrArg Except.ok hkeys

/-! ## The files -/

namespace Kit

/-- The configuration of a node; the hub has a copy of the directory in it. -/
structure Config where
  name : String
  role : String
  eid : String
  sign : AgentKey
  hubSignPub : JsString
  directory : Option Directory

/-- `{ directory, configs }`. -/
structure Files where
  directory : Directory
  hubSignPub : JsString
  configs : JsMap String Config

def configOf (keys : String → AgentKey) (hubSignPub : JsString) (d : Directory) (n : DeployNode) :
    Config where
  name := n.name
  role := n.role
  eid := n.eid
  sign := keys n.name
  hubSignPub := hubSignPub
  directory := if n.role = "hub" then some d else none

/-- `provision(deployment)`; `keys` is what `genKeypair` gave for each name. -/
def provision (keys : String → AgentKey) (nodes : List DeployNode) : Outcome Files := do
  let directory ← Relief.provision (fun name => (keys name).pub) nodes
  match nodes.find? fun n => n.role = "hub" with
  | none => .error .typeError
  | some hub =>
      let hubSignPub := (keys hub.name).pub
      let configs := nodes.map fun n => (n.name, configOf keys hubSignPub directory n)
      return { directory, hubSignPub, configs := JsMap.ofList configs }

/-- `Object.keys(configs).find((k) => configs[k].role === "hub")`. -/
def hubName (configs : JsMap String Config) : Option String :=
  configs.keys.find? fun k => (configs.get? k).any fun c => c.role = "hub"

/-- `revoke({ directory, configs }, name, { at })`; `fresh` is what `genKeypair` gave. -/
def revoke (f : Files) (name : String) (revokedAt : Int) (fresh : AgentKey) : Outcome Files :=
  match f.configs.get? name with
  | none => .error (.error ("no node named " ++ name))
  | some cfg =>
      if cfg.role = "hub" then
        .error (.error "the hub's key cannot be revoked here: provision a new deployment")
      else
        match Pin.find (f.directory.book cfg.role) (js cfg.eid), hubName f.configs with
        | .own (.str old), some hub =>
            match f.configs.get? hub with
            | some hubCfg =>
                let record : Revoked := { eid := js cfg.eid, pub := old, revokedAt }
                let renew := fun d : Directory => d.renew cfg.role (js cfg.eid) fresh.pub record
                .ok { f with
                  directory := renew f.directory
                  configs := (f.configs.set name { cfg with sign := fresh }).set hub
                    { hubCfg with directory := hubCfg.directory.map renew } }
            | none => .error .typeError
        | _, _ => .error .typeError

/-- One call of `revoke`. -/
structure Call where
  name : String
  time : Int
  fresh : AgentKey

def revokeAll (f : Files) : List Call → Outcome Files
  | [] => .ok f
  | c :: rest => do revokeAll (← revoke f c.name c.time c.fresh) rest

/-! ## The keys that were given out -/

/-- The key of each node after the calls. -/
def issued (keys : String → AgentKey) (calls : List Call) : String → AgentKey :=
  calls.foldl (fun keys c => Function.update keys c.name c.fresh) keys

/-- The keys that the calls replace, with the times. -/
def replaced (keys : String → AgentKey) : List Call → List (JsString × Int)
  | [] => []
  | c :: rest => ((keys c.name).pub, c.time) :: replaced (Function.update keys c.name c.fresh) rest

theorem mem_replaced {calls : List Call} : ∀ {keys : String → AgentKey} {pub : JsString} {t : Int},
    (pub, t) ∈ replaced keys calls ↔ ∃ before c after, calls = before ++ c :: after ∧ c.time = t ∧
      (issued keys before c.name).pub = pub := by
  induction calls with
  | nil =>
      refine fun {_ _ _} => ⟨fun h => absurd h List.not_mem_nil, ?_⟩
      rintro ⟨before, c, after, h, -⟩
      exact absurd h.symm (List.append_ne_nil_of_right_ne_nil _ (List.cons_ne_nil _ _))
  | cons d rest ih =>
      intro keys pub t
      rw [replaced, List.mem_cons, ih]
      constructor
      · rintro (h | ⟨before, c, after, rfl, htime, hpub⟩)
        · cases h
          exact ⟨[], d, rest, rfl, rfl, rfl⟩
        · exact ⟨d :: before, c, after, rfl, htime, hpub⟩
      · rintro ⟨before, c, after, hsplit, htime, hpub⟩
        cases before with
        | nil =>
            cases hsplit
            exact Or.inl (by rw [← htime, ← hpub]; rfl)
        | cons e before =>
            cases hsplit
            exact Or.inr ⟨before, c, after, rfl, htime, hpub⟩

theorem times_replaced {calls : List Call} : ∀ {keys : String → AgentKey},
    (replaced keys calls).map Prod.snd = calls.map Call.time := by
  induction calls with
  | nil => exact rfl
  | cons c rest ih =>
      intro keys
      rw [replaced, List.map_cons, List.map_cons, ih]

/-! ## The copies agree -/

/-- What `provision` checks of the nodes. -/
structure Checked (nodes : List DeployNode) : Prop where
  names : (nodes.map (·.name)).Nodup
  eids : (nodes.map (·.eid)).Nodup
  hub : ∃ hub ∈ nodes, hub.role = "hub" ∧ ∀ n ∈ nodes, n.role = "hub" → n = hub

/-- The copies of the keys: what is in the configuration of each node, the hub with its own copy of the
directory, and the books, in which every node but the hub has its key. -/
structure Consistent (nodes : List DeployNode) (keys : String → AgentKey) (f : Files) : Prop where
  config : ∀ n ∈ nodes,
    f.configs.get? n.name = some (configOf keys f.hubSignPub f.directory n)
  only : ∀ name ∈ f.configs.keys, ∃ n ∈ nodes, n.name = name
  book : ∀ n ∈ nodes, n.role ≠ "hub" →
    Pin.find (f.directory.book n.role) (js n.eid) = .own (.str (keys n.name).pub)
  hub : ∀ n ∈ nodes, n.role = "hub" → f.hubSignPub = (keys n.name).pub

variable {nodes : List DeployNode} {keys : String → AgentKey} {f f' : Files}

theorem Checked.eq_of_name (h : Checked nodes) {n m : DeployNode} (hn : n ∈ nodes) (hm : m ∈ nodes)
    (hname : n.name = m.name) : n = m := List.inj_on_of_nodup_map h.names hn hm hname

theorem Checked.eq_of_eid (h : Checked nodes) {n m : DeployNode} (hn : n ∈ nodes) (hm : m ∈ nodes)
    (heid : js n.eid = js m.eid) : n = m := List.inj_on_of_nodup_map h.eids hn hm (js_inj.mp heid)

theorem find_bookOf (h : Checked nodes) (pubOf : String → JsString) {n : DeployNode} (hn : n ∈ nodes) :
    Pin.find (bookOf pubOf n.role nodes) (js n.eid) = .own (.str (pubOf n.name)) := by
  have hmem : (js n.eid, Json.str (pubOf n.name)) ∈ bookOf pubOf n.role nodes :=
    List.mem_map.mpr ⟨n, List.mem_filter.mpr ⟨hn, decide_eq_true rfl⟩, rfl⟩
  unfold Pin.find
  cases hfind : (bookOf pubOf n.role nodes).find? fun p => p.1 = js n.eid with
  | none => exact absurd (decide_eq_true rfl) (List.find?_eq_none.mp hfind _ hmem)
  | some p =>
      obtain ⟨m, hm, rfl⟩ := List.mem_map.mp (List.mem_of_find?_eq_some hfind)
      have hkey := List.find?_some hfind
      have heid : js m.eid = js n.eid := of_decide_eq_true hkey
      rw [h.eq_of_eid (List.mem_filter.mp hm).1 hn heid]

theorem provision_checked (hprov : provision keys nodes = .ok f) :
    Checked nodes ∧ Consistent nodes keys f ∧ f.directory.Apart ∧ f.directory.revoked = [] := by
  obtain ⟨d, hd, hprov⟩ := Outcome.bind_eq_ok.mp hprov
  obtain ⟨hapart, hnone⟩ := provision_apart hd
  unfold Relief.provision at hd
  split at hd
  · cases hd
  · next hone =>
    obtain ⟨_, hcheck, hd⟩ := Outcome.bind_eq_ok.mp hd
    obtain ⟨hub, hhubs⟩ := List.length_eq_one_iff.mp (not_not.mp hone)
    have hub_mem : ∀ n, n ∈ nodes ∧ n.role = "hub" ↔ n = hub := fun n => by
      have hiff : n ∈ nodes.filter (·.role = "hub") ↔ n ∈ [hub] := by rw [hhubs]
      rwa [List.mem_filter, decide_eq_true_iff, List.mem_singleton] at hiff
    have hchecked : Checked nodes := ⟨checkNodes_names hcheck, checkNodes_eids hcheck,
      hub, ((hub_mem hub).mpr rfl).1, ((hub_mem hub).mpr rfl).2,
      fun n hn hrole => (hub_mem n).mp ⟨hn, hrole⟩⟩
    refine ⟨hchecked, ?_⟩
    split at hprov
    · cases hprov
    · next first hfirst =>
      have hrole := List.find?_some hfirst
      obtain rfl : first = hub :=
        (hub_mem first).mp ⟨List.mem_of_find?_eq_some hfirst, of_decide_eq_true hrole⟩
      cases hprov
      cases hd
      have hnames : ((nodes.map fun n =>
          (n.name, configOf keys (keys first.name).pub
            { clinics := bookOf (fun name => (keys name).pub) "clinic" nodes
              relays := bookOf (fun name => (keys name).pub) "relay" nodes } n)).map Prod.fst).Nodup := by
        rw [List.map_map]
        exact hchecked.names
      have hentries := JsMap.entries_ofList hnames
      refine ⟨⟨fun n hn => ?_, fun name hname => ?_, fun n hn hrole => ?_, fun n hn hrole => ?_⟩,
        hapart, hnone⟩
      · rw [← JsMap.mem_entries_iff, hentries]
        exact List.mem_map.mpr ⟨n, hn, rfl⟩
      · rw [JsMap.keys, hentries, List.map_map] at hname
        exact List.mem_map.mp hname
      · have hfind := find_bookOf hchecked (fun name => (keys name).pub) hn
        have hcases : n.role = "clinic" ∨ n.role = "relay" := by
          have hrole' := ((checkNodes_ok hcheck).2 n hn).1
          simpa [roles, hrole] using hrole'
        unfold Directory.book
        rcases hcases with hclinic | hrelay
        · rw [hclinic] at hfind
          rw [if_pos hclinic]
          exact hfind
        · rw [hrelay] at hfind
          rw [hrelay, if_neg (by decide)]
          exact hfind
      · rw [(hub_mem n).mp ⟨hn, hrole⟩]

theorem Consistent.hubName_eq (h : Consistent nodes keys f) (hc : Checked nodes) {hub : DeployNode}
    (hmem : hub ∈ nodes) (hrole : hub.role = "hub") : hubName f.configs = some hub.name := by
  have hkey : hub.name ∈ f.configs.keys := JsMap.mem_keys_iff.mpr ⟨_, h.config hub hmem⟩
  unfold hubName
  cases hfind : f.configs.keys.find? fun k => (f.configs.get? k).any fun c => c.role = "hub" with
  | none =>
      have hno := List.find?_eq_none.mp hfind hub.name hkey
      rw [h.config hub hmem] at hno
      exact absurd (decide_eq_true hrole) hno
  | some k =>
      obtain ⟨n, hn, rfl⟩ := h.only k (List.mem_of_find?_eq_some hfind)
      have hyes := List.find?_some hfind
      rw [h.config n hn] at hyes
      obtain ⟨_, -, _, huniq⟩ := hc.hub
      rw [huniq n hn (of_decide_eq_true hyes), huniq hub hmem hrole]

/-- **A call renews every copy**, and puts the old key on the lists. -/
theorem Consistent.revoke (h : Consistent nodes keys f) (hc : Checked nodes) {n : DeployNode}
    (hn : n ∈ nodes) (hrole : n.role ≠ "hub") (t : Int) (fresh : AgentKey) :
    ∃ f', Kit.revoke f n.name t fresh = .ok f' ∧
      Consistent nodes (Function.update keys n.name fresh) f' ∧
      f.directory.revoke n fresh.pub t = .ok f'.directory ∧
      f'.directory.revoked = f.directory.revoked ++
        [{ eid := js n.eid, pub := (keys n.name).pub, revokedAt := t }] := by
  obtain ⟨hub, hub_mem, hub_role, huniq⟩ := hc.hub
  have hold := h.book n hn hrole
  have hne : ∀ m ∈ nodes, m ≠ n → m.name ≠ n.name := fun m hm hmn hname =>
    hmn (hc.eq_of_name hm hn hname)
  have hubn : hub ≠ n := by
    rintro rfl
    exact hrole hub_role
  generalize hkeys : Function.update keys n.name fresh = keys'
  have hself : keys' n.name = fresh := by rw [← hkeys, Function.update_self]
  have hother : ∀ m ∈ nodes, m ≠ n → keys' m.name = keys m.name := fun m hm hmn => by
    rw [← hkeys, Function.update_of_ne (hne m hm hmn)]
  generalize hd : f.directory.renew n.role (js n.eid) fresh.pub ⟨js n.eid, (keys n.name).pub, t⟩ = d
  have hrevoke : Kit.revoke f n.name t fresh = .ok { f with
      directory := d
      configs := (f.configs.set n.name (configOf keys' f.hubSignPub f.directory n)).set hub.name
        (configOf keys' f.hubSignPub d hub) } := by
    have hnew : configOf keys' f.hubSignPub f.directory n =
        { configOf keys f.hubSignPub f.directory n with sign := fresh } := by
      rw [← hself]
      rfl
    have hcopy : configOf keys' f.hubSignPub d hub = { configOf keys f.hubSignPub f.directory hub with
        directory := (configOf keys f.hubSignPub f.directory hub).directory.map fun d =>
          d.renew n.role (js n.eid) fresh.pub ⟨js n.eid, (keys n.name).pub, t⟩ } := by
      unfold configOf
      rw [if_pos hub_role, if_pos hub_role, hother hub hub_mem hubn, Option.map_some, hd]
    rw [hnew, hcopy, ← hd]
    unfold Kit.revoke
    rw [h.config n hn]
    dsimp only
    rw [if_neg (show ¬ (configOf keys f.hubSignPub f.directory n).role = "hub" from hrole),
      h.hubName_eq hc hub_mem hub_role]
    rw [show Pin.find (f.directory.book (configOf keys f.hubSignPub f.directory n).role)
      (js (configOf keys f.hubSignPub f.directory n).eid) = .own (.str (keys n.name).pub) from hold]
    dsimp only
    rw [h.config hub hub_mem]
    rfl
  refine ⟨_, hrevoke, ⟨fun m hm => ?_, fun name hname => ?_, fun m hm hmrole => ?_,
    fun m hm hmrole => ?_⟩, ?_, ?_⟩
  · by_cases hmhub : m = hub
    · subst hmhub
      exact JsMap.get?_set_self ..
    · rw [JsMap.get?_set_ne _ (fun hname => hmhub (hc.eq_of_name hm hub_mem hname))]
      have hmrole : m.role ≠ "hub" := fun hm' => hmhub (huniq m hm hm')
      have hany : ∀ d d', configOf keys' f.hubSignPub d m = configOf keys' f.hubSignPub d' m := by
        intro d d'
        unfold configOf
        rw [if_neg hmrole, if_neg hmrole]
      by_cases hmn : m = n
      · subst hmn
        rw [JsMap.get?_set_self, hany f.directory d]
      · rw [JsMap.get?_set_ne _ (hne m hm hmn), h.config m hm, hany d f.directory]
        unfold configOf
        rw [hother m hm hmn]
  · rcases JsMap.mem_keys_set.mp hname with hname | rfl
    · rcases JsMap.mem_keys_set.mp hname with hname | rfl
      · exact h.only name hname
      · exact ⟨n, hn, rfl⟩
    · exact ⟨hub, hub_mem, rfl⟩
  · rw [← hd]
    by_cases hmn : m = n
    · subst hmn
      rw [hself]
      exact Directory.find_renew_self ..
    · rw [hother m hm hmn]
      exact (Directory.find_renew_ne fun heid => hmn (hc.eq_of_eid hm hn heid)).trans
        (h.book m hm hmrole)
  · have hmn : m ≠ n := by
      rintro rfl
      exact hrole hmrole
    rw [hother m hm hmn]
    exact h.hub m hm hmrole
  · rw [← hd]
    exact Directory.revoke_eq hrole hold
  · rw [← hd]
    exact Directory.revoked_renew ..

/-! ## A run of calls -/

theorem revokeAll_append (f : Files) (before after : List Call) :
    revokeAll f (before ++ after) = (revokeAll f before).bind fun g => revokeAll g after := by
  induction before generalizing f with
  | nil => rfl
  | cons c rest ih =>
      rw [List.cons_append, revokeAll, revokeAll]
      cases Kit.revoke f c.name c.time c.fresh with
      | error e => rfl
      | ok f' => exact ih f'

/-- The calls are for nodes of the deployment other than the hub. -/
def Revocable (nodes : List DeployNode) (calls : List Call) : Prop :=
  ∀ c ∈ calls, ∃ n ∈ nodes, n.name = c.name ∧ n.role ≠ "hub"

theorem Consistent.revokeAll (hc : Checked nodes) {calls : List Call} : ∀ {keys f},
    Consistent nodes keys f → Revocable nodes calls → ∃ f', Kit.revokeAll f calls = .ok f' ∧
      Consistent nodes (issued keys calls) f' ∧ (f.directory.Apart → f'.directory.Apart) ∧
        f'.directory.revoked.map Revoked.entry =
          f.directory.revoked.map Revoked.entry ++ replaced keys calls := by
  induction calls with
  | nil => exact fun h _ => ⟨_, rfl, h, id, (List.append_nil _).symm⟩
  | cons c rest ih =>
      intro keys f h hcalls
      obtain ⟨n, hn, hname, hrole⟩ := hcalls c List.mem_cons_self
      obtain ⟨f', hrevoke, hkept, hone, hrevoked⟩ := h.revoke hc hn hrole c.time c.fresh
      rw [hname] at hrevoke hkept hrevoked
      obtain ⟨f'', hrun, hlast, hapart, hlist⟩ :=
        ih hkept fun d hd => hcalls d (List.mem_cons_of_mem _ hd)
      refine ⟨f'', ?_, hlast, fun h => hapart (apart_revoke hone h), ?_⟩
      · rw [Kit.revokeAll, hrevoke]
        exact hrun
      · rw [hlist, hrevoked, List.map_append, List.append_assoc]
        rfl

/-- Later calls only extend the directory, as long as the list stays in order. -/
theorem Consistent.extends (hc : Checked nodes) {t : Int} {calls : List Call} : ∀ {keys f f'},
    Consistent nodes keys f → Revocable nodes calls →
      (f.directory.revoked.map Revoked.revokedAt ++ calls.map Call.time).Pairwise (· ≤ ·) →
        (∀ c ∈ calls, t < c.time) → Kit.revokeAll f calls = .ok f' →
          Extends t f.directory f'.directory := by
  induction calls with
  | nil =>
      rintro keys f f' - - - - hrun
      cases hrun
      exact Extends.same
  | cons c rest ih =>
      intro keys f f' h hcalls hsorted hlate hrun
      obtain ⟨n, hn, hname, hrole⟩ := hcalls c List.mem_cons_self
      obtain ⟨f₁, hrevoke, hkept, hone, hrevoked⟩ := h.revoke hc hn hrole c.time c.fresh
      rw [hname] at hrevoke
      rw [Kit.revokeAll, hrevoke] at hrun
      have htimes : f₁.directory.revoked.map Revoked.revokedAt ++ rest.map Call.time =
          f.directory.revoked.map Revoked.revokedAt ++ (c :: rest).map Call.time := by
        rw [hrevoked, List.map_append, List.append_assoc]
        rfl
      rw [← htimes] at hsorted
      have hordered : f₁.directory.Ordered :=
        List.pairwise_map.mp (List.pairwise_append.mp hsorted).1
      have hfirst : Extends t f.directory f₁.directory :=
        Extends.same.revoke (hlate c List.mem_cons_self) hordered hone
      exact hfirst.trans (ih hkept (fun d hd => hcalls d (List.mem_cons_of_mem _ hd)) hsorted
        (fun d hd => hlate d (List.mem_cons_of_mem _ hd)) hrun)

theorem split_at_time {calls : List Call} (h : calls.Pairwise fun c d => c.time ≤ d.time) (t : Int) :
    calls = calls.filter (·.time ≤ t) ++ calls.filter (t < ·.time) := by
  induction calls with
  | nil => rfl
  | cons c rest ih =>
      obtain ⟨hfirst, hrest⟩ := List.pairwise_cons.mp h
      by_cases hc : c.time ≤ t
      · have hnot : ¬ t < c.time := not_lt.mpr hc
        rw [List.filter_cons_of_pos (by simpa using hc), List.filter_cons_of_neg (by simpa using hnot),
          List.cons_append, ← ih hrest]
      · have hlate : t < c.time := not_le.mp hc
        have hnone : rest.filter (·.time ≤ t) = [] :=
          List.filter_eq_nil_iff.mpr fun d hd => by simpa using hlate.trans_le (hfirst d hd)
        have hall : rest.filter (t < ·.time) = rest :=
          List.filter_eq_self.mpr fun d hd => decide_eq_true (hlate.trans_le (hfirst d hd))
        rw [List.filter_cons_of_neg (by simpa using hc), hnone,
          List.filter_cons_of_pos (by simpa using hlate), hall, List.nil_append]

/-- **The history of the keys.** Nodes of a deployment are revoked one after the other. Whatever the
order, every copy agrees after every call. In the end the directory still has for every node and time the
key the node had then, and it knows of every time which keys had been replaced. -/
theorem key_history (N : Node) {nodes : List DeployNode} {keys : String → AgentKey} {f₀ : Files}
    (hprov : provision keys nodes = .ok f₀) {calls : List Call} (hcalls : Revocable nodes calls)
    (htimes : calls.Pairwise fun c d => c.time ≤ d.time) :
    ∃ f, revokeAll f₀ calls = .ok f ∧
      (∀ n ∈ nodes, n.role ≠ "hub" → ∀ t,
        keyAt N (f.directory.book n.role) f.directory.revoked (some (.str (js n.eid))) t =
          .ok (.own (.str (issued keys (calls.filter (·.time ≤ t)) n.name).pub))) ∧
      (∀ v t, isRevoked f.directory.revoked v t = true ↔ ∃ before c after,
        calls = before ++ c :: after ∧ c.time ≤ t ∧
          some (.str (issued keys before c.name).pub) = v) ∧
      ∀ before after, calls = before ++ after → ∃ g, revokeAll f₀ before = .ok g ∧
        Consistent nodes (issued keys before) g := by
  obtain ⟨hchecked, hstart, hapart, hnone⟩ := provision_checked hprov
  obtain ⟨f, hrun, hend, -, hlist⟩ := hstart.revokeAll hchecked hcalls
  rw [hnone, List.map_nil, List.nil_append] at hlist
  refine ⟨f, hrun, fun n hn hrole t => ?_, fun v t => ?_, fun before after hsplit => ?_⟩
  · -- the calls up to `t` come first
    have hsplit := split_at_time htimes t
    have hbefore : Revocable nodes (calls.filter (·.time ≤ t)) :=
      fun c hc => hcalls c (List.mem_filter.mp hc).1
    have hafter : Revocable nodes (calls.filter (t < ·.time)) :=
      fun c hc => hcalls c (List.mem_filter.mp hc).1
    obtain ⟨g, hg, hthen, hgapart, hpast⟩ := hstart.revokeAll hchecked hbefore
    rw [hnone, List.map_nil, List.nil_append] at hpast
    have htail : revokeAll g (calls.filter (t < ·.time)) = .ok f := by
      rw [hsplit, revokeAll_append, hg] at hrun
      exact hrun
    have hpasttimes : g.directory.revoked.map Revoked.revokedAt =
        (calls.filter (·.time ≤ t)).map Call.time := by
      rw [← @times_replaced _ keys, ← hpast, List.map_map]
      rfl
    have hext : Extends t g.directory f.directory := by
      refine hthen.extends hchecked hafter ?_ (fun c hc => of_decide_eq_true (List.mem_filter.mp hc).2)
        htail
      rw [hpasttimes, ← List.map_append, ← hsplit]
      exact List.pairwise_map.mpr htimes
    rw [hext.keyAt_book N (hgapart hapart) (hend.book n hn hrole), keyAt_past N, hthen.book n hn hrole]
    intro r hr
    have htime : r.revokedAt ∈ g.directory.revoked.map Revoked.revokedAt := List.mem_map_of_mem hr
    rw [hpasttimes] at htime
    obtain ⟨c, hc, hceq⟩ := List.mem_map.mp htime
    rw [← hceq]
    exact of_decide_eq_true (List.mem_filter.mp hc).2
  · have hany : isRevoked f.directory.revoked v t = true ↔ ∃ p ∈ replaced keys calls,
        p.2 ≤ t ∧ some (.str p.1) = v := by
      rw [← hlist, isRevoked, List.any_eq_true]
      constructor
      · rintro ⟨r, hr, hyes⟩
        obtain ⟨hsame, hle⟩ := Bool.and_eq_true_iff.mp hyes
        exact ⟨r.entry, List.mem_map_of_mem hr, of_decide_eq_true hle, JsonVal.eq_of_strictEq hsame⟩
      · rintro ⟨p, hp, hle, rfl⟩
        obtain ⟨r, hr, rfl⟩ := List.mem_map.mp hp
        refine ⟨r, hr, Bool.and_eq_true_iff.mpr ⟨?_, decide_eq_true hle⟩⟩
        simp [JsonVal.strictEq, Revoked.entry]
    rw [hany]
    constructor
    · rintro ⟨⟨pub, u⟩, hp, hle, hv⟩
      obtain ⟨before, c, after, hsplit, rfl, rfl⟩ := mem_replaced.mp hp
      exact ⟨before, c, after, hsplit, hle, hv⟩
    · rintro ⟨before, c, after, hsplit, hle, hv⟩
      exact ⟨_, mem_replaced.mpr ⟨before, c, after, hsplit, rfl, rfl⟩, hle, hv⟩
  · have hbefore : Revocable nodes before := fun c hc =>
      hcalls c (by rw [hsplit]; exact List.mem_append_left _ hc)
    obtain ⟨g, hg, hkept, -⟩ := hstart.revokeAll hchecked hbefore
    exact ⟨g, hg, hkept⟩

/-! ## A courier that loses two phones -/

def fieldNodes : List DeployNode :=
  [{ name := "c", role := "clinic", eid := "dtn://c/", next := some "dtn://r/" },
    { name := "r", role := "relay", eid := "dtn://r/", next := some "dtn://h/" },
    { name := "h", role := "hub", eid := "dtn://h/" }]

def fieldKeys (name : String) : AgentKey := ⟨[], js name⟩

/-- Both phones of the courier, at times 5 and 9. -/
def lostPhones : List Call := [⟨"r", 5, ⟨[1], js "r1"⟩⟩, ⟨"r", 9, ⟨[2], js "r2"⟩⟩]

theorem lostPhones_issued (t : Int) :
    (issued fieldKeys (lostPhones.filter (·.time ≤ t)) "r").pub =
      if t < 5 then js "r" else if t < 9 then js "r1" else js "r2" := by
  unfold lostPhones
  rw [List.filter_cons, List.filter_cons, List.filter_nil]
  by_cases hfive : t < 5
  · rw [if_pos hfive, decide_eq_false (show ¬ (5 : Int) ≤ t by omega),
      decide_eq_false (show ¬ (9 : Int) ≤ t by omega)]
    rfl
  · rw [if_neg hfive, decide_eq_true (show (5 : Int) ≤ t by omega)]
    by_cases hnine : t < 9
    · rw [if_pos hnine, decide_eq_false (show ¬ (9 : Int) ≤ t by omega)]
      rfl
    · rw [if_neg hnine, decide_eq_true (show (9 : Int) ≤ t by omega)]
      rfl

theorem lostPhones_history : ∃ f₀ f, provision fieldKeys fieldNodes = .ok f₀ ∧
    revokeAll f₀ lostPhones = .ok f ∧ ∀ N t, keyAt N f.directory.relays f.directory.revoked
      (some (.str (js "dtn://r/"))) t = .ok (.own (.str (if t < 5 then js "r" else
        if t < 9 then js "r1" else js "r2"))) := by
  obtain ⟨f₀, hprov⟩ := Outcome.exists_ok (x := provision fieldKeys fieldNodes) (by decide +kernel)
  have hcalls : Revocable fieldNodes lostPhones := by
    intro c hc
    refine ⟨fieldNodes[1], List.getElem_mem _, ?_, by decide⟩
    rcases List.mem_pair.mp hc with rfl | rfl <;> rfl
  have htimes : lostPhones.Pairwise fun c d => c.time ≤ d.time := by decide
  obtain ⟨f, hrun, -⟩ := key_history sampleNode hprov hcalls htimes
  refine ⟨f₀, f, hprov, hrun, fun N t => ?_⟩
  obtain ⟨f', hrun', hkey, -⟩ := key_history N hprov hcalls htimes
  cases hrun.symm.trans hrun'
  refine (hkey fieldNodes[1] (List.getElem_mem _) (by decide) t).trans ?_
  exact congrArg (fun pub => Except.ok (Pin.own (.str pub))) (lostPhones_issued t)

end Kit

end Relief

end DtnCustody
