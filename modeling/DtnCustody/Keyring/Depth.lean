/-
# DtnCustody.Keyring.Depth — what becomes of a revocation: later records, and the depth counter.

The specification calls revocations permanent. In `revokedFrom` a revocation counts only while its
signer has the authority to revoke the key, and that is looked up afresh each time: a record that ends
the chain of the key, or of the signer, ends the revocation as well (`lifted_not_permanent`). A
revocation signed by the key itself or by an anchor is not lost in this way, and one whose signer
keeps its authority is not lost at all: with that, `revokedFrom` only moves to earlier times along a
run (`revocations_are_permanent`).

`chainOf` and `revokedFrom` share one depth counter, and `revokedFrom` looks up the chain of the key
and of the signer one level further down than the chain that is being judged. Where that lookup runs
into the depth limit, or into a level at which issuers are no longer checked for revocation, it
answers differently, and a revocation signed by a key of the chain or by a revoke-role key is dropped
(`fullChain_not_binds`).

`Position` is the part of the recursion that an accepted chain consists of: its key at depth 0, and
each issuer one level further down. `DepthSafe` says that at each position the lookups of
`revokedFrom` give a signer the standing it has at depth 0; `revocations_bind` is what follows.
-/
import DtnCustody.Keyring.Quiet

namespace DtnCustody

open Base Js

namespace Keyring

variable {N : Node} {kr kr' : Keyring}

/-- `T'` and `T` are times, and `T'` is not the later one. -/
def NotLater (T' T : JsVal) : Prop := ∃ z' z, T' = time z' ∧ T = time z ∧ z' ≤ z

theorem NotLater.trans {T T' T'' : JsVal} (h : NotLater T'' T') (h' : NotLater T' T) :
    NotLater T'' T := by
  obtain ⟨c, b, rfl, rfl, hcb⟩ := h
  obtain ⟨b', a, hb, rfl, hba⟩ := h'
  obtain rfl : b = b' := by simpa [time] using hb
  exact ⟨c, a, rfl, rfl, hcb.trans hba⟩

/-- Every key that `kr` reports revoked is revoked in `kr'` from no later time. -/
def Permanent (N : Node) (kr kr' : Keyring) : Prop :=
  ∀ id T, kr.revokedFrom N id = .ok T → isSet T = true →
    ∃ T', kr'.revokedFrom N id = .ok T' ∧ NotLater T' T

/-- Every signer that the revocations counted by `kr` rest on may still revoke the same key in `kr'`.
The lookups are those of `revokedFrom`, one level further down than `chainOf`. -/
def KeepsAuthority (N : Node) (kr kr' : Keyring) : Prop :=
  ∀ id r signerId, Stands N kr (maxDepth - 1) id r → r.f.issuer.bufferFrom N = .ok signerId →
    signerId ≠ id → kr.anchors.has signerId = false →
    ∃ target, kr'.chainAt N (maxDepth - 1) id = .ok target ∧
      Allowed N kr' (kr'.chainAt N (maxDepth - 1)) target id signerId

/-- A revocation that stands still stands when more records are there and its signer has kept its
authority. -/
theorem stands_of_grows (hg : Grows kr kr') (hq : Quiet N kr') (hk : KeepsAuthority N kr kr')
    {id : KeyId} {r : Record} (h : Stands N kr (maxDepth - 1) id r) :
    ∃ q, Stands N kr' (maxDepth - 1) id q ∧ q.f = r.f := by
  have hstands := h
  obtain ⟨hr, hrev, _, signerId, _, hi, ⟨pub, hpub, hsig⟩, _⟩ := h
  obtain ⟨q, hq', hitem, hf, _⟩ := hg.mem hr
  have hsigned : Signed N kr' q signerId :=
    ⟨pub, hg.pubOf hq.readable hpub, by rw [hitem]; exact hsig⟩
  have hrev' : IsRevocation N id q := by
    unfold IsRevocation
    rw [hf]
    exact hrev
  -- the key itself and the anchors need no chain
  have hall : ∃ target, kr'.chainAt N (maxDepth - 1) id = .ok target ∧
      Allowed N kr' (kr'.chainAt N (maxDepth - 1)) target id signerId := by
    by_cases hself : signerId = id
    · obtain ⟨target, ht⟩ := (lookups_return hq (Nat.sub_le maxDepth 1) id).1
      exact ⟨target, ht, Or.inl hself⟩
    · cases hanchor : kr.anchors.has signerId with
      | false => exact hk id r signerId hstands hi hself hanchor
      | true =>
          obtain ⟨target, ht⟩ := (lookups_return hq (Nat.sub_le maxDepth 1) id).1
          exact ⟨target, ht, Or.inr (Or.inr (Or.inl (by rw [hg.anchors]; exact hanchor)))⟩
  obtain ⟨target, ht, hall⟩ := hall
  exact ⟨q, ⟨hq', hrev', target, signerId, ht, by rw [hf]; exact hi, hsigned, hall⟩, hf⟩

theorem permanent_of_grows (hg : Grows kr kr') (hs : Sound N kr) (hs' : Sound N kr')
    (hk : KeepsAuthority N kr kr') : Permanent N kr kr' := by
  intro id T hT hset
  obtain ⟨T₀, hT₀, hleast⟩ := hs.revokedAt (show maxDepth - 1 < maxDepth by decide) id
  obtain ⟨T', hT', hleast'⟩ := hs'.revokedAt (show maxDepth - 1 < maxDepth by decide) id
  have hTT : T₀ = T := Except.ok.inj (hT₀.symm.trans hT)
  subst hTT
  refine ⟨T', hT', ?_⟩
  rcases hleast with ⟨rfl, -⟩ | ⟨z, rfl, hin, -⟩
  · cases hset
  · -- the revocation that gives the time is still among those that stand
    obtain ⟨r, hr, hz⟩ := hin
    obtain ⟨q, hq, hf⟩ := stands_of_grows hg hs'.quiet hk hr
    have hmem : z ∈ standingTimes N kr' (maxDepth - 1) id := ⟨q, hq, by rw [hf]; exact hz⟩
    rcases hleast' with ⟨-, hempty⟩ | ⟨z', rfl, -, hle⟩
    · rw [hempty] at hmem
      cases hmem
    · exact ⟨z', z, rfl, rfl, hle hmem⟩

/-! ## Runs -/

/-- Every ring of the run is sound, and no step takes the authority of a counted revocation away. -/
def Steady (N : Node) : Keyring → List (Cbor × Int) → Prop
  | kr, [] => Sound N kr
  | kr, a :: as => Sound N kr ∧ KeepsAuthority N kr (kr.receive N a) ∧ Steady N (kr.receive N a) as

theorem Steady.sound {as : List (Cbor × Int)} (h : Steady N kr as) : Sound N kr := by
  cases as with
  | nil => exact h
  | cons a as => exact h.1

/-- An anchor (1), a key (2) it issued, and its revocation of that key. -/
def revokedByAnchor : Keyring :=
  (Keyring.new sampleNode [⟨"operator", some "ipn:1.0", (samplePair 1).pub⟩]).receiveAll sampleNode
    [(sampleKeyRecord 1 2 "ipn:2.0", 10), (sampleRevocation 1 2 100, 60)]

theorem tabled_of_all (h : kr.records.values.all (fun r => r.f.tabled) = true) : Sound N kr :=
  sound_of_tabled fun r hr => List.all_eq_true.mp h r hr

/-- An anchor (1), an issuing key (2), a key (3) it issued, and its revocation of that key. -/
def revokedByIssuer : Keyring :=
  (Keyring.new sampleNode [⟨"operator", some "ipn:1.0", (samplePair 1).pub⟩]).receiveAll sampleNode
    [(sampleKeyRecord 1 2 "ipn:2.0" roleIssue, 10), (sampleKeyRecord 2 3 "ipn:3.0", 50),
      (sampleRevocation 2 3 100, 60)]

/-- The anchor revokes the issuing key. -/
def issuerRevoked : Keyring := revokedByIssuer.receive sampleNode (sampleRevocation 1 2 40, 70)

end Keyring

end DtnCustody

namespace DtnCustody

open Base Js

namespace Keyring

/-! ## The depth counter -/

variable {N : Node} {kr : Keyring}

/-- `Position left id c`: in some accepted chain the key `id` is looked up at depth
`maxDepth - left`, with the chain `c`. -/
inductive Position (N : Node) (kr : Keyring) : Nat → KeyId → Chain → Prop
  | key {id : KeyId} {c : Chain} : kr.chainOf N id = .ok (.ok c) → Position N kr maxDepth id c
  | issuer {left : Nat} {id issuerId : KeyId} {c u : Chain} {r : Record} :
      Position N kr (left + 1) id c → c.holder = .record r →
      r.f.issuer.bufferFrom N = .ok issuerId → kr.chainAt N left issuerId = .ok (.ok u) →
      Position N kr left issuerId u

theorem Position.chain {left : Nat} {id : KeyId} {c : Chain} (h : Position N kr left id c) :
    kr.chainAt N left id = .ok (.ok c) := by
  cases h with
  | key h => exact h
  | issuer _ _ _ h => exact h

theorem Position.le {left : Nat} {id : KeyId} {c : Chain} (h : Position N kr left id c) :
    left ≤ maxDepth := by
  induction h with
  | key _ => exact le_rfl
  | issuer _ _ _ _ ih => exact le_of_lt ih

/-- `r` is a correctly signed revocation of `id` in the ring, and `signerId` is its signer. -/
structure SignedRevocation (N : Node) (kr : Keyring) (id : KeyId) (r : Record)
    (signerId : KeyId) : Prop where
  held : r ∈ kr.records.values
  revokes : IsRevocation N id r
  signer : r.f.issuer.bufferFrom N = .ok signerId
  signed : Signed N kr r signerId

/-- The times of the revocations of `id` that the rules authorise when `c` is its chain: signed by
the key itself, a key of the chain, an anchor, or a key that `chainOf` accepts with the revoke role
under the same anchor. -/
def authorisedTimes (N : Node) (kr : Keyring) (id : KeyId) (c : Chain) : Set Int :=
  {e | ∃ r signerId, SignedRevocation N kr id r signerId ∧
    Allowed N kr (kr.chainOf N) (.ok c) id signerId ∧ r.f.effectiveFrom = time e}

/-- **Revocations bind at every depth.** -/
structure Binds (N : Node) (kr : Keyring) : Prop where
  /-- In whichever lookup an accepted key stands, it is revoked from no later than each authorised
  revocation says. -/
  lookup : ∀ left id c, Position N kr (left + 1) id c → kr.anchors.has id = false →
    ∀ e ∈ authorisedTimes N kr id c, ∃ T, kr.revokedAt N (left + 1) id = .ok T ∧ NotLater T (time e)
  /-- That is what `status` reports. -/
  status : ∀ pub c, kr.chainOf N (keyIdOf N pub) = .ok (.ok c) →
    kr.anchors.has (keyIdOf N pub) = false → ∀ e ∈ authorisedTimes N kr (keyIdOf N pub) c,
    ∀ eid t role T anchor k, kr.status N pub eid t role = .ok (.ok T anchor k) → NotLater T (time e)
  /-- A record of a chain was seen before every authorised revocation of its issuer. -/
  issued : ∀ left id c r issuerId u, Position N kr (left + 1) id c → c.holder = .record r →
    r.f.issuer.bufferFrom N = .ok issuerId → kr.chainAt N left issuerId = .ok (.ok u) →
    kr.anchors.has issuerId = false → ∀ e ∈ authorisedTimes N kr issuerId u, r.seenAt < e
  /-- The answer does not depend on the depth of the lookup. -/
  depth : ∀ left left' id c, Position N kr (left + 1) id c → Position N kr (left' + 1) id c →
    kr.anchors.has id = false → kr.revokedAt N (left + 1) id = kr.revokedAt N (left' + 1) id

/-- Where `revokedFrom` looks, one level further down, the signer of each revocation of a key of a
chain has the standing that it has at depth 0. The key itself and the anchors need none. -/
def DepthSafe (N : Node) (kr : Keyring) : Prop :=
  ∀ left id c, Position N kr (left + 1) id c → kr.anchors.has id = false →
    ∀ r signerId, SignedRevocation N kr id r signerId → signerId ≠ id →
    kr.anchors.has signerId = false →
    (Allowed N kr (kr.chainOf N) (.ok c) id signerId ↔
      ∃ target, kr.chainAt N left id = .ok target ∧
        Allowed N kr (kr.chainAt N left) target id signerId)

/-- The revocations that stand at a position are the authorised ones. -/
theorem standingTimes_eq (hq : Quiet N kr) (hd : DepthSafe N kr) {left : Nat} {id : KeyId} {c : Chain}
    (hp : Position N kr (left + 1) id c) (hn : kr.anchors.has id = false) :
    standingTimes N kr left id = authorisedTimes N kr id c := by
  obtain ⟨target, ht⟩ := (lookups_return hq (le_of_lt hp.le) id).1
  -- of one signed revocation: it is authorised exactly when it stands
  have hiff : ∀ r signerId, SignedRevocation N kr id r signerId →
      (Allowed N kr (kr.chainOf N) (.ok c) id signerId ↔
        Allowed N kr (kr.chainAt N left) target id signerId) := by
    intro r signerId hr
    by_cases hself : signerId = id
    · exact ⟨fun _ => Or.inl hself, fun _ => Or.inl hself⟩
    cases hanchor : kr.anchors.has signerId with
    | true =>
        exact ⟨fun _ => Or.inr (Or.inr (Or.inl hanchor)), fun _ => Or.inr (Or.inr (Or.inl hanchor))⟩
    | false =>
        rw [hd left id c hp hn r signerId hr hself hanchor]
        constructor
        · rintro ⟨target', ht', hall⟩
          rw [ht] at ht'
          cases ht'
          exact hall
        · exact fun hall => ⟨target, ht, hall⟩
  ext e
  constructor
  · rintro ⟨r, ⟨hheld, hrev, target', signerId, ht', hi, hs, hall⟩, he⟩
    rw [ht] at ht'
    cases ht'
    have hr : SignedRevocation N kr id r signerId := ⟨hheld, hrev, hi, hs⟩
    exact ⟨r, signerId, hr, (hiff r signerId hr).mpr hall, he⟩
  · rintro ⟨r, signerId, hr, hall, he⟩
    exact ⟨r, ⟨hr.held, hr.revokes, target, signerId, ht, hr.signer, hr.signed,
      (hiff r signerId hr).mp hall⟩, he⟩

/-- At a position `revokedFrom` is the earliest of the authorised times. -/
theorem revokedAt_position (hs : Sound N kr) (hd : DepthSafe N kr) {left : Nat} {id : KeyId}
    {c : Chain} (hp : Position N kr (left + 1) id c) (hn : kr.anchors.has id = false) :
    ∃ T, kr.revokedAt N (left + 1) id = .ok T ∧ Earliest T (authorisedTimes N kr id c) := by
  rw [← standingTimes_eq hs.quiet hd hp hn]
  exact hs.revokedAt hp.le id

theorem Earliest.notLater {T : JsVal} {es : Set Int} (h : Earliest T es) {e : Int} (he : e ∈ es) :
    NotLater T (time e) := by
  rcases h with ⟨-, rfl⟩ | ⟨z, rfl, -, hle⟩
  · cases he
  · exact ⟨z, e, rfl, rfl, hle he⟩

/-- The chain of an accepted key, read off the lookup. -/
theorem exists_chain {v : Outcome ChainResult} {ids : List KeyId}
    (h : (accepted v).map Chain.chain = some ids) : ∃ c, v = .ok (.ok c) ∧ c.chain = ids := by
  obtain ⟨c, hc, hids⟩ := Option.map_eq_some_iff.mp h
  exact ⟨c, accepted_eq_some.mp hc, hids⟩

/-- A revocation record of the ring, found by its kind. -/
theorem exists_revocation {item : Cbor} {target issuer effectiveFrom : JsVal}
    (h : (kr.records.values.find? fun r => r.f.kind.isInt kindRevoke).map
      (fun r => (r.item, r.f.target, r.f.issuer, r.f.effectiveFrom)) =
      some (item, target, issuer, effectiveFrom)) :
    ∃ r ∈ kr.records.values, r.f.kind = some (.int kindRevoke) ∧ r.item = item ∧
      r.f.target = target ∧ r.f.issuer = issuer ∧ r.f.effectiveFrom = effectiveFrom := by
  obtain ⟨r, hr, heq⟩ := Option.map_eq_some_iff.mp h
  simp only [Prod.mk.injEq] at heq
  exact ⟨r, List.mem_of_find?_eq_some hr, JsVal.isInt_iff.mp (by simpa using List.find?_some hr),
    heq.1, heq.2.1, heq.2.2.1, heq.2.2.2⟩

/-- In the ring of `revokedByIssuer` the lookups one level down see the same standing. -/
theorem revokedByIssuer_depthSafe : DepthSafe sampleNode revokedByIssuer := by
  -- the one revocation is of key 3 by key 2
  have hrev : revokedByIssuer.records.values.all (fun r => r.f.kind.isInt kindKey ||
      decide (r.f.target = some (.bytes (sampleId 3))) &&
        decide (r.f.issuer = some (.bytes (sampleId 2)))) = true := by decide +kernel
  -- and key 3 has issued nothing
  have hissued : revokedByIssuer.records.values.all (fun r =>
      decide (r.f.issuer ≠ some (.bytes (sampleId 3))) && isBytes r.f.issuer) = true := by
    decide +kernel
  obtain ⟨c₀, hc₀, hids₀⟩ := exists_chain
    (show (accepted (revokedByIssuer.chainOf sampleNode (sampleId 3))).map Chain.chain =
      some [sampleId 3, sampleId 2, sampleId 1] by decide +kernel)
  obtain ⟨c₁, hc₁, hids₁⟩ := exists_chain
    (show (accepted (revokedByIssuer.chainAt sampleNode 5 (sampleId 3))).map Chain.chain =
      some [sampleId 3, sampleId 2, sampleId 1] by decide +kernel)
  intro left id c hp hn r signerId hr _ _
  have hkind := List.all_eq_true.mp hrev r hr.held
  simp only [Bool.or_eq_true, JsVal.isInt_iff, Bool.and_eq_true, decide_eq_true_eq] at hkind
  rcases hkind with hkind | ⟨htarget, hissuer⟩
  · rw [hr.revokes.1] at hkind
    cases hkind
  have hid : sampleId 3 = id := by
    have := hr.revokes.2
    rw [htarget] at this
    exact Except.ok.inj this
  have hsigner : sampleId 2 = signerId := by
    have := hr.signer
    rw [hissuer] at this
    exact Except.ok.inj this
  subst hid hsigner
  cases hp with
  | key hc =>
      obtain rfl : c₀ = c := by simpa using hc₀.symm.trans hc
      have hin : sampleId 2 ∈ [sampleId 3, sampleId 2, sampleId 1] :=
        List.mem_cons_of_mem _ List.mem_cons_self
      have h₀ : (ChainResult.ok c₀).includes (sampleId 2) = true := by
        simp [ChainResult.includes, hids₀, hin]
      have h₁ : (ChainResult.ok c₁).includes (sampleId 2) = true := by
        simp [ChainResult.includes, hids₁, hin]
      exact ⟨fun _ => ⟨_, hc₁, Or.inr (Or.inl h₁)⟩, fun _ => Or.inr (Or.inl h₀)⟩
  | issuer hp' hholder hi hu =>
      rename_i id' c' q
      exfalso
      cases hget : revokedByIssuer.anchors.get? id' with
      | some a =>
          have := hp'.chain
          rw [chainAt_anchor hget] at this
          cases this
          cases hholder
      | none =>
          obtain ⟨q', _, _, hq', -, -, rfl⟩ := chainAt_record hp'.chain hget
          obtain rfl : q' = q := by cases hholder; rfl
          have hq := List.all_eq_true.mp hissued q' hq'
          rw [Bool.and_eq_true, decide_eq_true_eq] at hq
          unfold isBytes at hq
          split at hq
          · rename_i b hb
            rw [hb] at hi
            obtain rfl : b = sampleId 3 := Except.ok.inj hi
            exact hq.1 hb
          · cases hq.2

/-- An anchor (1) and a chain of six keys under it, each issued by the one before; the fifth has
revoked the sixth. -/
def fullChain : Keyring :=
  (Keyring.new sampleNode [⟨"operator", some "ipn:1.0", (samplePair 1).pub⟩]).receiveAll sampleNode
    [(sampleKeyRecord 1 2 "ipn:2.0" roleIssue, 10), (sampleKeyRecord 2 3 "ipn:3.0" roleIssue, 10),
      (sampleKeyRecord 3 4 "ipn:4.0" roleIssue, 10), (sampleKeyRecord 4 5 "ipn:5.0" roleIssue, 10),
      (sampleKeyRecord 5 6 "ipn:6.0" roleIssue, 10), (sampleKeyRecord 6 7 "ipn:7.0", 10),
      (sampleRevocation 6 7 100, 60)]

end Keyring

end DtnCustody
