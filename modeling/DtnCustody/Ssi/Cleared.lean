/-
# DtnCustody.Ssi.Cleared — what a clearing comes to.

A claim is a bid for the keys of its receipts that count, all of them worth the length of its payload
(`bidOf`). Posting it adds to each operator's account what the bid is paid behind the keys that were
credited before (`Posted`), so **the account of an operator is what the bids are paid for its keys**
(`post_ok`). The amount is the bytes at the operator's rate (`amount_eq`).

`post` throws at the first claim that does not settle, and whether a claim settles has nothing to do with
what was posted before (`returns_post`). A statement can always be signed, so `clear` returns when `post`
does (`returns_clear`).
-/
import DtnCustody.Base.FirstPays
import DtnCustody.Ssi.Reading

namespace DtnCustody

open Base Js

namespace Settle

open ReceiptV2 (Fields)

variable (H : SettleHost) (P : Params)

/-! ## Bids -/

/-- The account that the custodian's credit goes to. -/
def Params.payee (hop : String) : String := (P.opOf hop).getD "undefined"

/-- A receipt that counts, and not for the owner. -/
def creditable (x : Finding) : Bool := x.v.isOk && P.opOf (hopOf x) ≠ some P.owner

/-- The keys that one claim presents. -/
def keysOf (id : JsString) (found : List Finding) : Finset JsString :=
  ((found.filter (creditable P)).map fun x => creditKey id (hopOf x)).toFinset

def bidOf (c : Claim) : Bid JsString :=
  match readClaim H P c with
  | .ok (.opened id n found) => ⟨keysOf P id (finalFindings H c found), n⟩
  | _ => ⟨∅, 0⟩

/-- The keys of the custodians whose credit goes to `op`. -/
def group (op : String) (key : JsString) : Prop :=
  ∃ id hop, IsIdentity H id ∧ key = creditKey id hop ∧ P.payee hop = op

noncomputable instance (op : String) : DecidablePred (group H P op) := Classical.decPred _

variable {H P}

theorem group_key {id : JsString} {hop op : String} (hid : IsIdentity H id) :
    group H P op (creditKey id hop) ↔ P.payee hop = op := by
  constructor
  · rintro ⟨id', hop', hid', hkey, hop⟩
    obtain ⟨_, rfl⟩ := creditKey_inj hid hid' hkey
    exact hop
  · exact fun h => ⟨id, hop, hid, rfl, h⟩

theorem mem_keysOf {id : JsString} {found : List Finding} {key : JsString} :
    key ∈ keysOf P id found ↔
      ∃ x ∈ found, creditable P x = true ∧ key = creditKey id (hopOf x) := by
  simp only [keysOf, List.mem_toFinset, List.mem_map, List.mem_filter, and_assoc]
  exact exists_congr fun x => and_congr_right fun _ => and_congr_right fun _ => eq_comm

@[simp] theorem keysOf_nil (id : JsString) : keysOf P id [] = ∅ := rfl

theorem keysOf_cons (id : JsString) (x : Finding) (found : List Finding) :
    keysOf P id (x :: found) = keysOf P id [x] ∪ keysOf P id found := by
  ext key
  simp only [Finset.mem_union, mem_keysOf, List.mem_cons, List.not_mem_nil, or_false, exists_eq_left,
    exists_eq_or_imp]

/-! ## The invariant of a clearing -/

def State.seen (s : State) : Finset JsString := s.credited.keys.toFinset

def State.account (s : State) (op : String) : Account := (s.perOp.get? op).getD {}

theorem has_iff_seen {s : State} {key : JsString} : s.credited.has key = true ↔ key ∈ s.seen := by
  rw [State.seen, List.mem_toFinset, JsMap.has_iff]

/-- Every operator has an account, every key that is credited is a key of an operator, and an amount is
the bytes at the rate. -/
structure Kept (H : SettleHost) (P : Params) (s : State) : Prop where
  operators : s.perOp.keys = P.operators.keys
  credited : ∀ key ∈ s.seen, ∃ id hop, IsIdentity H id ∧ key = creditKey id hop ∧
    P.operators.has (P.payee hop) = true
  amount : ∀ op rate, P.operators.get? op = some rate →
    (s.account op).amount = amountOf (s.account op).bytes rate
  leaves : ∀ op, (s.account op).leaves.length = (s.account op).bundles

/-- What posting did: `keys` are credited, and each operator is paid `n` bytes for every key of its own
that was not credited before. -/
structure Posted (H : SettleHost) (P : Params) (s s' : State) (keys : Finset JsString) (n : Nat) :
    Prop where
  seen : s'.seen = s.seen ∪ keys
  bundles : ∀ op, (s'.account op).bundles =
    (s.account op).bundles + (Bid.fresh (group H P op) s.seen keys).card
  bytes : ∀ op, (s'.account op).bytes =
    (s.account op).bytes + (Bid.fresh (group H P op) s.seen keys).card * n

theorem Posted.refl (s : State) (n : Nat) : Posted H P s s ∅ n where
  seen := by rw [Finset.union_empty]
  bundles op := by simp [Bid.fresh]
  bytes op := by simp [Bid.fresh]

theorem Posted.trans {s t u : State} {ks ls : Finset JsString} {n : Nat} (h : Posted H P s t ks n)
    (h' : Posted H P t u ls n) : Posted H P s u (ks ∪ ls) n := by
  have hcard : ∀ op, (Bid.fresh (group H P op) s.seen (ks ∪ ls)).card =
      (Bid.fresh (group H P op) s.seen ks).card + (Bid.fresh (group H P op) t.seen ls).card := by
    intro op
    rw [Bid.fresh_union, Finset.card_union_of_disjoint (Bid.disjoint_fresh _ _ _ _), h.seen]
  refine ⟨?_, fun op => ?_, fun op => ?_⟩
  · rw [h'.seen, h.seen, Finset.union_assoc]
  · rw [h'.bundles, h.bundles, hcard, Nat.add_assoc]
  · rw [h'.bytes, h.bytes, hcard, Nat.add_mul, Nat.add_assoc]

/-- The state with the same credits and the same sums. -/
structure SameSums (s s' : State) : Prop where
  credited : s'.credited = s.credited
  operators : s'.perOp.keys = s.perOp.keys
  bundles : ∀ op, (s'.account op).bundles = (s.account op).bundles
  bytes : ∀ op, (s'.account op).bytes = (s.account op).bytes
  amount : ∀ op, (s'.account op).amount = (s.account op).amount
  leaves : ∀ op, (s'.account op).leaves = (s.account op).leaves

theorem SameSums.posted {s s' : State} (h : SameSums s s') (n : Nat) : Posted H P s s' ∅ n where
  seen := by rw [Finset.union_empty, State.seen, State.seen, h.credited]
  bundles op := by simp [Bid.fresh, h.bundles]
  bytes op := by simp [Bid.fresh, h.bytes]

theorem SameSums.kept {s s' : State} (h : SameSums s s') (hk : Kept H P s) : Kept H P s' where
  operators := h.operators.trans hk.operators
  credited key hkey := hk.credited key (by rwa [State.seen, h.credited] at hkey)
  amount op rate hrate := by rw [h.amount, h.bytes, hk.amount op rate hrate]
  leaves op := by rw [h.leaves, h.bundles, hk.leaves]

/-! ## One receipt -/

theorem adjust_ok {s s' : State} {op : String} {f : Account → Account} (h : s.adjust op f = .ok s') :
    s'.credited = s.credited ∧ s'.perOp.keys = s.perOp.keys ∧ s'.account op = f (s.account op) ∧
      ∀ op', op' ≠ op → s'.account op' = s.account op' := by
  unfold State.adjust at h
  cases ha : s.perOp.get? op with
  | none => rw [ha] at h; cases h
  | some a =>
      rw [ha] at h
      cases h
      have hhas : s.perOp.has op = true := by rw [JsMap.has, ha]; rfl
      refine ⟨rfl, JsMap.keys_set_of_has hhas _, ?_, fun op' hne => ?_⟩
      · simp only [State.account, JsMap.get?_set_self, ha, Option.getD_some]
      · simp only [State.account, JsMap.get?_set_ne _ hne]

theorem returns_adjust {s : State} {op : String} {f : Account → Account} :
    Outcome.Returns (s.adjust op f) ↔ s.perOp.has op = true := by
  unfold State.adjust JsMap.has
  cases s.perOp.get? op <;> simp

theorem has_perOp {s : State} (hk : Kept H P s) {op : String} :
    s.perOp.has op = P.operators.has op := by
  rw [Bool.eq_iff_iff, JsMap.has_iff, JsMap.has_iff, hk.operators]

theorem refuseReceipt_ok {note reason : String} {x : Finding} {s s' : State}
    (h : refuseReceipt P note x reason s = .ok s') : SameSums s s' := by
  unfold refuseReceipt at h
  dsimp only at h
  split at h
  · rename_i o _
    split at h
    · cases h
      exact ⟨rfl, rfl, fun _ => rfl, fun _ => rfl, fun _ => rfl, fun _ => rfl⟩
    · obtain ⟨hcredited, hkeys, hself, hother⟩ := adjust_ok h
      have hsame : ∀ {β : Type} (g : Account → β),
          g { (s.account o) with rejected := (s.account o).rejected + 1 } = g (s.account o) →
            ∀ op, g (s'.account op) = g (s.account op) := by
        intro β g hg op
        by_cases hop : op = o
        · rw [hop, hself]
          exact hg
        · rw [hother op hop]
          rfl
      exact ⟨hcredited, hkeys, hsame _ rfl, hsame _ rfl, hsame _ rfl, hsame _ rfl⟩
  · cases h
    exact ⟨rfl, rfl, fun _ => rfl, fun _ => rfl, fun _ => rfl, fun _ => rfl⟩

theorem returns_refuseReceipt {note reason : String} {x : Finding} {s : State} (hk : Kept H P s) :
    Outcome.Returns (refuseReceipt P note x reason s) := by
  unfold refuseReceipt
  dsimp only
  split
  · rename_i o ho
    split
    · exact Outcome.returns_ok _
    · rw [returns_adjust]
      exact (has_perOp hk).trans (P.known _ _ ho)
  · exact Outcome.returns_ok _

theorem creditReceipt_ok {id : JsString} {n : Nat} {x : Finding} {s s' : State}
    (hid : IsIdentity H id) (hk : Kept H P s) (hv : x.v.isOk = true)
    (h : creditReceipt H P id n x s = .ok s') :
    Posted H P s s' (keysOf P id [x]) n ∧ Kept H P s' := by
  unfold creditReceipt at h
  by_cases howner : P.opOf (hopOf x) = some P.owner
  · rw [if_pos howner] at h
    cases h
    have hempty : keysOf P id [x] = ∅ := by simp [keysOf, creditable, howner]
    exact ⟨hempty ▸ Posted.refl s n, hk⟩
  · have hkeys : keysOf P id [x] = {creditKey id (hopOf x)} := by
      simp [keysOf, creditable, howner, hv]
    rw [if_neg howner] at h
    by_cases hhas : s.credited.has (creditKey id (hopOf x)) = true
    · rw [if_pos hhas] at h
      cases h
      have hin := has_iff_seen.mp hhas
      have hfresh : ∀ op, Bid.fresh (group H P op) s.seen {creditKey id (hopOf x)} = ∅ := by
        intro op
        rw [Bid.fresh, Finset.sdiff_eq_empty_iff_subset.mpr (Finset.singleton_subset_iff.mpr hin),
          Finset.filter_empty]
      refine ⟨hkeys ▸ ⟨?_, fun op => ?_, fun op => ?_⟩, hk⟩
      · rw [Finset.union_eq_left.mpr (Finset.singleton_subset_iff.mpr hin)]
      · rw [hfresh]; rfl
      · rw [hfresh, Finset.card_empty, Nat.zero_mul, Nat.add_zero]
    · rw [if_neg hhas] at h
      cases hrate : P.operators.get? (P.payee (hopOf x)) with
      | none =>
          rw [Params.payee] at hrate
          simp only [hrate] at h
          cases h
      | some rate =>
          have hrate' := hrate
          rw [Params.payee] at hrate'
          simp only [hrate'] at h
          obtain ⟨leaf, _, h⟩ := Outcome.bind_eq_ok.mp h
          obtain ⟨hcredited, hops, hself, hother⟩ := adjust_ok h
          rw [← Params.payee] at hself hother
          have hnew : s.credited.has (creditKey id (hopOf x)) = false := by simpa using hhas
          have hnotin : creditKey id (hopOf x) ∉ s.seen := fun hin => hhas (has_iff_seen.mpr hin)
          have hseen : s'.seen = s.seen ∪ {creditKey id (hopOf x)} := by
            rw [State.seen, hcredited, JsMap.keys_set_of_not_has hnew, List.toFinset_append]
            rfl
          have hfresh : ∀ op, Bid.fresh (group H P op) s.seen {creditKey id (hopOf x)} =
              if P.payee (hopOf x) = op then {creditKey id (hopOf x)} else ∅ := by
            intro op
            rw [Bid.fresh, Finset.sdiff_eq_self_of_disjoint
              (Finset.disjoint_singleton_left.mpr hnotin), Finset.filter_singleton]
            simp only [group_key hid]
          have haccount : ∀ op, s'.account op =
              if P.payee (hopOf x) = op then (s.account op).credit n (amountOf n rate) leaf
              else s.account op := by
            intro op
            split
            · rename_i heq
              rw [← heq, hself]
              rfl
            · rename_i hne
              rw [hother op (Ne.symm hne)]
              rfl
          refine ⟨hkeys ▸ ⟨hseen, fun op => ?_, fun op => ?_⟩, ⟨?_, ?_, ?_, ?_⟩⟩
          · rw [haccount, hfresh]
            split <;> simp [Account.credit]
          · rw [haccount, hfresh]
            split <;> simp [Account.credit]
          · exact hops.trans hk.operators
          · intro key hkey
            rw [hseen, Finset.mem_union, Finset.mem_singleton] at hkey
            rcases hkey with hkey | rfl
            · exact hk.credited key hkey
            · exact ⟨id, hopOf x, hid, rfl, by rw [JsMap.has, hrate]; rfl⟩
          · intro op r hr
            rw [haccount]
            split
            · rename_i heq
              have hsame : r = rate := by
                rw [← heq, hrate] at hr
                exact (Option.some.inj hr).symm
              simp only [Account.credit, hk.amount op r hr, hsame, amountOf, Nat.cast_add]
              ring
            · exact hk.amount op r hr
          · intro op
            rw [haccount]
            split
            · simp only [Account.credit, List.length_append, List.length_singleton, hk.leaves op]
            · exact hk.leaves op

/-- The operator of the custodian has a rate card. -/
def HasRate (P : Params) (x : Finding) : Prop := P.operators.has (P.payee (hopOf x)) = true

theorem returns_creditReceipt {id : JsString} {n : Nat} {x : Finding} {s : State}
    (hid : IsIdentity H id) (hk : Kept H P s) (hv : x.v.isOk = true)
    (hleaf : ∃ leaf, leafOf H x.item = .ok leaf) :
    Outcome.Returns (creditReceipt H P id n x s) ↔ (creditable P x = true → HasRate P x) := by
  unfold creditReceipt
  by_cases howner : P.opOf (hopOf x) = some P.owner
  · simp [howner, creditable]
  · have hcred : creditable P x = true := by simp [creditable, howner, hv]
    rw [if_neg howner]
    simp only [hcred, forall_const]
    by_cases hhas : s.credited.has (creditKey id (hopOf x)) = true
    · rw [if_pos hhas]
      obtain ⟨id', hop', hid', hkey, hop⟩ := hk.credited _ (has_iff_seen.mp hhas)
      obtain ⟨_, hsame⟩ := creditKey_inj hid hid' hkey
      rw [← hsame] at hop
      exact iff_of_true (Outcome.returns_ok _) hop
    · rw [if_neg hhas]
      unfold HasRate
      rw [← Params.payee]
      cases hrate : P.operators.get? (P.payee (hopOf x)) with
      | none => simp [JsMap.has, hrate]
      | some rate =>
          obtain ⟨leaf, hleaf⟩ := hleaf
          have hop : P.operators.has (P.payee (hopOf x)) = true := by rw [JsMap.has, hrate]; rfl
          simp only [hleaf, Outcome.ok_bind, hop, iff_true]
          rw [returns_adjust]
          exact (has_perOp hk).trans hop

/-! ## One claim -/

theorem postReceipt_ok {note : String} {id : JsString} {n : Nat} {x : Finding} {s s' : State}
    (hid : IsIdentity H id) (hk : Kept H P s) (h : postReceipt H P note id n s x = .ok s') :
    Posted H P s s' (keysOf P id [x]) n ∧ Kept H P s' := by
  unfold postReceipt at h
  cases hv : x.v with
  | fail reason =>
      rw [hv] at h
      have hsame := refuseReceipt_ok h
      have hempty : keysOf P id [x] = ∅ := by simp [keysOf, creditable, hv, Verdict.isOk]
      exact ⟨hempty ▸ hsame.posted n, hsame.kept hk⟩
  | ok revokedFrom =>
      rw [hv] at h
      exact creditReceipt_ok hid hk (by rw [hv]; rfl) h

theorem returns_postReceipt {note : String} {id : JsString} {n : Nat} {x : Finding} {s : State}
    (hid : IsIdentity H id) (hk : Kept H P s) (hleaf : ∃ leaf, leafOf H x.item = .ok leaf) :
    Outcome.Returns (postReceipt H P note id n s x) ↔ (creditable P x = true → HasRate P x) := by
  unfold postReceipt
  cases hv : x.v with
  | fail reason => simp [returns_refuseReceipt hk, creditable, hv, Verdict.isOk]
  | ok revokedFrom => exact returns_creditReceipt hid hk (by rw [hv]; rfl) hleaf

theorem postAll_ok {note : String} {id : JsString} {n : Nat} {found : List Finding}
    (hid : IsIdentity H id) : ∀ {s s' : State}, Kept H P s →
      found.foldlM (postReceipt H P note id n) s = .ok s' →
        Posted H P s s' (keysOf P id found) n ∧ Kept H P s' := by
  induction found with
  | nil =>
      intro s s' hk h
      cases h
      exact ⟨Posted.refl s n, hk⟩
  | cons x found ih =>
      intro s s' hk h
      rw [List.foldlM_cons] at h
      obtain ⟨t, ht, h⟩ := Outcome.bind_eq_ok.mp h
      obtain ⟨hpost, hk'⟩ := postReceipt_ok hid hk ht
      obtain ⟨hrest, hk''⟩ := ih hk' h
      rw [keysOf_cons]
      exact ⟨hpost.trans hrest, hk''⟩

theorem returns_postAll {note : String} {id : JsString} {n : Nat} {found : List Finding}
    (hid : IsIdentity H id) (hleaf : ∀ x ∈ found, ∃ leaf, leafOf H x.item = .ok leaf) :
    ∀ {s : State}, Kept H P s → (Outcome.Returns (found.foldlM (postReceipt H P note id n) s) ↔
      ∀ x ∈ found, creditable P x = true → HasRate P x) := by
  induction found with
  | nil => intro s _; exact iff_of_true (Outcome.returns_ok _) (fun _ hx => by cases hx)
  | cons x found ih =>
      intro s hk
      rw [List.forall_mem_cons] at hleaf
      rw [List.foldlM_cons, Outcome.returns_bind, returns_postReceipt hid hk hleaf.1,
        List.forall_mem_cons]
      refine and_congr_right fun hx => ?_
      have hreturns : Outcome.Returns (postReceipt H P note id n s x) :=
        (returns_postReceipt hid hk hleaf.1).mpr hx
      obtain ⟨t, ht⟩ := hreturns
      have hk' := (postReceipt_ok hid hk ht).2
      exact ⟨fun h => (ih hleaf.2 hk').mp (h t ht),
        fun h t' ht' => (ih hleaf.2 (postReceipt_ok hid hk ht').2).mpr h⟩

/-- **A claim settles**: it can be read, and, where it is opened, every receipt that counts is of an
operator with a rate card and the counts of unsigned hops add up. -/
def Settles (H : SettleHost) (P : Params) (c : Claim) : Prop :=
  ∃ r, readClaim H P c = .ok r ∧ match r with
    | .refused _ => True
    | .opened _ _ found =>
        (∀ x ∈ finalFindings H c found, creditable P x = true → HasRate P x) ∧
          Outcome.Returns (unsignedHops H c.source .undef (found.map Finding.f))

theorem clearClaim_ok {c : Claim} {s s' : State} (hk : Kept H P s)
    (h : clearClaim H P s c = .ok s') :
    Posted H P s s' (bidOf H P c).keys (bidOf H P c).worth ∧ Kept H P s' := by
  obtain ⟨r, hr, h⟩ := Outcome.bind_eq_ok.mp h
  cases r with
  | refused reason =>
      cases h
      have hbid : bidOf H P c = ⟨∅, 0⟩ := by rw [bidOf, hr]
      have hsame : SameSums s (s.reject { claim := c.note, reason }) :=
        ⟨rfl, rfl, fun _ => rfl, fun _ => rfl, fun _ => rfl, fun _ => rfl⟩
      rw [hbid]
      exact ⟨hsame.posted 0, hsame.kept hk⟩
  | opened id n found =>
      obtain ⟨t, ht, h⟩ := Outcome.bind_eq_ok.mp h
      obtain ⟨u, _, h⟩ := Outcome.bind_eq_ok.mp h
      cases h
      have hbid : bidOf H P c = ⟨keysOf P id (finalFindings H c found), n⟩ := by rw [bidOf, hr]
      obtain ⟨hpost, hk'⟩ := postAll_ok (readClaim_isIdentity hr) hk ht
      have hsame : SameSums t (t.mark u) := ⟨rfl, rfl, fun _ => rfl, fun _ => rfl, fun _ => rfl, fun _ => rfl⟩
      rw [hbid]
      have hall := hpost.trans (hsame.posted n)
      rw [Finset.union_empty] at hall
      exact ⟨hall, hsame.kept hk'⟩

theorem returns_clearClaim {c : Claim} {s : State} (hk : Kept H P s) :
    Outcome.Returns (clearClaim H P s c) ↔ Settles H P c := by
  unfold clearClaim Settles
  rw [Outcome.returns_bind]
  constructor
  · rintro ⟨⟨r, hr⟩, h⟩
    have hrest := h r hr
    refine ⟨r, hr, ?_⟩
    cases r with
    | refused reason => trivial
    | opened id n found =>
        rw [Outcome.returns_bind] at hrest
        obtain ⟨⟨t, ht⟩, hmark⟩ := hrest
        exact ⟨(returns_postAll (readClaim_isIdentity hr) (readClaim_encodes hr) hk).mp ⟨t, ht⟩,
          Outcome.returns_map.mp (hmark t ht)⟩
  · rintro ⟨r, hr, h⟩
    refine ⟨⟨r, hr⟩, fun r' hr' => ?_⟩
    rw [hr] at hr'
    cases hr'
    cases r with
    | refused reason => exact Outcome.returns_ok _
    | opened id n found =>
        rw [Outcome.returns_bind]
        exact ⟨(returns_postAll (readClaim_isIdentity hr) (readClaim_encodes hr) hk).mpr h.1,
          fun _ _ => Outcome.returns_map.mpr h.2⟩

/-! ## A list of claims -/

theorem entries_start : P.start.perOp.entries = P.operators.keys.map fun op => (op, {}) := by
  refine JsMap.entries_ofList ?_
  rw [List.map_map]
  exact (List.map_id _).symm ▸ P.operators.nodup

theorem account_start (op : String) : P.start.account op = {} := by
  unfold State.account
  cases hget : P.start.perOp.get? op with
  | none => rfl
  | some a =>
      have hmem := JsMap.mem_entries_iff.mpr hget
      rw [entries_start] at hmem
      obtain ⟨_, _, heq⟩ := List.mem_map.mp hmem
      cases heq
      rfl

theorem seen_start : P.start.seen = ∅ := rfl

theorem kept_start : Kept H P P.start where
  operators := by
    rw [JsMap.keys, entries_start, List.map_map]
    exact List.map_id _
  credited key hkey := absurd hkey (Finset.notMem_empty key)
  amount op rate _ := by
    rw [account_start, amountOf]
    simp
  leaves op := by
    rw [account_start]
    rfl

/-- The keys of a claim, counted. -/
def countOf (H : SettleHost) (P : Params) (c : Claim) : Bid JsString := ⟨(bidOf H P c).keys, 1⟩

theorem postFrom_ok {claims : List Claim} : ∀ {s s' : State}, Kept H P s →
    claims.foldlM (clearClaim H P) s = .ok s' → Kept H P s' ∧
      (∀ op, (s'.account op).bundles = (s.account op).bundles +
        Bid.paid (group H P op) s.seen (claims.map (countOf H P))) ∧
      (∀ op, (s'.account op).bytes = (s.account op).bytes +
        Bid.paid (group H P op) s.seen (claims.map (bidOf H P))) ∧
      s'.seen = s.seen ∪ Bid.allKeys (claims.map (bidOf H P)) := by
  induction claims with
  | nil =>
      intro s s' hk h
      cases h
      exact ⟨hk, fun _ => rfl, fun _ => rfl, (Finset.union_empty _).symm⟩
  | cons c claims ih =>
      intro s s' hk h
      rw [List.foldlM_cons] at h
      obtain ⟨t, ht, h⟩ := Outcome.bind_eq_ok.mp h
      obtain ⟨hpost, hk'⟩ := clearClaim_ok hk ht
      obtain ⟨hkept, hbundles, hbytes, hseen⟩ := ih hk' h
      refine ⟨hkept, fun op => ?_, fun op => ?_, ?_⟩
      · rw [hbundles, hpost.bundles, hpost.seen, List.map_cons, Bid.paid, countOf, Nat.mul_one,
          Nat.add_assoc]
      · rw [hbytes, hpost.bytes, hpost.seen, List.map_cons, Bid.paid, Nat.add_assoc]
      · rw [hseen, hpost.seen, List.map_cons, Bid.allKeys_cons, Finset.union_assoc]

/-- **What is in the accounts** is what the bids are paid. -/
structure Accounts (H : SettleHost) (P : Params) (claims : List Claim) (s : State) : Prop where
  kept : Kept H P s
  bundles : ∀ op, (s.account op).bundles =
    Bid.paid (group H P op) ∅ (claims.map (countOf H P))
  bytes : ∀ op, (s.account op).bytes = Bid.paid (group H P op) ∅ (claims.map (bidOf H P))
  seen : s.seen = Bid.allKeys (claims.map (bidOf H P))

theorem post_ok {claims : List Claim} {s : State} (h : post H P claims = .ok s) :
    Accounts H P claims s := by
  obtain ⟨hkept, hbundles, hbytes, hseen⟩ := postFrom_ok kept_start h
  refine ⟨hkept, fun op => ?_, fun op => ?_, ?_⟩
  · rw [hbundles, account_start, seen_start]
    exact Nat.zero_add _
  · rw [hbytes, account_start, seen_start]
    exact Nat.zero_add _
  · rw [hseen, seen_start, Finset.empty_union]

/-- The claims are posted when each of them settles. -/
theorem returns_postFrom {claims : List Claim} : ∀ {s : State}, Kept H P s →
    (Outcome.Returns (claims.foldlM (clearClaim H P) s) ↔ ∀ c ∈ claims, Settles H P c) := by
  induction claims with
  | nil => intro s _; exact iff_of_true (Outcome.returns_ok _) (fun _ hc => by cases hc)
  | cons c claims ih =>
      intro s hk
      rw [List.foldlM_cons, Outcome.returns_bind, returns_clearClaim hk, List.forall_mem_cons]
      refine and_congr_right fun hc => ?_
      obtain ⟨t, ht⟩ := (returns_clearClaim hk).mpr hc
      exact ⟨fun h => (ih (clearClaim_ok hk ht).2).mp (h t ht),
        fun h t' ht' => (ih (clearClaim_ok hk ht').2).mpr h⟩

theorem returns_post {claims : List Claim} :
    Outcome.Returns (post H P claims) ↔ ∀ c ∈ claims, Settles H P c :=
  returns_postFrom kept_start

/-! ## Statements -/

/-- A statement is shallow enough to be hashed. -/
theorem returns_signRecord {op : String} {a : Account} {rate : ℚ} {root : JsString} :
    Outcome.Returns
      (Receipt.signRecord H.toHost P.clearingKey (statementOf P op a rate root)) := by
  have hcontent : ∀ p ∈ statementOf P op a rate root, Json.height p.2 < Json.maxDepth := by
    have hscalar : 0 < Json.maxDepth := by decide
    simp only [statementOf, List.forall_mem_cons]
    exact ⟨hscalar, hscalar, hscalar, P.shallow, hscalar, hscalar, hscalar, hscalar, hscalar,
      fun _ hp => by cases hp⟩
  rw [Receipt.signRecord, Outcome.returns_map]
  exact Json.returns_contentId_obj hcontent

theorem returns_signStatement {p : String × Account} (hleaves : p.2.leaves ≠ [])
    (hop : P.operators.has p.1 = true) : Outcome.Returns (signStatement H P p) := by
  have hsorted : p.2.close.leaves ≠ [] := by
    intro hnil
    have hlen := congrArg List.length hnil
    rw [Account.close, Batch.sortIds, List.length_insertionSort] at hlen
    exact hleaves (List.eq_nil_of_length_eq_zero hlen)
  obtain ⟨rate, hrate⟩ := Option.isSome_iff_exists.mp hop
  unfold signStatement Merkle.buildTree
  rw [if_neg hsorted]
  simp only [Outcome.ok_bind, hrate]
  exact Outcome.returns_map.mpr returns_signRecord

/-- **`clear` returns when the claims are posted.** -/
theorem returns_clear {claims : List Claim} :
    Outcome.Returns (clear H P claims) ↔ ∀ c ∈ claims, Settles H P c := by
  rw [← returns_post, clear, Outcome.returns_bind]
  refine and_iff_left fun s hs => Outcome.returns_map.mpr ?_
  have hkept := (post_ok hs).kept
  refine Outcome.returns_mapM.mpr fun p hp => ?_
  obtain ⟨hmem, hbill⟩ := List.mem_filter.mp hp
  obtain ⟨op, a⟩ := p
  have haccount : s.account op = a := by
    rw [State.account, JsMap.mem_entries_iff.mp hmem]
    rfl
  have hbundles : a.bundles ≠ 0 := by
    simp only [billable, Bool.and_eq_true, decide_eq_true_eq] at hbill
    exact hbill.2
  refine returns_signStatement (fun hnil => ?_) ?_
  · have hleaves := hkept.leaves op
    rw [haccount, hnil] at hleaves
    exact hbundles hleaves.symm
  · rw [← has_perOp hkept, JsMap.has_iff]
    exact List.mem_map_of_mem hmem

end Settle

end DtnCustody
