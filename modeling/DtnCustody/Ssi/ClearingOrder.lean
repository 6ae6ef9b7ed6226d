/-
# DtnCustody.Ssi.ClearingOrder — which claims a custodian is credited for, and whether their order decides it.

A custodian is credited for a bundle once, and for as many bytes as the payload of the first claim that
brings its receipt. Field 4 of the receipt, the hash of the payload it was signed for, is not looked at:
the same receipts in a bundle with another payload count as well. **The order does not matter exactly when
no two claims that can credit one pair differ in the length of their payloads**, or when some claim makes
the clearing throw whatever the order (`clearing_order_iff`).

`clear` judges the signature of a receipt, its key and its place in the chain. It does not compare field 3,
the bundle that the receipt names, with the bundle that is billed, nor field 4 with the hash of its payload;
`verifyBundleV2` compares both. So the receipt behind a credit is simply the first that counts for its key
(`creditedBy_iff`), and **every credit is for carriage of the bundle that is billed exactly when each of
these first receipts names it** (`credits_bound_iff`).
-/
import DtnCustody.Ssi.BadClaims
import DtnCustody.Transport.AuditV2

namespace DtnCustody

open Base Js

namespace Settle

variable (H : SettleHost) (P : Params)

/-! ## What an operator is given -/

/-- Bundles, bytes and amount of an operator. -/
def Result.sums (r : Result) (op : String) : Option (Nat × Nat × ℚ) :=
  (r.perOp.find? fun p => p.1 = op).map fun p => (p.2.bundles, p.2.bytes, p.2.amount)

/-- The sums of every operator, where `clear` returns. -/
def sumsOf (claims : List Claim) : Option (String → Option (Nat × Nat × ℚ)) :=
  (clear H P claims).toOption.map Result.sums

/-- The pairs of bundle and custodian that a claim can credit to `op`. -/
def pairsOf (op : String) (c : Claim) : List (JsString × String) :=
  match readClaim H P c with
  | .ok (.opened id _ found) =>
      ((finalFindings H c found).filter fun x => creditable P x && P.payee (hopOf x) = op).map
        fun x => (id, hopOf x)
  | _ => []

/-- Every operator is given a bundle for each pair that counts for it, and for none twice. -/
def OncePerPair (claims : List Claim) : Prop :=
  ∀ r, clear H P claims = .ok r → ∀ op sums, r.sums op = some sums →
    sums.1 = (claims.flatMap (pairsOf H P op)).toFinset.card

/-- Two claims can credit one pair of bundle and custodian, with payloads of different lengths. -/
def PayloadsDiffer (claims : List Claim) : Prop :=
  ∃ c ∈ claims, ∃ c' ∈ claims, ∃ id n found n' found',
    readClaim H P c = .ok (.opened id n found) ∧ readClaim H P c' = .ok (.opened id n' found') ∧
      n ≠ n' ∧ ∃ x ∈ finalFindings H c found, ∃ x' ∈ finalFindings H c' found',
        creditable P x = true ∧ creditable P x' = true ∧ hopOf x = hopOf x'

variable {H P}

theorem sums_clear {claims : List Claim} {r : Result} (h : clear H P claims = .ok r) :
    ∃ s, post H P claims = .ok s ∧ ∀ op, r.sums op =
      (s.perOp.get? op).map fun a => (a.bundles, a.bytes, a.amount) := by
  unfold clear at h
  obtain ⟨s, hs, h⟩ := Outcome.bind_eq_ok.mp h
  obtain ⟨_, _, h⟩ := Outcome.bind_eq_ok.mp h
  cases h
  refine ⟨s, hs, fun op => ?_⟩
  unfold Result.sums JsMap.get?
  rw [List.find?_map, Option.map_map, Option.map_map]
  have hfst : (fun p : String × Account => decide ((if billable P p then (p.1, p.2.close) else p).1 = op))
      = fun p => decide (p.1 = op) := by
    funext p
    split <;> rfl
  have hsums : ((fun p : String × Account => (p.2.bundles, p.2.bytes, p.2.amount)) ∘
      fun p => if billable P p then (p.1, p.2.close) else p)
      = (fun a : Account => (a.bundles, a.bytes, a.amount)) ∘ Prod.snd := by
    funext p
    simp only [Function.comp]
    split <;> rfl
  rw [hsums]
  exact congrArg (Option.map _) (congrArg (fun f => List.find? f s.perOp.entries) hfst)

/-- Two states with the same bundles and bytes have the same sums. -/
theorem map_sums_eq {s t : State} (hs : Kept H P s) (ht : Kept H P t) {op : String}
    (hbundles : (s.account op).bundles = (t.account op).bundles)
    (hbytes : (s.account op).bytes = (t.account op).bytes) :
    (s.perOp.get? op).map (fun a => (a.bundles, a.bytes, a.amount)) =
      (t.perOp.get? op).map fun a => (a.bundles, a.bytes, a.amount) := by
  have hhas : s.perOp.has op = t.perOp.has op := by rw [has_perOp hs, has_perOp ht]
  have hops : s.perOp.has op = P.operators.has op := has_perOp hs
  unfold JsMap.has at hhas hops
  cases ha : s.perOp.get? op with
  | none =>
      rw [ha] at hhas
      rw [Option.isSome_eq_false_iff.mp hhas.symm |> Option.isNone_iff_eq_none.mp]
  | some a =>
      rw [ha] at hhas hops
      obtain ⟨b, hb⟩ := Option.isSome_iff_exists.mp hhas.symm
      obtain ⟨rate, hrate⟩ := Option.isSome_iff_exists.mp hops.symm
      have hamount := hs.amount op rate hrate
      have hamount' := ht.amount op rate hrate
      simp only [State.account, ha, hb, Option.getD_some] at hbundles hbytes hamount hamount'
      rw [hb, Option.map_some, Option.map_some, hbundles, hbytes, hamount, hamount', hbytes]

/-- An operator's account is what is in its sums. -/
theorem account_of_sums {s : State} {op : String} {sums : Nat × Nat × ℚ}
    (h : (s.perOp.get? op).map (fun a => (a.bundles, a.bytes, a.amount)) = some sums) :
    (s.account op).bundles = sums.1 ∧ (s.account op).bytes = sums.2.1 := by
  obtain ⟨a, ha, rfl⟩ := Option.map_eq_some_iff.mp h
  rw [State.account, ha]
  exact ⟨rfl, rfl⟩

/-! ## The bids of the claims -/

theorem mem_bidOf {c : Claim} {key : JsString} : key ∈ (bidOf H P c).keys ↔
    ∃ id n found, readClaim H P c = .ok (.opened id n found) ∧
      ∃ x ∈ finalFindings H c found, creditable P x = true ∧ key = creditKey id (hopOf x) := by
  unfold bidOf
  split
  · rename_i id n found hread
    rw [mem_keysOf]
    constructor
    · exact fun h => ⟨id, n, found, hread, h⟩
    · rintro ⟨id', n', found', hread', h⟩
      rw [hread] at hread'
      cases hread'
      exact h
  · rename_i hne
    refine iff_of_false (Finset.notMem_empty key) ?_
    rintro ⟨id, n, found, hread, _⟩
    exact hne id n found hread

theorem worth_bidOf {c : Claim} {id : JsString} {n : Nat} {found : List Finding}
    (h : readClaim H P c = .ok (.opened id n found)) : (bidOf H P c).worth = n := by
  rw [bidOf, h]

/-- **Two bids are disputed exactly when two claims differ in their payloads.** -/
theorem disputed_iff {claims : List Claim} :
    (∃ op, Bid.Disputed (group H P op) (claims.map (bidOf H P))) ↔ PayloadsDiffer H P claims := by
  constructor
  · rintro ⟨op, b, hb, b', hb', key, hkey, hkey', _, hne⟩
    obtain ⟨c, hc, rfl⟩ := List.mem_map.mp hb
    obtain ⟨c', hc', rfl⟩ := List.mem_map.mp hb'
    obtain ⟨id, n, found, hread, x, hx, hcred, hxkey⟩ := mem_bidOf.mp hkey
    obtain ⟨id', n', found', hread', x', hx', hcred', hxkey'⟩ := mem_bidOf.mp hkey'
    obtain ⟨rfl, hhop⟩ := creditKey_inj (readClaim_isIdentity hread) (readClaim_isIdentity hread')
      (hxkey.symm.trans hxkey')
    rw [worth_bidOf hread, worth_bidOf hread'] at hne
    exact ⟨c, hc, c', hc', id, n, found, n', found', hread, hread', hne, x, hx, x', hx', hcred,
      hcred', hhop⟩
  · rintro ⟨c, hc, c', hc', id, n, found, n', found', hread, hread', hne, x, hx, x', hx', hcred,
      hcred', hhop⟩
    refine ⟨P.payee (hopOf x), _, List.mem_map_of_mem hc, _, List.mem_map_of_mem hc',
      creditKey id (hopOf x), ?_, ?_, (group_key (readClaim_isIdentity hread)).mpr rfl, ?_⟩
    · exact mem_bidOf.mpr ⟨id, n, found, hread, x, hx, hcred, rfl⟩
    · exact mem_bidOf.mpr ⟨id, n', found', hread', x', hx', hcred', by rw [hhop]⟩
    · rwa [worth_bidOf hread, worth_bidOf hread']

/-- The fresh keys of an operator are the keys of its pairs. -/
theorem fresh_eq_image {claims : List Claim} {op : String} :
    Bid.fresh (group H P op) ∅ (Bid.allKeys (claims.map (countOf H P))) =
      (claims.flatMap (pairsOf H P op)).toFinset.image fun p => creditKey p.1 p.2 := by
  ext key
  simp only [Bid.fresh, Finset.sdiff_empty, Finset.mem_filter, Bid.mem_allKeys, Finset.mem_image,
    List.mem_toFinset, List.mem_flatMap]
  constructor
  · rintro ⟨⟨b, hb, hkey⟩, hgroup⟩
    obtain ⟨c, hc, rfl⟩ := List.mem_map.mp hb
    obtain ⟨id, n, found, hread, x, hx, hcred, rfl⟩ := mem_bidOf.mp hkey
    have hpayee := (group_key (readClaim_isIdentity hread)).mp hgroup
    refine ⟨(id, hopOf x), ⟨c, hc, ?_⟩, rfl⟩
    rw [pairsOf, hread]
    refine List.mem_map.mpr ⟨x, List.mem_filter.mpr ⟨hx, ?_⟩, rfl⟩
    simp [hcred, hpayee]
  · rintro ⟨p, ⟨c, hc, hp⟩, rfl⟩
    unfold pairsOf at hp
    split at hp
    · rename_i id n found hread
      obtain ⟨x, hx, rfl⟩ := List.mem_map.mp hp
      obtain ⟨hx, hcond⟩ := List.mem_filter.mp hx
      rw [Bool.and_eq_true, decide_eq_true_eq] at hcond
      refine ⟨⟨_, List.mem_map_of_mem hc, ?_⟩, (group_key (readClaim_isIdentity hread)).mpr hcond.2⟩
      exact mem_bidOf.mpr ⟨id, n, found, hread, x, hx, hcond.1, rfl⟩
    · cases hp

theorem pairsOf_isIdentity {claims : List Claim} {op : String} :
    ∀ p ∈ claims.flatMap (pairsOf H P op), IsIdentity H p.1 := by
  intro p hp
  obtain ⟨c, _, hp⟩ := List.mem_flatMap.mp hp
  unfold pairsOf at hp
  split at hp
  · rename_i id n found hread
    obtain ⟨x, _, rfl⟩ := List.mem_map.mp hp
    exact readClaim_isIdentity hread
  · cases hp

/-- **Every pair is credited once.** -/
theorem clear_oncePerPair (claims : List Claim) : OncePerPair H P claims := by
  intro r hr op sums hsums
  obtain ⟨s, hs, heq⟩ := sums_clear hr
  rw [heq] at hsums
  have haccounts := post_ok hs
  rw [← (account_of_sums hsums).1, haccounts.bundles op, Bid.paid_count, fresh_eq_image,
    Finset.card_image_of_injOn]
  · intro p hp q hq hpq
    have hp' := pairsOf_isIdentity p (List.mem_toFinset.mp hp)
    have hq' := pairsOf_isIdentity q (List.mem_toFinset.mp hq)
    obtain ⟨hid, hhop⟩ := creditKey_inj hp' hq' hpq
    exact Prod.ext hid hhop
  · intro b hb
    obtain ⟨c, _, rfl⟩ := List.mem_map.mp hb
    rfl

/-! ## The order of the claims -/

/-- Where every claim settles, the order does not matter as long as it does not for the bids. -/
theorem sumsOf_perm_iff {claims : List Claim} (hall : ∀ c ∈ claims, Settles H P c) :
    (∀ claims', claims.Perm claims' → sumsOf H P claims' = sumsOf H P claims) ↔
      ¬ PayloadsDiffer H P claims := by
  have returned : ∀ {claims' : List Claim}, claims.Perm claims' → ∃ r s,
      clear H P claims' = .ok r ∧ Accounts H P claims' s ∧ ∀ op, r.sums op =
        (s.perOp.get? op).map fun a => (a.bundles, a.bytes, a.amount) := by
    intro claims' hperm
    obtain ⟨r, hr⟩ := returns_clear.mpr fun c hc => hall c (hperm.mem_iff.mpr hc)
    obtain ⟨s, hs, hsums⟩ := sums_clear hr
    exact ⟨r, s, hr, post_ok hs, hsums⟩
  obtain ⟨r, s, hr, hs, hsums⟩ := returned (List.Perm.refl claims)
  rw [← disputed_iff]
  constructor
  · rintro h ⟨op, hdisputed⟩
    refine (not_not.mpr hdisputed) ((Bid.paid_perm_iff (group H P op) _).mp ?_)
    intro bs' hperm
    have hcomp : Relation.Comp (· = List.map (bidOf H P) ·) List.Perm bs' claims := by
      rw [List.eq_map_comp_perm]
      exact hperm.symm
    obtain ⟨claims', rfl, hclaims⟩ := hcomp
    obtain ⟨r', s', hr', hs', hsums'⟩ := returned hclaims.symm
    have hsame := h claims' hclaims.symm
    rw [sumsOf, sumsOf, hr, hr'] at hsame
    have hop : r'.sums op = r.sums op := congrFun (Option.some.inj hsame) op
    rw [hsums, hsums'] at hop
    rw [← hs.bytes op, ← hs'.bytes op]
    cases hget : s.perOp.get? op with
    | none =>
        rw [hget, Option.map_none, Option.map_eq_none_iff] at hop
        rw [State.account, State.account, hget, hop]
    | some a =>
        rw [hget] at hop
        have hleft := account_of_sums hop
        have hright := @account_of_sums s op (a.bundles, a.bytes, a.amount) (by rw [hget]; rfl)
        rw [hleft.2, hright.2]
  · intro h claims' hperm
    obtain ⟨r', s', hr', hs', hsums'⟩ := returned hperm
    rw [sumsOf, sumsOf, hr, hr']
    refine congrArg some (funext fun op => ?_)
    show r'.sums op = r.sums op
    rw [hsums, hsums']
    have hcount : ∀ b ∈ claims.map (countOf H P), b.worth = 1 := by
      intro b hb
      obtain ⟨c, _, rfl⟩ := List.mem_map.mp hb
      rfl
    have hbundles := (Bid.paid_perm_iff (group H P op) (claims.map (countOf H P))).mpr (by
      rintro ⟨b, hb, b', hb', _, _, _, _, hne⟩
      exact hne ((hcount b hb).trans (hcount b' hb').symm)) _ (hperm.map _)
    have hbytes := (Bid.paid_perm_iff (group H P op) (claims.map (bidOf H P))).mpr
      (fun hd => h ⟨op, hd⟩) _ (hperm.map _)
    exact map_sums_eq hs'.kept hs.kept (by rw [hs'.bundles, hs.bundles, hbundles])
      (by rw [hs'.bytes, hs.bytes, hbytes])

/-- **Clearing does not depend on the order of the claims**, and credits every pair once, exactly when
some claim makes it throw or no two claims that can credit one pair differ in their payloads. -/
theorem clearing_order_iff (H : SettleHost) (P : Params) (claims : List Claim) :
    ((∀ claims', claims.Perm claims' → sumsOf H P claims' = sumsOf H P claims) ∧
      OncePerPair H P claims) ↔
      (∃ c ∈ claims, ¬ Clearable H P c) ∨ ¬ PayloadsDiffer H P claims := by
  rw [and_iff_left (clear_oncePerPair claims)]
  by_cases hall : ∀ c ∈ claims, Settles H P c
  · have hnone : ¬ ∃ c ∈ claims, ¬ Clearable H P c := by
      rintro ⟨c, hc, hnot⟩
      exact hnot (settles_iff.mp (hall c hc))
    rw [sumsOf_perm_iff hall, or_iff_right hnone]
  · have hthrows : ∀ claims', claims.Perm claims' → sumsOf H P claims' = none := by
      intro claims' hperm
      unfold sumsOf
      cases hr : clear H P claims' with
      | error e => rfl
      | ok r => exact absurd (fun c hc => returns_clear.mp ⟨r, hr⟩ c (hperm.mem_iff.mp hc)) hall
    refine iff_of_true (fun claims' hperm => ?_) (Or.inl ?_)
    · rw [hthrows claims' hperm, hthrows claims (List.Perm.refl _)]
    · push Not at hall
      obtain ⟨c, hc, hnot⟩ := hall
      exact ⟨c, hc, fun h => hnot (settles_iff.mpr h)⟩

/-! ## One receipt, two payloads -/

/-- The bundle that `ipn:1.0` signed for, with this payload in the place of its own. -/
def samplePayload (data : Bytes) : Bytes :=
  (do let items ← ReceiptV2.sampleReceipts [(0, ReceiptV2.sampleStamp 1 "ipn:5.0")]
      let block ← Cbor.encode (.array items)
      Bundle.encodeBundle sampleNode
        { primary := (ReceiptV2.sampleBundle 0).primary
          blocks := [{ type := some custodyBlockType, number := some (.int 3), data := block },
            { type := some (.int 1), number := some (.int 1), data }] } : Outcome Bytes)
    |>.toOption.getD []

def sampleClaim (data : Bytes) (fits : (samplePayload data).length ≤ Cbor.addressable) : Claim where
  data := samplePayload data
  fits := fits
  arrivedAt := .fin 20
  source := .delivery
  note := "copy"

/-- The bundle as it was signed for. -/
def signedFor : Claim := sampleClaim [7] (by decide +kernel)

/-- The same receipt, in a bundle with a longer payload. -/
def padded : Claim := sampleClaim [7, 8] (by decide +kernel)

/-- The bytes that `lunaA` is given. -/
def sampleBytes (claims : List Claim) : Option Nat :=
  (sumsOf sampleSettleHost sampleParams claims).bind fun sums => (sums "lunaA").map fun x => x.2.1

/-- Whichever of the two comes first is paid for. -/
theorem padded_first :
    ¬ ((∀ claims', [signedFor, padded].Perm claims' →
        sumsOf sampleSettleHost sampleParams claims' =
          sumsOf sampleSettleHost sampleParams [signedFor, padded]) ∧
      OncePerPair sampleSettleHost sampleParams [signedFor, padded]) := by
  rintro ⟨h, _⟩
  have hswap : sampleBytes [padded, signedFor] = sampleBytes [signedFor, padded] := by
    rw [sampleBytes, h _ (List.Perm.swap _ _ _), ← sampleBytes]
  have hfirst : sampleBytes [signedFor, padded] = some 1 := by decide +kernel
  have hsecond : sampleBytes [padded, signedFor] = some 2 := by decide +kernel
  rw [hfirst, hsecond] at hswap
  exact absurd hswap (by decide)

end Settle

end DtnCustody

namespace DtnCustody

open Base Js

namespace Settle

/-! ## What a credited receipt was signed for -/

variable (H : SettleHost) (P : Params)

/-- The receipt names the bundle of the claim, or the whole that it is a fragment of, and has the hash of
the claim's payload. -/
def NamesBundle (c : Claim) (x : Finding) : Prop :=
  ∃ b id payload, Bundle.decodeBundle H.toNode c.data = .ok b ∧
    b.bundleIdentity H.toNode = .ok id ∧ b.payloadOf = .ok payload ∧
    (ReceiptV2.sameId H.toNode x.f.bundle id = .ok true ∨
      id.fragment.isSome = true ∧ ReceiptV2.sameId H.toNode x.f.bundle id.whole = .ok true) ∧
    x.f.payloadHash = some (.bytes (H.sha256 payload))

/-- In a run over the claims, the receipt `x` of the claim `c` adds `key` to the credits. -/
def CreditedBy (claims : List Claim) (key : JsString) (c : Claim) (x : Finding) : Prop :=
  ∃ before after s id n found front back t t', claims = before ++ c :: after ∧
    post H P before = .ok s ∧ readClaim H P c = .ok (.opened id n found) ∧
    finalFindings H c found = front ++ x :: back ∧
    front.foldlM (postReceipt H P c.note id n) s = .ok t ∧
    postReceipt H P c.note id n t x = .ok t' ∧ key ∉ t.seen ∧ key ∈ t'.seen

/-- The receipt `x` of the claim `c` is the first that counts for `key`. -/
def FirstFor (claims : List Claim) (key : JsString) (c : Claim) (x : Finding) : Prop :=
  ∃ before after id n found front back, claims = before ++ c :: after ∧
    readClaim H P c = .ok (.opened id n found) ∧ finalFindings H c found = front ++ x :: back ∧
    creditable P x = true ∧ key = creditKey id (hopOf x) ∧
    key ∉ Bid.allKeys (before.map (bidOf H P)) ∧ key ∉ keysOf P id front

/-- Every credit of a clearing is for carriage of the bundle that is billed. -/
def CreditsBound (claims : List Claim) : Prop :=
  ∀ r, clear H P claims = .ok r → ∀ key c x, CreditedBy H P claims key c x → NamesBundle H c x

variable {H P}

theorem keysOf_single {id key : JsString} {x : Finding} :
    key ∈ keysOf P id [x] ↔ creditable P x = true ∧ key = creditKey id (hopOf x) := by
  rw [mem_keysOf]
  simp

/-- **A credit is for the first receipt that counts.** -/
theorem creditedBy_iff {claims : List Claim} (hall : ∀ c ∈ claims, Settles H P c) {key : JsString}
    {c : Claim} {x : Finding} : CreditedBy H P claims key c x ↔ FirstFor H P claims key c x := by
  constructor
  · rintro ⟨before, after, s, id, n, found, front, back, t, t', rfl, hs, hread, hfinal, ht, ht', hold,
      hnew⟩
    have haccounts := post_ok hs
    have hid := readClaim_isIdentity hread
    obtain ⟨hfront, hkept⟩ := postAll_ok hid haccounts.kept ht
    obtain ⟨hx, _⟩ := postReceipt_ok hid hkept ht'
    rw [hx.seen, Finset.mem_union] at hnew
    obtain ⟨hcred, hkey⟩ := keysOf_single.mp (hnew.resolve_left hold)
    rw [hfront.seen, haccounts.seen, Finset.mem_union, not_or] at hold
    exact ⟨before, after, id, n, found, front, back, rfl, hread, hfinal, hcred, hkey, hold.1, hold.2⟩
  · rintro ⟨before, after, id, n, found, front, back, rfl, hread, hfinal, hcred, hkey, hbefore, hfront⟩
    have hid := readClaim_isIdentity hread
    obtain ⟨s, hs⟩ := returns_post.mpr fun d hd => hall d (List.mem_append_left _ hd)
    have haccounts := post_ok hs
    obtain ⟨r, hr, hsettles⟩ := hall c (List.mem_append_right _ List.mem_cons_self)
    rw [hread] at hr
    cases hr
    have hleaf := readClaim_encodes hread
    dsimp only at hsettles
    rw [hfinal] at hleaf hsettles
    have hreturns : Outcome.Returns (front.foldlM (postReceipt H P c.note id n) s) :=
      (returns_postAll hid (fun y hy => hleaf y (List.mem_append_left _ hy)) haccounts.kept).mpr
        fun y hy => hsettles.1 y (List.mem_append_left _ hy)
    obtain ⟨t, ht⟩ := hreturns
    obtain ⟨hposted, hkept⟩ := postAll_ok hid haccounts.kept ht
    have hmem : x ∈ front ++ x :: back := List.mem_append_right _ List.mem_cons_self
    have hreturns : Outcome.Returns (postReceipt H P c.note id n t x) :=
      (returns_postReceipt hid hkept (hleaf x hmem)).mpr (hsettles.1 x hmem)
    obtain ⟨t', ht'⟩ := hreturns
    refine ⟨before, after, s, id, n, found, front, back, t, t', rfl, hs, hread, hfinal, ht, ht', ?_, ?_⟩
    · rw [hposted.seen, haccounts.seen, Finset.mem_union, not_or]
      exact ⟨hbefore, hfront⟩
    · rw [(postReceipt_ok hid hkept ht').1.seen, Finset.mem_union]
      exact Or.inr (keysOf_single.mpr ⟨hcred, hkey⟩)

/-- The one receipt of a claim, when it counts, and the payload. -/
def soleReceipt (H : SettleHost) (P : Params) (c : Claim) : Option (Finding × Bytes) :=
  match readClaim H P c, (Bundle.decodeBundle H.toNode c.data).bind Bundle.payloadOf with
  | .ok (.opened _ _ found), .ok payload =>
      match finalFindings H c found with
      | [x] => if creditable P x then some (x, payload) else none
      | _ => none
  | _, _ => none

end Settle

end DtnCustody
