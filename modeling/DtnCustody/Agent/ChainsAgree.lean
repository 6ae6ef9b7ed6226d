/-
# DtnCustody.Agent.ChainsAgree — `verifyCustodyChain` against `auditCustodyChain`, and `recordCustody` and
`verifyChain` of `agent/dest.mjs`.

One check takes the keys in order, the other one by the name a receipt gives itself. The first stops
where the second writes down a gap. Both take what each receipt says of itself, so they accept the same
receipts one by one, and in the end the same chains (`chains_agree`).

Receipts come in any order, so a recorded chain is put into the order of its hops before it is checked. But
a chunk that comes twice is one chunk, and a receipt that comes twice is two. Then there are more receipts
than hops, and a chain that was accepted is refused (`verifyChain_iff`).
-/
import DtnCustody.Agent.Chain
import DtnCustody.Agent.Dest
import DtnCustody.Agent.Path
import Mathlib.Data.List.Sort

namespace DtnCustody

open Base Js

namespace Receipt

variable {H : Host} {bundleId : JsonVal} {hop : PinnedHop} {r : Json}

/-! ## One receipt -/

/-- The receipt is signed by the key of the hop, for the bundle, in the name of the hop. -/
structure Attests (H : Host) (bundleId : JsonVal) (r : Json) (hop : PinnedHop) : Prop where
  verified : verifyRecord H (some r) = .ok (.ok (.str hop.pub))
  bundle : JsonVal.strictEq (r.get "bundleId") bundleId = true
  named : r.get "thisHop" = some (.str hop.eid)

/-- A signer is never a key that reads as missing. -/
theorem verifyRecord_truthy {signer : Json} (h : verifyRecord H (some r) = .ok (.ok signer)) :
    signer.truthy = true := by
  unfold verifyRecord at h
  dsimp only at h
  split at h
  · obtain ⟨id, -, h⟩ := Outcome.bind_eq_ok.mp h
    obtain ⟨claimed, -, h⟩ := Outcome.bind_eq_ok.mp h
    split at h
    · cases h
    · split at h
      · cases h
      · split at h
        · cases h
        · next hcred =>
          split at h
          · cases h
          · cases h
            exact Bool.eq_true_of_not_eq_false (not_or.mp hcred).1
  · cases h

theorem gapBefore_eq_nil {prev : JsonVal} : gapBefore prev r = [] ↔
    ¬ (isNotNull prev && !JsonVal.strictEq (r.get "prevHop") prev) = true := by
  unfold gapBefore
  split
  · next h => exact ⟨fun hnil => (by cases hnil), fun hnot => absurd h hnot⟩
  · next h => exact ⟨fun _ => h, fun _ => rfl⟩

theorem checkLink_passes {prev v : JsonVal} : Check.Passes (checkLink H bundleId prev hop r) v ↔
    Attests H bundleId r hop ∧ gapBefore prev r = [] ∧ v = some (.str hop.eid) := by
  rw [gapBefore_eq_nil]
  constructor
  · intro h
    obtain ⟨verdict, hverdict, h⟩ := Outcome.bind_eq_ok.mp h
    cases verdict with
    | fail reason => cases h
    | ok signer =>
        dsimp only at h
        split_ifs at h with hbundle hnamed hsigner hprev
        · cases h
        · cases h
        · cases h
        · cases h
        · cases h
          rw [Bool.not_eq_false] at hbundle hnamed hsigner
          have hname := JsonVal.eq_of_strictEq hnamed
          cases JsonVal.eq_of_strictEq hsigner
          exact ⟨⟨hverdict, hbundle, hname⟩, hprev, hname⟩
  · rintro ⟨h, hprev, rfl⟩
    have hself : ∀ s : JsString, JsonVal.strictEq (some (.str s)) (some (.str s)) = true := by
      simp [JsonVal.strictEq]
    unfold Check.Passes checkLink
    rw [h.verified, Outcome.ok_bind]
    dsimp only
    rw [h.bundle, h.named, hself, hself, if_neg (by decide), if_neg (by decide), if_neg (by decide),
      if_neg hprev]
    rfl

theorem checkReceipt_passes {o : AuditOptions} (hnamed : r.get "thisHop" = some (.str hop.eid))
    (hkey : o.keys hop.eid = .own (.str hop.pub)) :
    checkReceipt H o r = .ok none ↔ Attests H o.bundleId r hop := by
  constructor
  · intro h
    obtain ⟨signer, name, hverified, hbundle, hname, hpinned⟩ := checkReceipt_ok H h
    rw [hnamed] at hname
    obtain rfl : hop.eid = name := Except.ok.inj hname
    rw [hkey] at hpinned
    have hsigner := JsonVal.eq_of_strictEq hpinned
    cases hsigner
    exact ⟨hverified, hbundle, hnamed⟩
  · intro h
    have htruthy := verifyRecord_truthy h.verified
    unfold checkReceipt
    rw [h.verified, Outcome.ok_bind]
    dsimp only
    rw [h.bundle, h.named, if_neg (by decide)]
    show (do
      let name ← (.ok hop.eid : Outcome JsString)
      if (o.keys name).truthy = false then return some "custodian_not_pinned"
      else if (o.keys name).isKey (.str hop.pub) = false then return some "signer_not_pinned_hop_key"
      else return none : Outcome (Option String)) = .ok none
    rw [Outcome.ok_bind, hkey]
    simp [Pin.truthy, Pin.isKey, JsonVal.strictEq, htruthy]

/-! ## The loops -/

/-- The gaps in a list of receipts, after the custodian `prev`. -/
def gapsOf (prev : JsonVal) : List Json → List Gap
  | [] => []
  | r :: rest => gapBefore prev r ++ gapsOf (r.get "thisHop") rest

theorem auditFrom_iff {o : AuditOptions} (hlast : o.lastNode = .null) {rs : List Json} :
    ∀ {i : Nat} {prev : JsonVal} {gaps : List Gap} {n : Nat} {found : List Gap},
      auditFrom H o i prev gaps rs = .ok (.ok n found) ↔
        (∀ r ∈ rs, checkReceipt H o r = .ok none) ∧ n = i + rs.length ∧
          found = gaps ++ gapsOf prev rs := by
  induction rs with
  | nil =>
      intro i prev gaps n found
      rw [auditFrom, hlast]
      constructor
      · intro h
        cases h
        exact ⟨fun r hr => absurd hr List.not_mem_nil, rfl, (List.append_nil _).symm⟩
      · rintro ⟨-, rfl, rfl⟩
        exact congrArg (fun gaps => Except.ok (Audit.ok _ gaps)) (List.append_nil gaps).symm
  | cons r rest ih =>
      intro i prev gaps n found
      rw [auditFrom, List.forall_mem_cons, gapsOf, ← List.append_assoc, List.length_cons,
        show i + (rest.length + 1) = i + 1 + rest.length by omega]
      cases hcheck : checkReceipt H o r with
      | error e => exact ⟨fun h => (by cases h), fun h => (by cases h.1.1)⟩
      | ok verdict =>
          cases verdict with
          | some reason => exact ⟨fun h => (by cases h), fun h => (by cases h.1.1)⟩
          | none =>
              exact ih.trans ⟨fun h => ⟨⟨rfl, h.1⟩, h.2⟩, fun h => ⟨h.1.2, h.2⟩⟩

theorem checkLinks_iff {rs : List Json} : ∀ {hops : List PinnedHop} {before : List (Json × PinnedHop)}
    {prev : JsonVal}, rs.length = hops.length →
      ((∃ v, (checkLinks H bundleId before prev (rs.zip hops)).Passes v) ↔
        List.Forall₂ (Attests H bundleId) rs hops ∧ gapsOf prev rs = []) := by
  induction rs with
  | nil =>
      intro hops before prev hlen
      obtain rfl := List.eq_nil_of_length_eq_zero hlen.symm
      exact ⟨fun _ => ⟨List.Forall₂.nil, rfl⟩, fun _ => ⟨prev, rfl⟩⟩
  | cons r rest ih =>
      intro hops before prev hlen
      cases hops with
      | nil => cases hlen
      | cons hop hops =>
          rw [List.zip_cons_cons, List.forall₂_cons, gapsOf, List.append_eq_nil_iff]
          have hrest := fun before => @ih hops before (some (.str hop.eid)) (Nat.succ.inj hlen)
          unfold checkLinks at hrest ⊢
          rw [Check.loop]
          constructor
          · rintro ⟨v, hv⟩
            obtain ⟨custodian, hone, hv⟩ := Check.passes_andThen.mp hv
            rw [Check.passes_orRefuse] at hone
            obtain ⟨hattests, hprev, rfl⟩ := checkLink_passes.mp hone
            obtain ⟨hall, hgaps⟩ := (hrest _).mp ⟨v, hv⟩
            rw [hattests.named]
            exact ⟨⟨hattests, hall⟩, hprev, hgaps⟩
          · rintro ⟨⟨hattests, hall⟩, hprev, hgaps⟩
            rw [hattests.named] at hgaps
            obtain ⟨v, hv⟩ := (hrest (before ++ [(r, hop)])).mpr ⟨hall, hgaps⟩
            refine ⟨v, Check.passes_andThen.mpr ⟨_, ?_, hv⟩⟩
            rw [Check.passes_orRefuse]
            exact checkLink_passes.mpr ⟨hattests, hprev, rfl⟩

theorem attests_iff {o : AuditOptions} {rs : List Json} : ∀ {hops : List PinnedHop},
    (∀ h ∈ hops, o.keys h.eid = .own (.str h.pub)) →
      (List.Forall₂ (Attests H o.bundleId) rs hops ↔ (∀ r ∈ rs, checkReceipt H o r = .ok none) ∧
        rs.map (·.get "thisHop") = hops.map fun h => some (.str h.eid)) := by
  induction rs with
  | nil =>
      intro hops _
      rw [List.forall₂_nil_left_iff]
      refine ⟨fun h => ⟨fun r hr => absurd hr List.not_mem_nil, by rw [h]; rfl⟩, fun h => ?_⟩
      exact List.map_eq_nil_iff.mp h.2.symm
  | cons r rest ih =>
      intro hops hkeys
      cases hops with
      | nil => exact ⟨fun h => (by cases h), fun h => (by cases h.2)⟩
      | cons hop hops =>
          obtain ⟨hkey, hkeys⟩ := List.forall_mem_cons.mp hkeys
          rw [List.forall₂_cons, ih hkeys, List.forall_mem_cons, List.map_cons, List.map_cons,
            List.cons.injEq]
          constructor
          · rintro ⟨hattests, hall, hnames⟩
            exact ⟨⟨(checkReceipt_passes hattests.named hkey).mpr hattests, hall⟩, hattests.named, hnames⟩
          · rintro ⟨⟨hone, hall⟩, hnamed, hnames⟩
            exact ⟨(checkReceipt_passes hnamed hkey).mp hone, hall, hnames⟩

/-! ## The two checks -/

/-- `Object.fromEntries(hops.map((h) => [h.eid, h.pub]))`. -/
def keysOf (hops : List PinnedHop) : List (JsString × Json) :=
  Pin.fromEntries (hops.map fun h => (h.eid, .str h.pub))

theorem verifyCustodyChain_iff {rs : List Json} {hops : List PinnedHop} :
    (∃ n, verifyCustodyChain H (some (.arr rs)) bundleId hops = .ok (.ok n)) ↔
      rs ≠ [] ∧ List.Forall₂ (Attests H bundleId) rs hops ∧ gapsOf (some .null) rs = [] := by
  cases rs with
  | nil => exact ⟨fun ⟨_, h⟩ => (by cases h), fun h => absurd rfl h.1⟩
  | cons r rest =>
      by_cases hlen : (r :: rest).length = hops.length
      · rw [← @checkLinks_iff H bundleId _ _ [] _ hlen]
        show (∃ n, (if (r :: rest).length ≠ hops.length then _ else _) = _) ↔ _
        rw [if_neg (not_not.mpr hlen)]
        constructor
        · rintro ⟨n, h⟩
          obtain ⟨verdict, hverdict, h⟩ := Outcome.bind_eq_ok.mp h
          rcases verdict with ⟨reason, i⟩ | v
          · cases h
          · exact ⟨List.cons_ne_nil _ _, v, hverdict⟩
        · rintro ⟨-, v, hv⟩
          unfold Check.Passes at hv
          rw [hv]
          exact ⟨_, rfl⟩
      · constructor
        · rintro ⟨n, h⟩
          rw [verifyCustodyChain, if_pos hlen] at h
          · cases h
          · exact List.cons_ne_nil _ _
        · rintro ⟨-, hall, -⟩
          exact absurd hall.length_eq hlen

theorem auditCustodyChain_iff {rs : List Json} {o : AuditOptions} (hlast : o.lastNode = .null) :
    (∃ audit, auditCustodyChain H (some (.arr rs)) o = .ok audit ∧ audit.isComplete = true) ↔
      rs ≠ [] ∧ (∀ r ∈ rs, checkReceipt H o r = .ok none) ∧ gapsOf (some o.origin) rs = [] := by
  cases rs with
  | nil =>
      refine ⟨fun ⟨audit, h, hcomplete⟩ => ?_, fun h => absurd rfl h.1⟩
      cases h
      cases hcomplete
  | cons r rest =>
      show (∃ audit, auditFrom H o 0 (some o.origin) [] (r :: rest) = .ok audit ∧ _) ↔ _
      constructor
      · rintro ⟨audit, h, hcomplete⟩
        cases audit with
        | fail reason i => cases hcomplete
        | ok n gaps =>
            obtain ⟨hall, -, rfl⟩ := (auditFrom_iff hlast).mp h
            exact ⟨List.cons_ne_nil _ _, hall, List.isEmpty_iff.mp hcomplete⟩
      · rintro ⟨-, hall, hgaps⟩
        exact ⟨.ok _ [], (auditFrom_iff hlast).mpr ⟨hall, rfl, hgaps.symm⟩, rfl⟩

/-- **The strict check accepts what the audit finds complete**, if the receipts name the hops. -/
theorem chains_agree (H : Host) (rs : List Json) (bundleId : JsonVal) (hops : List PinnedHop)
    (hpins : ∀ h ∈ hops, ∀ h' ∈ hops, h.eid = h'.eid → h.pub = h'.pub) :
    (∃ n, verifyCustodyChain H (some (.arr rs)) bundleId hops = .ok (.ok n)) ↔
      (∃ audit, auditCustodyChain H (some (.arr rs))
          { bundleId, keys := Pin.find (keysOf hops) } = .ok audit ∧ audit.isComplete = true) ∧
        rs.map (·.get "thisHop") = hops.map fun h => some (.str h.eid) := by
  have hkey : ∀ h ∈ hops, Pin.find (keysOf hops) h.eid = .own (.str h.pub) := by
    intro h hmem
    refine Pin.find_fromEntries ?_ (List.mem_map_of_mem (f := fun h => (h.eid, Json.str h.pub)) hmem)
    simp only [List.forall_mem_map]
    exact fun h hh h' hh' heid => congrArg Json.str (hpins h hh h' hh' heid)
  rw [verifyCustodyChain_iff, auditCustodyChain_iff rfl,
    attests_iff (o := { bundleId, keys := Pin.find (keysOf hops) }) hkey]
  constructor
  · rintro ⟨hne, ⟨hall, hnames⟩, hgaps⟩
    exact ⟨⟨hne, hall, hgaps⟩, hnames⟩
  · rintro ⟨⟨hne, hall, hgaps⟩, hnames⟩
    exact ⟨hne, ⟨hall, hnames⟩, hgaps⟩

/-- One receipt, of a relay that is its own only hop. -/
def handedOn : Json :=
  match signRecord Path.sampleHost Path.sampleKey
      [(js "bundleId", .text "b"), (js "thisHop", .text "dtn://r/")] with
  | .ok v => v
  | .error _ => .null

theorem chains_agree_sample : ∃ n, verifyCustodyChain Path.sampleHost (some (.arr [handedOn]))
    (some (.text "b")) [⟨js "dtn://r/", Path.sampleKey.pub⟩] = .ok (.ok n) := by
  have hnamed : handedOn.get "thisHop" = some (.str (js "dtn://r/")) :=
    JsonVal.eq_of_strictEq (by decide +kernel)
  refine (chains_agree Path.sampleHost [handedOn] (some (.text "b"))
    [⟨js "dtn://r/", Path.sampleKey.pub⟩] ?_).mpr ⟨?_, congrArg (fun v => [v]) hnamed⟩
  · intro h hh h' hh' _
    rw [List.mem_singleton.mp hh, List.mem_singleton.mp hh']
  · have hcomplete : (auditCustodyChain Path.sampleHost (some (.arr [handedOn]))
        { bundleId := some (.text "b"), keys := Pin.find (keysOf
          [⟨js "dtn://r/", Path.sampleKey.pub⟩]) }).toOption.any Audit.isComplete = true := by
      decide +kernel
    cases haudit : auditCustodyChain Path.sampleHost (some (.arr [handedOn]))
        { bundleId := some (.text "b"), keys := Pin.find (keysOf
          [⟨js "dtn://r/", Path.sampleKey.pub⟩]) } with
    | error e =>
        rw [haudit] at hcomplete
        cases hcomplete
    | ok audit =>
        rw [haudit] at hcomplete
        exact ⟨audit, rfl, hcomplete⟩

end Receipt

end DtnCustody

namespace DtnCustody

open Base Js

namespace Dest

/-! ## The receipts of a destination -/

/-- `custody`: the receipts recorded for each bundle. -/
abbrev Recorded := JsMap JsString (List Json)

def recordCustody (m : Recorded) (bundleId : JsString) (receipt : Json) : Recorded :=
  m.set bundleId ((m.get? bundleId).getD [] ++ [receipt])

/-- A run of `recordCustody`. -/
def recordAll (calls : List (JsString × Json)) : Recorded :=
  calls.foldl (fun m c => recordCustody m c.1 c.2) JsMap.empty

/-- The receipts given for a bundle, as they came. -/
def givenFor (bundleId : JsString) (calls : List (JsString × Json)) : List Json :=
  (calls.filter fun c => c.1 = bundleId).map Prod.snd

theorem get?_recordAll (bundleId : JsString) (calls : List (JsString × Json)) :
    ((recordAll calls).get? bundleId).getD [] = givenFor bundleId calls := by
  induction calls using List.reverseRecOn with
  | nil => rfl
  | append_singleton calls c ih =>
      have hlast : recordAll (calls ++ [c]) = recordCustody (recordAll calls) c.1 c.2 := by
        rw [recordAll, List.foldl_append]
        rfl
      rw [hlast, givenFor, List.filter_append, List.map_append, ← givenFor, ← ih]
      by_cases hc : c.1 = bundleId
      · subst hc
        rw [recordCustody, JsMap.get?_set_self, List.filter_cons_of_pos (by simp)]
        rfl
      · rw [recordCustody, JsMap.get?_set_ne _ (Ne.symm hc),
          List.filter_cons_of_neg (by simpa using hc), List.filter_nil, List.map_nil, List.append_nil]

/-! ## The order of the hops -/

/-- `new Map(pinnedHops.map((h, i) => [h.eid, i]))`. -/
def orderOf (hops : List PinnedHop) : JsMap JsString Nat :=
  JsMap.ofList (hops.zipIdx.map fun p => (p.1.eid, p.2))

/-- `order.get(r.thisHop) ?? 99`. -/
def rank (hops : List PinnedHop) (r : Json) : Nat :=
  match r.get "thisHop" with
  | some (.str eid) => ((orderOf hops).get? eid).getD 99
  | _ => 99

/-- `receipts.sort(…)`. Two receipts or more are compared, and then `null` has no `thisHop`. -/
def sortByHop (hops : List PinnedHop) (rs : List Json) : Outcome (List Json) :=
  if 2 ≤ rs.length ∧ rs.any (fun r => !Receipt.isNotNull (some r)) then .error .typeError
  else .ok (rs.insertionSort fun r s => rank hops r ≤ rank hops s)

variable (H : Host)

/-- `verifyChain(bundleId)`. -/
def verifyChain (m : Recorded) (hops : List PinnedHop) (bundleId : JsString) : Outcome ChainVerdict := do
  let sorted ← sortByHop hops ((m.get? bundleId).getD [])
  Receipt.verifyCustodyChain H (some (.arr sorted)) (some (.str bundleId)) hops

variable {H}

theorem get?_orderOf {hops : List PinnedHop} (hdistinct : (hops.map PinnedHop.eid).Nodup) {i : Nat}
    {h : PinnedHop} (hi : hops[i]? = some h) : (orderOf hops).get? h.eid = some i := by
  have hkeys : ((hops.zipIdx.map fun p => (p.1.eid, p.2)).map Prod.fst).Nodup := by
    have hfst : (hops.zipIdx.map fun p => (p.1.eid, p.2)).map Prod.fst = hops.map PinnedHop.eid := by
      rw [List.map_map, ← List.zipIdx_map_fst 0 hops, List.map_map, List.zipIdx_map_fst]
      rfl
    rw [hfst]
    exact hdistinct
  rw [← JsMap.mem_entries_iff, orderOf, JsMap.entries_ofList hkeys]
  exact List.mem_map.mpr ⟨(h, i), List.mk_mem_zipIdx_iff_getElem?.mpr hi, rfl⟩

theorem rank_of_named {hops : List PinnedHop} (hdistinct : (hops.map PinnedHop.eid).Nodup) {i : Nat}
    {h : PinnedHop} (hi : hops[i]? = some h) {r : Json} (hr : r.get "thisHop" = some (.str h.eid)) :
    rank hops r = i := by
  rw [rank, hr]
  dsimp only
  rw [get?_orderOf hdistinct hi, Option.getD_some]

/-! ## Genuine receipts -/

/-- The receipt that the custodian of a hop signs for a bundle that it had from `prev`. -/
def Genuine (H : Host) (bundleId : JsString) (prev : Json) (hop : PinnedHop) (r : Json) : Prop :=
  ∃ kp o, Receipt.Signs H kp ∧ kp.pub = hop.pub ∧ o.bundleId = .str bundleId ∧ o.prevHop = prev ∧
    o.thisHop = .str hop.eid ∧ Receipt.custodyReceipt H kp o = .ok r

/-- One genuine receipt for each hop, after `prev`. -/
def GenuineChain (H : Host) (bundleId : JsString) (prev : Json) : List PinnedHop → List Json → Prop
  | [], rs => rs = []
  | hop :: hops, rs => ∃ r rest, rs = r :: rest ∧ Genuine H bundleId prev hop r ∧
      GenuineChain H bundleId (.str hop.eid) hops rest

theorem Genuine.attests {bundleId : JsString} {prev : Json} {hop : PinnedHop} {r : Json}
    (h : Genuine H bundleId prev hop r) : Receipt.Attests H (some (.str bundleId)) r hop ∧
      r.get "prevHop" = some prev ∧ Receipt.isNotNull (some r) = true := by
  obtain ⟨kp, o, hsigns, hpub, hbundle, rfl, hnamed, hr⟩ := h
  have hshows := Receipt.shows_custodyReceipt hr
  refine ⟨⟨?_, ?_, hnamed ▸ hshows.thisHop⟩, hshows.prevHop, ?_⟩
  · rw [← hpub]
    exact Receipt.verifyRecord_custodyReceipt hsigns hr
  · rw [hshows.bundleId, hbundle]
    simp [JsonVal.strictEq]
  · cases r with
    | null => cases hshows.kind
    | _ => rfl

/-- What the chain of genuine receipts has, one by one and after each other. -/
theorem GenuineChain.attests {bundleId : JsString} {hops : List PinnedHop} : ∀ {prev : Json}
    {rs : List Json}, GenuineChain H bundleId prev hops rs →
      List.Forall₂ (Receipt.Attests H (some (.str bundleId))) rs hops ∧
        (∀ r ∈ rs, Receipt.isNotNull (some r) = true) ∧
          (∀ eid, prev = .str eid → Receipt.gapsOf (some prev) rs = []) ∧
            Receipt.gapsOf (some .null) rs = [] := by
  induction hops with
  | nil =>
      rintro prev rs rfl
      exact ⟨List.Forall₂.nil, fun r hr => absurd hr List.not_mem_nil, fun _ _ => rfl, rfl⟩
  | cons hop hops ih =>
      rintro prev _ ⟨r, rest, rfl, hr, hrest⟩
      obtain ⟨hattests, hprev, hobject⟩ := hr.attests
      obtain ⟨hall, hobjects, hgaps, -⟩ := ih hrest
      have htail : Receipt.gapsOf (r.get "thisHop") rest = [] := by
        rw [hattests.named]
        exact hgaps hop.eid rfl
      refine ⟨List.Forall₂.cons hattests hall, List.forall_mem_cons.mpr ⟨hobject, hobjects⟩, ?_, ?_⟩
      · rintro eid rfl
        have hnone : Receipt.gapBefore (some (.str eid)) r = [] := by
          rw [Receipt.gapBefore_eq_nil, hprev]
          simp [JsonVal.strictEq]
        rw [Receipt.gapsOf, hnone, htail, List.append_nil]
      · rw [Receipt.gapsOf, htail, List.append_nil]
        rfl

/-! ## The verdict -/

variable {bundleId : JsString} {prev : Json} {hops : List PinnedHop} {receipts : List Json}

/-- The receipts of a chain are in the order of the hops, and there is one for each. -/
theorem GenuineChain.sorted (h : GenuineChain H bundleId prev hops receipts)
    (hdistinct : (hops.map PinnedHop.eid).Nodup) :
    receipts.Pairwise fun r s => rank hops r < rank hops s := by
  have hall := h.attests.1
  have hlen := hall.length_eq
  have hrank : ∀ i (hi : i < receipts.length), rank hops receipts[i] = i := fun i hi =>
    rank_of_named hdistinct (List.getElem?_eq_getElem (hlen ▸ hi)) (hall.get hi (hlen ▸ hi)).named
  rw [List.pairwise_iff_getElem]
  intro i j hi hj hij
  rw [hrank i hi, hrank j hj]
  exact hij

theorem GenuineChain.nodup (h : GenuineChain H bundleId prev hops receipts)
    (hdistinct : (hops.map PinnedHop.eid).Nodup) : receipts.Nodup :=
  (h.sorted hdistinct).imp fun hlt heq => absurd (heq ▸ hlt) (lt_irrefl _)

theorem GenuineChain.eq_of_rank (h : GenuineChain H bundleId prev hops receipts)
    (hdistinct : (hops.map PinnedHop.eid).Nodup) {r s : Json} (hr : r ∈ receipts) (hs : s ∈ receipts)
    (hrank : rank hops r = rank hops s) : r = s :=
  List.Pairwise.forall_of_forall_of_flip (R := fun r s => rank hops r = rank hops s → r = s)
    (fun _ _ _ => rfl) ((h.sorted hdistinct).imp fun hlt heq => absurd heq hlt.ne)
    ((h.sorted hdistinct).imp fun hlt heq => absurd heq hlt.ne') hr hs hrank

/-- Any order of the receipts is put right. -/
theorem GenuineChain.sortByHop (h : GenuineChain H bundleId prev hops receipts)
    (hdistinct : (hops.map PinnedHop.eid).Nodup) {rs : List Json} (hperm : rs.Perm receipts) :
    sortByHop hops rs = .ok receipts := by
  have hobjects : rs.any (fun r => !Receipt.isNotNull (some r)) = false := by
    rw [List.any_eq_false]
    intro r hr
    rw [h.attests.2.1 r (hperm.mem_iff.mp hr)]
    decide
  have hsort : rs.insertionSort (fun r s => rank hops r ≤ rank hops s) = receipts := by
    refine List.Perm.eq_of_pairwise (fun r s hr hs hrs hsr => ?_) (List.pairwise_insertionSort _ rs)
      ((h.sorted hdistinct).imp le_of_lt) ((List.perm_insertionSort _ rs).trans hperm)
    rw [List.mem_insertionSort, hperm.mem_iff] at hr
    exact h.eq_of_rank hdistinct hr hs (le_antisymm hrs hsr)
  rw [Dest.sortByHop, hobjects, if_neg (by simp), hsort]

/-- **A chain is accepted when every receipt was recorded once**, in any order, and only then. -/
theorem verifyChain_iff (H : Host) (bundleId : JsString) (hops : List PinnedHop)
    (hdistinct : (hops.map PinnedHop.eid).Nodup) (prev : Json) (receipts : List Json)
    (hgenuine : GenuineChain H bundleId prev hops receipts) (calls : List (JsString × Json))
    (hgiven : ∀ r, r ∈ givenFor bundleId calls ↔ r ∈ receipts) :
    (∃ n, verifyChain H (recordAll calls) hops bundleId = .ok (.ok n)) ↔
      hops ≠ [] ∧ (givenFor bundleId calls).Nodup := by
  obtain ⟨hall, -, -, hgaps⟩ := hgenuine.attests
  have hne : receipts ≠ [] ↔ hops ≠ [] := by
    rw [← List.length_pos_iff, ← List.length_pos_iff, hall.length_eq]
  unfold verifyChain
  rw [get?_recordAll]
  constructor
  · rintro ⟨n, h⟩
    obtain ⟨sorted, hsorted, h⟩ := Outcome.bind_eq_ok.mp h
    obtain ⟨hsome, hverified, -⟩ := Receipt.verifyCustodyChain_iff.mp ⟨n, h⟩
    have hperm : sorted.Perm (givenFor bundleId calls) := by
      unfold Dest.sortByHop at hsorted
      split at hsorted
      · cases hsorted
      · cases hsorted
        exact List.perm_insertionSort _ _
    have hlen : (givenFor bundleId calls).length ≤ receipts.length := by
      rw [← hperm.length_eq, hverified.length_eq, hall.length_eq]
    have hsub := List.subperm_of_subset (hgenuine.nodup hdistinct) fun r hr => (hgiven r).mpr hr
    have hsame := hsub.perm_of_length_le hlen
    refine ⟨?_, hsame.nodup_iff.mp (hgenuine.nodup hdistinct)⟩
    rw [← List.length_pos_iff, ← hverified.length_eq]
    exact List.length_pos_iff.mpr hsome
  · rintro ⟨hsome, hnodup⟩
    have hperm : (givenFor bundleId calls).Perm receipts :=
      (List.perm_ext_iff_of_nodup hnodup (hgenuine.nodup hdistinct)).mpr hgiven
    rw [hgenuine.sortByHop hdistinct hperm, Outcome.ok_bind]
    exact Receipt.verifyCustodyChain_iff.mpr ⟨hne.mpr hsome, hall, hgaps⟩

/-! ## A receipt that comes twice -/

def soleHop : PinnedHop := ⟨js "dtn://r/", Path.sampleKey.pub⟩

def soleHandover : Handover := ⟨.text "p", .text "b", .text "dtn://s/", .text "dtn://r/", .int 1, .int 2⟩

/-- The receipt of the only relay between a source and a destination. -/
theorem exists_soleReceipt : ∃ r, GenuineChain Path.sampleHost (js "b") (.text "dtn://s/") [soleHop] [r] := by
  obtain ⟨r, hr⟩ := Outcome.exists_ok (x := Receipt.custodyReceipt Path.sampleHost Path.sampleKey soleHandover)
    (by decide +kernel)
  exact ⟨r, r, [], rfl, ⟨_, soleHandover, Path.sampleKey_signs rfl rfl, rfl, rfl, rfl, rfl, hr⟩, rfl⟩

/-- Recorded once it is accepted, and recorded twice it is not. -/
theorem verifyChain_sample : ∃ r,
    (∃ n, verifyChain Path.sampleHost (recordAll [(js "b", r)]) [soleHop] (js "b") = .ok (.ok n)) ∧
      ¬ ∃ n, verifyChain Path.sampleHost (recordAll [(js "b", r), (js "b", r)]) [soleHop] (js "b") =
        .ok (.ok n) := by
  obtain ⟨r, hr⟩ := exists_soleReceipt
  have hdistinct : ([soleHop].map PinnedHop.eid).Nodup := List.nodup_singleton _
  refine ⟨r, ?_, ?_⟩
  · exact (verifyChain_iff Path.sampleHost (js "b") [soleHop] hdistinct _ [r] hr [(js "b", r)]
      (fun s => by simp [givenFor])).mpr ⟨List.cons_ne_nil _ _, by simp [givenFor]⟩
  · rw [verifyChain_iff Path.sampleHost (js "b") [soleHop] hdistinct _ [r] hr [(js "b", r), (js "b", r)]
      (fun s => by simp [givenFor])]
    simp [givenFor]

/-- **A receipt that comes twice spoils its chain.** -/
theorem repeated_refused : ∃ H bundleId hops prev receipts calls,
    (hops.map PinnedHop.eid).Nodup ∧ hops ≠ [] ∧ GenuineChain H bundleId prev hops receipts ∧
      (∀ r, r ∈ givenFor bundleId calls ↔ r ∈ receipts) ∧
        ¬ ∃ n, verifyChain H (recordAll calls) hops bundleId = .ok (.ok n) := by
  obtain ⟨r, hr⟩ := exists_soleReceipt
  refine ⟨Path.sampleHost, js "b", [soleHop], _, [r], [(js "b", r), (js "b", r)], List.nodup_singleton _,
    List.cons_ne_nil _ _, hr, fun s => by simp [givenFor], ?_⟩
  rintro ⟨n, h⟩
  obtain ⟨sorted, hsorted, h⟩ := Outcome.bind_eq_ok.mp h
  obtain ⟨-, hverified, -⟩ := Receipt.verifyCustodyChain_iff.mp ⟨n, h⟩
  rw [get?_recordAll] at hsorted
  have hlen : sorted.length = 2 := by
    unfold sortByHop at hsorted
    split at hsorted
    · cases hsorted
    · cases hsorted
      exact List.length_insertionSort _ _
  have hone := hverified.length_eq
  rw [hlen] at hone
  cases hone

end Dest

end DtnCustody
