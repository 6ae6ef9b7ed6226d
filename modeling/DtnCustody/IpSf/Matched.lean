/-
# DtnCustody.IpSf.Matched — when the batch receipts say what the log says.

An arrival is covered by a receipt of its node that names the sending end of its link, the up period in which the
packet was sent, and times around it. The link is kept once for a packet and a node, the up period is looked up by
the time of landing, and the times are rounded. So the receipts match the log exactly when every packet comes to a
node over one link, lands there in the up period it was sent in, and the rounded times of the group enclose it
(`receipts_match_iff`). A packet that comes round a second time is signed for over the wrong link, one that lands
after an outage began under no up period (`receipts_differ`).
-/
import DtnCustody.IpSf.Receipts

namespace DtnCustody.IpSf

open Base Js

/-! ## Receipts that match a log -/

section Match

variable (ends : JsMap JsString LinkEnds) (ups : JsMap JsString (List Period))

/-- The packet was sent in this up period of its link. -/
def SentIn (a : Arrival) (w : Nat) : Prop :=
  ∃ periods p, ups.get? a.link = some periods ∧ periods[w]? = some p ∧ p.1 ≤ a.sentAt ∧ a.sentAt ≤ p.2

/-- The receipt covers the arrival, with this up period for its contact. -/
structure Covers (a : Arrival) (w : Nat) (b : Batch.Made) : Prop where
  leaf : a.packet ∈ b.leaves
  thisHop : b.receipt.get "thisHop" = some (.str a.node)
  prevHop : ∃ e, ends.get? a.link = some e ∧ b.receipt.get "prevHop" = e.source.map .str
  contact : b.receipt.get "contactId" = some (.str (contactId a.link w))
  sent : SentIn ups a w
  times : ∃ lo hi : Int, b.receipt.get "from" = some (.int lo) ∧ b.receipt.get "to" = some (.int hi) ∧
    lo ≤ a.t ∧ a.t ≤ hi

/-- Every arrival is covered by exactly one receipt, and only what a node took in is covered. -/
structure Matched (steps : List Step) (bs : List Batch.Made) : Prop where
  once : ∀ a ∈ arrivals steps, ∃! k : Nat, ∃ w b, bs[k]? = some b ∧ Covers ends ups a w b
  taken : ∀ b ∈ bs, ∀ id ∈ b.leaves, ∃ a ∈ arrivals steps,
    a.packet = id ∧ b.receipt.get "thisHop" = some (.str a.node)

/-- The up period in which the packet was sent is one that it landed in at the node, and the arrivals signed for with
it round to times around this one. -/
structure Fits (all : List Arrival) (a : Arrival) (w : Nat) : Prop where
  sent : SentIn ups a w
  lands : ∃ x ∈ all, x.packet = a.packet ∧ x.node = a.node ∧ windowOf ups a.link x.t = .ok (w : Int)
  opens : ∃ x ∈ all, (x.node = a.node ∧ x.link = a.link ∧ windowOf ups a.link x.t = .ok (w : Int)) ∧
    mathRound x.t ≤ a.t
  closes : ∃ x ∈ all, (x.node = a.node ∧ x.link = a.link ∧ windowOf ups a.link x.t = .ok (w : Int)) ∧
    a.t ≤ mathRound x.t

/-- The packet comes to the node over one link only, and in one up period that fits. -/
structure Sound (all : List Arrival) (a : Arrival) : Prop where
  one_link : ∀ x ∈ all, packetKey x.packet x.node = packetKey a.packet a.node → x.link = a.link
  one_window : ∃! w, Fits ups all a w

end Match

/-- The receipts are made, and match the log. -/
def ReceiptsMatch (H : Host) (keyOf : JsString → AgentKey) (g : Graph) (events : List NetworkEvent)
    (log : ReplayLog) : Prop :=
  ∃ bs, batches H keyOf g events log = .ok bs ∧
    Matched (linkEnds g) (upPeriods g events log.steps) log.steps bs

/-- Groups of different nodes or links have different keys. -/
def KeysApart (all : List Arrival) : Prop :=
  ∀ a ∈ all, ∀ a' ∈ all, ∀ b ∈ all, ∀ b' ∈ all, ∀ w w',
    groupKey a.node b.link w = groupKey a'.node b'.link w' → a.node = a'.node ∧ b.link = b'.link

/-- Nodes without a bar in their ids. -/
theorem keysApart_of_plain {all : List Arrival} (h : ∀ a ∈ all, 124 ∉ a.node) : KeysApart all :=
  fun a ha a' ha' _ _ _ _ _ _ => groupKey_inj_of_plain (h a ha) (h a' ha')

/-! ## A run of the program -/

section Run

variable {H : Host} {keyOf : JsString → AgentKey} {ends : JsMap JsString LinkEnds}
  {ups : JsMap JsString (List Period)} {steps : List Step} {hs : List Located} {bs : List Batch.Made}

/-- The arrivals were placed, and the groups signed for. -/
structure Ran (H : Host) (keyOf : JsString → AgentKey) (ends : JsMap JsString LinkEnds)
    (ups : JsMap JsString (List Period)) (steps : List Step) (hs : List Located) (bs : List Batch.Made) : Prop where
  located : (walk steps).hops.mapM ((walk steps).locate ups) = .ok hs
  signed : (Gather.gather Located.key Group.new Group.put hs).values.mapM (Group.batch H keyOf ends) = .ok bs

theorem batches_ok {g : Graph} {events : List NetworkEvent} {log : ReplayLog} :
    batches H keyOf g events log = .ok bs ↔
      ∃ hs, Ran H keyOf (linkEnds g) (upPeriods g events log.steps) log.steps hs bs := by
  rw [batches, groups_eq]
  constructor
  · intro h
    obtain ⟨groups, hgroups, h⟩ := Outcome.bind_eq_ok.mp h
    obtain ⟨hs, hlocated, hgather⟩ := Outcome.bind_eq_ok.mp hgroups
    cases hgather
    exact ⟨hs, hlocated, h⟩
  · rintro ⟨hs, hlocated, hsigned⟩
    rw [hlocated]
    exact hsigned

/-- The nodes and the links of placed arrivals are those of arrivals. -/
theorem Ran.mem (h : Ran H keyOf ends ups steps hs bs) {x : Located} (hx : x ∈ hs) :
    (∃ a ∈ arrivals steps, x.node = a.node) ∧ ∃ a ∈ arrivals steps, x.link = a.link := by
  obtain ⟨a, ha, his⟩ := (located_of_mapM h.located).1 x hx
  obtain ⟨b, hb, -, hlink⟩ := inboundLink_mem his.link
  exact ⟨⟨a, ha, his.node⟩, b, hb, hlink.symm⟩

/-- Placed arrivals with one key have one node, link and window. -/
theorem Ran.key_inj (h : Ran H keyOf ends ups steps hs bs) (hkeys : KeysApart (arrivals steps)) {x y : Located}
    (hx : x ∈ hs) (hy : y ∈ hs) (hkey : x.key = y.key) : x.node = y.node ∧ x.link = y.link ∧ x.w = y.w := by
  obtain ⟨⟨a, ha, hxa⟩, b, hb, hxb⟩ := h.mem hx
  obtain ⟨⟨a', ha', hya⟩, b', hb', hyb⟩ := h.mem hy
  have hparts : groupKey a.node b.link x.w = groupKey a'.node b'.link y.w := by
    rw [← hxa, ← hxb, ← hya, ← hyb]
    exact hkey
  obtain ⟨hnode, hlink⟩ := hkeys a ha a' ha' b hb b' hb' _ _ hparts
  rw [hnode, hlink] at hparts
  exact ⟨hxa.trans (hnode.trans hya.symm), hxb.trans (hlink.trans hyb.symm), groupKey_inj hparts⟩

/-- **The group under a key** is of the placed arrivals with its node, link and window. -/
theorem Ran.group (h : Ran H keyOf ends ups steps hs bs) (hkeys : KeysApart (arrivals steps)) {k : JsString}
    {g : Group} (hg : (Gather.gather Located.key Group.new Group.put hs).get? k = some g) :
    k = groupKey g.node g.link g.w ∧
      g.Of (hs.filter fun x => x.node = g.node ∧ x.link = g.link ∧ x.w = g.w) := by
  have hof := group_of_get? hg
  obtain ⟨x, hx, hnode, hlink, hw⟩ := hof.head
  obtain ⟨hmem, hkey⟩ := List.mem_filter.mp hx
  have hkey : x.key = k := of_decide_eq_true hkey
  have hfilter : (hs.filter fun y => y.key = k) =
      hs.filter fun y => y.node = g.node ∧ y.link = g.link ∧ y.w = g.w := by
    refine List.filter_congr fun y hy => decide_eq_decide.mpr ⟨fun hyk => ?_, ?_⟩
    · obtain ⟨hn, hl, hw'⟩ := h.key_inj hkeys hy hmem (hyk.trans hkey.symm)
      exact ⟨hn.trans hnode, hl.trans hlink, hw'.trans hw⟩
    · rintro ⟨hn, hl, hw'⟩
      rw [← hkey, Located.key, Located.key, hn, hl, hw', hnode, hlink, hw]
  refine ⟨?_, hfilter ▸ hof⟩
  rw [← hkey, Located.key, hnode, hlink, hw]

/-- A group is signed for at its place. -/
theorem Ran.signed_at (h : Ran H keyOf ends ups steps hs bs) {k : Nat} {e : JsString × Group}
    (he : (Gather.gather Located.key Group.new Group.put hs).entries[k]? = some e) :
    ∃ b, bs[k]? = some b ∧ Signed ends e.2 b := by
  have hvalue : (Gather.gather Located.key Group.new Group.put hs).values[k]? = some e.2 := by
    rw [JsMap.values, List.getElem?_map, he]
    rfl
  obtain ⟨b, hb, hbatch⟩ := Outcome.getElem?_of_mapM h.signed hvalue
  exact ⟨b, hb, signed_of_batch hbatch⟩

/-- **The receipts are those of the groups**, in their order. -/
theorem Ran.receipt (h : Ran H keyOf ends ups steps hs bs) (hkeys : KeysApart (arrivals steps)) {k : Nat}
    {b : Batch.Made} (hb : bs[k]? = some b) : ∃ g,
      (Gather.gather Located.key Group.new Group.put hs).entries[k]? = some (groupKey g.node g.link g.w, g) ∧
      g.Of (hs.filter fun x => x.node = g.node ∧ x.link = g.link ∧ x.w = g.w) ∧ Signed ends g b := by
  have hlength := (Outcome.mapM_eq_ok h.signed).length_eq
  obtain ⟨hk, -⟩ := List.getElem?_eq_some_iff.mp hb
  rw [JsMap.values, List.length_map] at hlength
  obtain ⟨⟨key, g⟩, hentry⟩ : ∃ e, (Gather.gather Located.key Group.new Group.put hs).entries[k]? = some e :=
    ⟨_, List.getElem?_eq_getElem (hlength ▸ hk)⟩
  obtain ⟨b', hb', hsigned⟩ := h.signed_at hentry
  cases hb.symm.trans hb'
  obtain ⟨rfl, hof⟩ := h.group hkeys (JsMap.mem_entries_iff.mp (List.mem_of_getElem? hentry))
  exact ⟨g, hentry, hof, hsigned⟩

/-! ## Covered arrivals -/

theorem int_inj {y z : Int} (h : Json.int y = Json.int z) : y = z := by
  rw [Json.int, Json.int, Json.num.injEq, JsNum.fin.injEq] at h
  exact Int.cast_injective h

/-- The group of a receipt that covers an arrival. -/
theorem Ran.covers (h : Ran H keyOf ends ups steps hs bs) (hkeys : KeysApart (arrivals steps)) {a : Arrival}
    {w k : Nat} {b : Batch.Made} (hb : bs[k]? = some b) (hc : Covers ends ups a w b) : ∃ g,
      (Gather.gather Located.key Group.new Group.put hs).entries[k]? = some (groupKey a.node a.link w, g) ∧
      g.Of (hs.filter fun x => x.node = a.node ∧ x.link = a.link ∧ x.w = w) ∧ Signed ends g b := by
  obtain ⟨g, hentry, hof, hsigned⟩ := h.receipt hkeys hb
  have hnode : g.node = a.node := by
    have hboth := hsigned.thisHop.symm.trans hc.thisHop
    rw [Option.some.injEq, Json.str.injEq] at hboth
    exact hboth
  have hcontact : contactId g.link g.w = contactId a.link w := by
    have hboth := hsigned.contactId.symm.trans hc.contact
    rw [Option.some.injEq, Json.str.injEq] at hboth
    exact hboth
  obtain ⟨hlink, hw⟩ := contactId_inj hcontact
  rw [hnode, hlink, hw] at hentry hof
  exact ⟨g, hentry, hof, hsigned⟩

/-- An arrival is covered by no two receipts that name one contact. -/
theorem Ran.index_eq (h : Ran H keyOf ends ups steps hs bs) (hkeys : KeysApart (arrivals steps)) {a : Arrival}
    {w k k' : Nat} {b b' : Batch.Made} (hb : bs[k]? = some b) (hb' : bs[k']? = some b')
    (hc : Covers ends ups a w b) (hc' : Covers ends ups a w b') : k = k' := by
  obtain ⟨g, hentry, -, -⟩ := h.covers hkeys hb hc
  obtain ⟨g', hentry', -, -⟩ := h.covers hkeys hb' hc'
  have hkey : ((Gather.gather Located.key Group.new Group.put hs).entries.map Prod.fst)[k]? =
      some (groupKey a.node a.link w) := by
    rw [List.getElem?_map, hentry]
    rfl
  have hkey' : ((Gather.gather Located.key Group.new Group.put hs).entries.map Prod.fst)[k']? =
      some (groupKey a.node a.link w) := by
    rw [List.getElem?_map, hentry']
    rfl
  obtain ⟨hlt, -⟩ := List.getElem?_eq_some_iff.mp hkey
  exact (List.getElem?_inj hlt (Gather.gather Located.key Group.new Group.put hs).nodup).mp (hkey.trans hkey'.symm)

/-- A packet that is signed for under a link has this link kept for it at the node. -/
theorem Ran.landed (h : Ran H keyOf ends ups steps hs bs) (hkeys : KeysApart (arrivals steps)) {a : Arrival}
    {w k : Nat} {b : Batch.Made} (hb : bs[k]? = some b) (hc : Covers ends ups a w b) :
    (walk steps).inboundLink.get? (packetKey a.packet a.node) = some a.link ∧
      ∃ x ∈ arrivals steps, x.packet = a.packet ∧ x.node = a.node ∧ windowOf ups a.link x.t = .ok (w : Int) := by
  obtain ⟨g, -, hof, hsigned⟩ := h.covers hkeys hb hc
  have hleaf := (hsigned.leaves a.packet).mp hc.leaf
  rw [hof.ids_eq] at hleaf
  obtain ⟨y, hy, hpacket⟩ := List.mem_map.mp hleaf
  obtain ⟨hmem, hplace⟩ := List.mem_filter.mp hy
  obtain ⟨hnode, hlink, hw⟩ := of_decide_eq_true hplace
  obtain ⟨x, hx, his⟩ := (located_of_mapM h.located).1 y hmem
  have hxp : x.packet = a.packet := his.packet.symm.trans hpacket
  have hxn : x.node = a.node := his.node.symm.trans hnode
  refine ⟨?_, x, hx, hxp, hxn, ?_⟩
  · rw [← hxp, ← hxn, his.link, hlink]
  · rw [← hlink, his.w, hw]

/-- Each arrival has its own link kept for it. -/
def LinksKept (steps : List Step) : Prop :=
  ∀ a ∈ arrivals steps, (walk steps).inboundLink.get? (packetKey a.packet a.node) = some a.link

/-- The arrivals that a group was made of. -/
theorem Ran.mem_group (h : Ran H keyOf ends ups steps hs bs) (hlinks : LinksKept steps) {node link : JsString}
    {w : Int} {t : ℚ} : (∃ y ∈ hs.filter fun x => x.node = node ∧ x.link = link ∧ x.w = w, y.t = t) ↔
      ∃ x ∈ arrivals steps, (x.node = node ∧ x.link = link ∧ windowOf ups link x.t = .ok w) ∧ x.t = t := by
  constructor
  · rintro ⟨y, hy, rfl⟩
    obtain ⟨hmem, hplace⟩ := List.mem_filter.mp hy
    obtain ⟨hnode, hlink, hw⟩ := of_decide_eq_true hplace
    obtain ⟨x, hx, his⟩ := (located_of_mapM h.located).1 y hmem
    have hxl : x.link = y.link := Option.some.inj ((hlinks x hx).symm.trans his.link)
    refine ⟨x, hx, ⟨his.node.symm.trans hnode, hxl.trans hlink, ?_⟩, his.t.symm⟩
    rw [← hlink, his.w, hw]
  · rintro ⟨x, hx, ⟨hnode, hlink, hw⟩, rfl⟩
    obtain ⟨y, hy, his⟩ := (located_of_mapM h.located).2 x hx
    have hyl : y.link = link := (Option.some.inj (his.link.symm.trans (hlinks x hx))).trans hlink
    have hyw : y.w = w := by
      have hboth := his.w
      rw [hyl, hw] at hboth
      exact (Except.ok.inj hboth).symm
    exact ⟨y, List.mem_filter.mpr ⟨hy, decide_eq_true ⟨his.node.trans hnode, hyl, hyw⟩⟩, his.t⟩

/-- **A covered arrival fits** the up period that its receipt names. -/
theorem Ran.fits (h : Ran H keyOf ends ups steps hs bs) (hkeys : KeysApart (arrivals steps))
    (hlinks : LinksKept steps) {a : Arrival} {w k : Nat} {b : Batch.Made} (hb : bs[k]? = some b)
    (hc : Covers ends ups a w b) : Fits ups (arrivals steps) a w := by
  obtain ⟨g, -, hof, hsigned⟩ := h.covers hkeys hb hc
  obtain ⟨lo, hi, hlo, hhi, hle, hge⟩ := hc.times
  have hfirst : mathRound g.first = lo := by
    have hboth := hsigned.fromTime.symm.trans hlo
    exact int_inj (Option.some.inj hboth)
  have hlast : mathRound g.last = hi := by
    have hboth := hsigned.toTime.symm.trans hhi
    exact int_inj (Option.some.inj hboth)
  obtain ⟨x, hx, hplace, hxt⟩ := (h.mem_group hlinks).mp hof.first_mem
  obtain ⟨y, hy, hplace', hyt⟩ := (h.mem_group hlinks).mp hof.last_mem
  refine ⟨hc.sent, (h.landed hkeys hb hc).2, ⟨x, hx, hplace, ?_⟩, ⟨y, hy, hplace', ?_⟩⟩
  · rw [hxt, hfirst]
    exact hle
  · rw [hyt, hlast]
    exact hge

/-- **An arrival that fits an up period is covered** by a receipt that names it. -/
theorem Ran.covered (h : Ran H keyOf ends ups steps hs bs) (hkeys : KeysApart (arrivals steps))
    (hlinks : LinksKept steps) {a : Arrival} (ha : a ∈ arrivals steps) {w : Nat}
    (hfits : Fits ups (arrivals steps) a w) : ∃ (k : Nat) (b : Batch.Made), bs[k]? = some b ∧ Covers ends ups a w b := by
  obtain ⟨x, hx, hpacket, hnode, hwindow⟩ := hfits.lands
  obtain ⟨y, hy, his⟩ := (located_of_mapM h.located).2 x hx
  have hlink : y.link = a.link := by
    have hkept := his.link
    rw [hpacket, hnode, hlinks a ha] at hkept
    exact (Option.some.inj hkept).symm
  have hw : y.w = w := by
    have hboth := his.w
    rw [hlink, hwindow] at hboth
    exact (Except.ok.inj hboth).symm
  -- The receipt of the group that it was put into.
  obtain ⟨g, hg⟩ := Option.isSome_iff_exists.mp
    (@Gather.get?_gather_isSome Located JsString Group _ Located.key Group.new Group.put hs y hy)
  obtain ⟨hkey, hof⟩ := h.group hkeys hg
  obtain ⟨hgn, hgl, hgw⟩ : y.node = g.node ∧ y.link = g.link ∧ y.w = g.w := by
    obtain ⟨z, hz, hzg⟩ := hof.head
    obtain ⟨hzmem, -⟩ := List.mem_filter.mp hz
    have hsame : y.key = z.key := by
      rw [hkey, Located.key, hzg.1, hzg.2.1, hzg.2.2]
    obtain ⟨hn, hl, hw'⟩ := h.key_inj hkeys hy hzmem hsame
    exact ⟨hn.trans hzg.1, hl.trans hzg.2.1, hw'.trans hzg.2.2⟩
  obtain ⟨k, hk⟩ := List.mem_iff_getElem?.mp (JsMap.mem_entries_iff.mpr hg)
  obtain ⟨b, hb, hsigned⟩ := h.signed_at hk
  have hgnode : g.node = a.node := hgn.symm.trans (his.node.trans hnode)
  have hglink : g.link = a.link := hgl.symm.trans hlink
  have hgwindow : g.w = w := hgw.symm.trans hw
  dsimp only at hsigned
  refine ⟨k, b, hb, ?_, ?_, ?_, ?_, hfits.sent, ?_⟩
  · rw [hsigned.leaves, hof.ids_eq]
    refine List.mem_map.mpr ⟨y, List.mem_filter.mpr ⟨hy, decide_eq_true ⟨hgn, hgl, hgw⟩⟩, ?_⟩
    exact his.packet.trans hpacket
  · rw [hsigned.thisHop, hgnode]
  · rw [← hglink]
    exact hsigned.prevHop
  · rw [hsigned.contactId, hglink, hgwindow]
  · rw [hgnode, hglink, hgwindow] at hof
    refine ⟨_, _, hsigned.fromTime, hsigned.toTime, ?_, ?_⟩
    · obtain ⟨z, hz, hplace, hround⟩ := hfits.opens
      obtain ⟨z', hz', hzt⟩ := (h.mem_group hlinks).mpr ⟨z, hz, hplace, rfl⟩
      have hmono := mathRound_mono (hof.first_le z' hz')
      rw [hzt] at hmono
      exact (Int.cast_le.mpr hmono).trans hround
    · obtain ⟨z, hz, hplace, hround⟩ := hfits.closes
      obtain ⟨z', hz', hzt⟩ := (h.mem_group hlinks).mpr ⟨z, hz, hplace, rfl⟩
      have hmono := mathRound_mono (hof.le_last z' hz')
      rw [hzt] at hmono
      exact hround.trans (Int.cast_le.mpr hmono)

/-- Only what a node took in is covered by its receipts. -/
theorem Ran.taken (h : Ran H keyOf ends ups steps hs bs) (hkeys : KeysApart (arrivals steps)) {b : Batch.Made}
    (hb : b ∈ bs) {id : JsString} (hid : id ∈ b.leaves) : ∃ a ∈ arrivals steps,
      a.packet = id ∧ b.receipt.get "thisHop" = some (.str a.node) := by
  obtain ⟨k, hk⟩ := List.mem_iff_getElem?.mp hb
  obtain ⟨g, -, hof, hsigned⟩ := h.receipt hkeys hk
  have hleaf := (hsigned.leaves id).mp hid
  rw [hof.ids_eq] at hleaf
  obtain ⟨y, hy, hpacket⟩ := List.mem_map.mp hleaf
  obtain ⟨hmem, hplace⟩ := List.mem_filter.mp hy
  obtain ⟨hnode, -, -⟩ := of_decide_eq_true hplace
  obtain ⟨a, ha, his⟩ := (located_of_mapM h.located).1 y hmem
  refine ⟨a, ha, his.packet.symm.trans hpacket, ?_⟩
  rw [hsigned.thisHop, ← hnode, his.node]

/-! ## Runs that end -/

theorem isSome_of_windowOf {link : JsString} {t : ℚ} {w : Int} (h : windowOf ups link t = .ok w) :
    (ups.get? link).isSome = true := by
  unfold windowOf at h
  split at h
  · cases h
  · next hperiods => exact Option.isSome_iff_exists.mpr ⟨_, hperiods⟩

theorem returns_windowOf {link : JsString} (h : (ups.get? link).isSome = true) (t : ℚ) :
    Outcome.Returns (windowOf ups link t) := by
  obtain ⟨periods, hperiods⟩ := Option.isSome_iff_exists.mp h
  unfold windowOf
  rw [hperiods]
  dsimp only
  split
  · exact Outcome.returns_ok _
  · exact Outcome.returns_ok _

/-- **The program ends**, if the links of the arrivals are in the graph. -/
theorem exists_ran (hlinks : LinksKept steps) (hfits : steps.length < 4294967296)
    (hknown : ∀ a ∈ arrivals steps, (ups.get? a.link).isSome = true)
    (hends : ∀ link, (ups.get? link).isSome = true → (ends.get? link).isSome = true) :
    ∃ hs bs, Ran H keyOf ends ups steps hs bs := by
  have hlocate : Outcome.Returns ((walk steps).hops.mapM ((walk steps).locate ups)) := by
    refine Outcome.returns_mapM.mpr fun p hp => ?_
    obtain ⟨a, ha, rfl⟩ := mem_hops.mp hp
    unfold Walk.locate
    dsimp only
    rw [hlinks a ha]
    exact Outcome.returns_map.mpr (returns_windowOf (hknown a ha) a.t)
  obtain ⟨hs, hhs⟩ := hlocate
  have hlength : hs.length < 4294967296 := by
    rw [← (Outcome.mapM_eq_ok hhs).length_eq, length_hops]
    exact Nat.lt_of_le_of_lt (length_arrivals_le steps) hfits
  have hsign : Outcome.Returns
      ((Gather.gather Located.key Group.new Group.put hs).values.mapM (Group.batch H keyOf ends)) := by
    refine Outcome.returns_mapM.mpr fun g hg => ?_
    obtain ⟨k, hk⟩ := JsMap.mem_values_iff.mp hg
    have hof := group_of_get? hk
    refine returns_batch hof (Nat.lt_of_le_of_lt (List.length_filter_le _ _) hlength) (hends _ ?_)
    obtain ⟨x, hx, -, hlink, -⟩ := hof.head
    obtain ⟨a, -, his⟩ := (located_of_mapM hhs).1 x (List.mem_of_mem_filter hx)
    rw [← hlink]
    exact isSome_of_windowOf his.w
  obtain ⟨bs, hbs⟩ := hsign
  exact ⟨hs, bs, hhs, hbs⟩

/-- A link is kept for its arrivals, if there is one for a packet and a node. -/
theorem linksKept_of_one_link (h : ∀ a ∈ arrivals steps, ∀ x ∈ arrivals steps,
    packetKey x.packet x.node = packetKey a.packet a.node → x.link = a.link) : LinksKept steps := by
  intro a ha
  obtain ⟨link, hlink⟩ := Option.isSome_iff_exists.mp (inboundLink_isSome ha)
  obtain ⟨x, hx, hkey, rfl⟩ := inboundLink_mem hlink
  rw [hlink, h a ha x hx hkey]

end Run

/-! ## Receipts and logs -/

theorem isSome_linkEnds {g : Graph} {events : List NetworkEvent} {steps : List Step} (link : JsString)
    (h : ((upPeriods g events steps).get? link).isSome = true) : ((linkEnds g).get? link).isSome = true := by
  obtain ⟨periods, hperiods⟩ := Option.isSome_iff_exists.mp h
  obtain ⟨id, hid, heq⟩ := List.mem_map.mp (JsMap.mem_of_get?_ofList hperiods)
  cases heq
  exact JsMap.has_iff.mpr hid

/-- Packets that come to each node once, in whole milliseconds and in the up period they were sent in. -/
theorem sound_of_straight {ups : JsMap JsString (List Period)} {all : List Arrival}
    (honce : ∀ a ∈ all, ∀ x ∈ all, packetKey x.packet x.node = packetKey a.packet a.node → x = a)
    (hlands : ∀ a ∈ all, ∃ w : Nat, windowOf ups a.link a.t = .ok (w : Int) ∧ SentIn ups a w)
    (hwhole : ∀ a ∈ all, (mathRound a.t : ℚ) = a.t) : ∀ a ∈ all, Sound ups all a := by
  intro a ha
  obtain ⟨w, hw, hsent⟩ := hlands a ha
  refine ⟨fun x hx hkey => congrArg Arrival.link (honce a ha x hx hkey), w, ?_, fun w' hfits => ?_⟩
  · refine ⟨hsent, ⟨a, ha, rfl, rfl, hw⟩, ⟨a, ha, ⟨rfl, rfl, hw⟩, ?_⟩, ⟨a, ha, ⟨rfl, rfl, hw⟩, ?_⟩⟩
    · exact le_of_eq (hwhole a ha)
    · exact le_of_eq (hwhole a ha).symm
  · obtain ⟨x, hx, hpacket, hnode, hwindow⟩ := hfits.lands
    cases honce a ha x hx (by rw [hpacket, hnode])
    exact Int.ofNat_inj.mp (Except.ok.inj (hwindow.symm.trans hw))

/-- **The receipts match the log exactly when every arrival is sound**: its packet comes to its node over one link
only, and there is one up period of this link in which the packet was sent and landed at the node, and whose
arrivals round to times around this one. -/
theorem receipts_match_iff (H : Host) (keyOf : JsString → AgentKey) (g : Graph) (events : List NetworkEvent)
    (log : ReplayLog) (hkeys : KeysApart (arrivals log.steps)) :
    ReceiptsMatch H keyOf g events log ↔
      ∀ a ∈ arrivals log.steps, Sound (upPeriods g events log.steps) (arrivals log.steps) a := by
  constructor
  · rintro ⟨bs, hbs, hmatched⟩
    obtain ⟨hs, hran⟩ := batches_ok.mp hbs
    have hlinks : LinksKept log.steps := by
      intro a ha
      obtain ⟨k, ⟨w, b, hb, hc⟩, -⟩ := hmatched.once a ha
      exact (hran.landed hkeys hb hc).1
    intro a ha
    refine ⟨fun x hx hkey => ?_, ?_⟩
    · have hkept := hlinks x hx
      rw [hkey, hlinks a ha] at hkept
      exact (Option.some.inj hkept).symm
    · obtain ⟨k, ⟨w, b, hb, hc⟩, hunique⟩ := hmatched.once a ha
      refine ⟨w, hran.fits hkeys hlinks hb hc, fun w' hw' => ?_⟩
      obtain ⟨k', b', hb', hc'⟩ := hran.covered hkeys hlinks ha hw'
      cases hunique k' ⟨w', b', hb', hc'⟩
      cases hb.symm.trans hb'
      have hcontact := hc.contact.symm.trans hc'.contact
      rw [Option.some.injEq, Json.str.injEq] at hcontact
      exact (Int.ofNat_inj.mp (contactId_inj hcontact).2).symm
  · intro hsound
    have hlinks : LinksKept log.steps := linksKept_of_one_link fun a ha x hx => (hsound a ha).one_link x hx
    have hknown : ∀ a ∈ arrivals log.steps, ((upPeriods g events log.steps).get? a.link).isSome = true := by
      intro a ha
      obtain ⟨w, hfits, -⟩ := (hsound a ha).one_window
      obtain ⟨periods, p, hperiods, -⟩ := hfits.sent
      exact Option.isSome_iff_exists.mpr ⟨periods, hperiods⟩
    obtain ⟨hs, bs, hran⟩ := exists_ran (H := H) hlinks log.fits hknown isSome_linkEnds
    refine ⟨bs, batches_ok.mpr ⟨hs, hran⟩, fun a ha => ?_, fun b hb id hid => hran.taken hkeys hb hid⟩
    obtain ⟨w, hfits, hunique⟩ := (hsound a ha).one_window
    obtain ⟨k, b, hb, hc⟩ := hran.covered hkeys hlinks ha hfits
    refine ⟨k, ⟨w, b, hb, hc⟩, ?_⟩
    rintro k' ⟨w', b', hb', hc'⟩
    cases hunique w' (hran.fits hkeys hlinks hb' hc')
    exact hran.index_eq hkeys hb' hb hc' hc

/-! ## A packet between two nodes -/

/-- Two nodes, with two links from the first to the second and one back. -/
def sampleGraph : Graph where
  nodes := [{ id := js "A", interfaces := [[js "10.0.0.1/24"]] },
    { id := js "B", interfaces := [[js "10.0.0.2/24"]] }]
  links := [{ id := js "AB", source := js "10.0.0.1", target := js "10.0.0.2" },
    { id := js "BA", source := js "10.0.0.2", target := js "10.0.0.1" },
    { id := js "AB2", source := js "10.0.0.1", target := js "10.0.0.2" }]

/-- The first node creates the packet. -/
def created : Step := { relativeTimeNs := 0, data := .packetInNode (js "p") (js "A") }

/-- The packet goes over a link; the times are microseconds. -/
def overLink (node link next : String) (sentAt t : ℚ) : List Step :=
  [{ relativeTimeNs := 1000 * sentAt, data := .packetInTransit (js "p") (js node) (js link) },
    { relativeTimeNs := 1000 * t, data := .packetInNode (js "p") (js next) }]

def straightLog : ReplayLog where
  steps := created :: overLink "A" "AB" "B" 0 10000
  fits := by decide

/-- The receipt of a packet that goes straight on matches. -/
theorem receipts_match_straight :
    ReceiptsMatch Path.sampleHost (fun _ => Path.sampleKey) sampleGraph [] straightLog := by
  have harrivals : arrivals straightLog.steps =
      [{ packet := js "p", node := js "B", t := 10, link := js "AB", sentAt := 0 }] := by decide +kernel
  have hups : (upPeriods sampleGraph [] straightLog.steps).get? (js "AB") = some [(0, 11)] := by decide +kernel
  refine (receipts_match_iff _ _ sampleGraph [] straightLog (keysApart_of_plain ?_)).mpr (sound_of_straight ?_ ?_ ?_)
  · rw [harrivals]
    decide
  · rw [harrivals]
    decide
  · rw [harrivals, List.forall_mem_singleton]
    refine ⟨0, ?_, [(0, 11)], (0, 11), hups, rfl, by decide, by decide⟩
    unfold windowOf
    rw [hups]
    decide
  · rw [harrivals]
    decide +kernel

/-- The packet comes back, and goes out again over the other link. -/
def loopLog : ReplayLog where
  steps := created :: (overLink "A" "AB" "B" 0 10000 ++ overLink "B" "BA" "A" 20000 30000 ++ overLink "A" "AB2" "B" 40000 50000)
  fits := by decide

/-- The link goes down while the packet is under way. -/
def outage : List NetworkEvent :=
  [{ relativeTimeMs := 5, link := some { id := js "AB", status := js "down" } }]

/-- The packet arrives within a millisecond. -/
def fractionLog : ReplayLog where
  steps := created :: overLink "A" "AB" "B" 0 10400
  fits := by decide

/-- **Receipts that differ from the log**: of a packet that came to the node over two links, of one that landed after
its link went down, and of one that arrived at no whole millisecond. -/
theorem receipts_differ :
    ¬ ReceiptsMatch Path.sampleHost (fun _ => Path.sampleKey) sampleGraph [] loopLog ∧
      ¬ ReceiptsMatch Path.sampleHost (fun _ => Path.sampleKey) sampleGraph outage straightLog ∧
      ¬ ReceiptsMatch Path.sampleHost (fun _ => Path.sampleKey) sampleGraph [] fractionLog := by
  refine ⟨?_, ?_, ?_⟩
  · rintro ⟨bs, hbs, hmatched⟩
    obtain ⟨hs, hran⟩ := batches_ok.mp hbs
    obtain ⟨k, ⟨w, b, hb, hc⟩, -⟩ := hmatched.once
      { packet := js "p", node := js "B", t := 10, link := js "AB", sentAt := 0 } (by decide +kernel)
    have hkept := (hran.landed (keysApart_of_plain (by decide +kernel)) hb hc).1
    revert hkept
    decide +kernel
  · rintro ⟨bs, hbs, hmatched⟩
    obtain ⟨hs, hran⟩ := batches_ok.mp hbs
    have harrivals : arrivals straightLog.steps =
        [{ packet := js "p", node := js "B", t := 10, link := js "AB", sentAt := 0 }] := by decide +kernel
    obtain ⟨k, ⟨w, b, hb, hc⟩, -⟩ := hmatched.once _ (harrivals ▸ List.mem_cons_self)
    obtain ⟨x, hx, -, -, hwindow⟩ := (hran.landed (keysApart_of_plain (by decide +kernel)) hb hc).2
    rw [harrivals, List.mem_singleton] at hx
    subst hx
    have hmissed : windowOf (upPeriods sampleGraph outage straightLog.steps) (js "AB") 10 = .ok (-1) := by
      decide +kernel
    cases hmissed.symm.trans hwindow
  · rintro ⟨bs, hbs, hmatched⟩
    obtain ⟨hs, hran⟩ := batches_ok.mp hbs
    have harrivals : arrivals fractionLog.steps =
        [{ packet := js "p", node := js "B", t := 52 / 5, link := js "AB", sentAt := 0 }] := by decide +kernel
    obtain ⟨k, ⟨w, b, hb, hc⟩, -⟩ := hmatched.once _ (harrivals ▸ List.mem_cons_self)
    have hkeys : KeysApart (arrivals fractionLog.steps) := keysApart_of_plain (by decide +kernel)
    have hlinks : LinksKept fractionLog.steps := linksKept_of_one_link (by decide +kernel)
    obtain ⟨x, hx, -, hround⟩ := (hran.fits hkeys hlinks hb hc).closes
    rw [harrivals, List.mem_singleton] at hx
    subst hx
    revert hround
    decide +kernel

end DtnCustody.IpSf
