/-
# DtnCustody.Gateway.Fragments — what `makeBundles` makes is read as it was meant.

Every bundle that it returns is read back with the fields it was given (`IsMade`): a single one with
the whole payload, or fragments, the `i`-th with the bytes from `i * maxPayload` on (`makeBundles_cut`).
A fragment size that is no integer never gets as far as a second fragment: its offset has no encoding.
-/
import DtnCustody.Gateway.Ingress

namespace DtnCustody

open Base Js

namespace Gateway

variable {H : GatewayHost} {a : BundleArgs}

/-! ## Numbers -/

theorem cborNumber_ok {x : JsNum} {c : Cbor} (h : cborNumber x = .ok c) :
    ∃ z : Int, x = .fin z ∧ c = .int z ∧ Cbor.isNumber z = true := by
  unfold cborNumber at h
  split at h
  · rename_i q
    split at h
    · cases h
    · rename_i hden
      split at h
      · rename_i hsafe
        cases h
        refine ⟨q.num, ?_, rfl, hsafe⟩
        rw [Rat.coe_int_num_of_den_eq_one (not_not.mp hden)]
      · cases h
  · cases h

theorem cborNumber_nat {n : Nat} {c : Cbor} (h : cborNumber (.fin n) = .ok c) :
    c = .int n ∧ Cbor.isNumber n = true := by
  obtain ⟨z, hz, rfl, hsafe⟩ := cborNumber_ok h
  have hn : z = n := by
    have heq := JsNum.fin.inj hz
    exact_mod_cast heq.symm
  rw [← hn]
  exact ⟨rfl, hsafe⟩

theorem intField_number {z : Int} (h : Cbor.isNumber z = true) : Bundle.IntField (.int z) := by
  unfold Cbor.isNumber at h
  rw [Bool.and_eq_true, decide_eq_true_eq, decide_eq_true_eq] at h
  refine ⟨z, rfl, ?_, ?_⟩ <;> omega

/-! ## One bundle -/

/-- **A bundle as it was made**, after it was read: `place` is the offset and the total length of a
fragment. -/
structure IsMade (a : BundleArgs) (extra : List BlockObject) (place : Option (Nat × Nat))
    (part : Bytes) (b : Bundle) : Prop where
  source : Bundle.ReadAs a.source b.primary.source
  created : ∃ time seq : Int, cborNumber (a.now.sub (.fin dtnEpochMs)) = .ok (.int time) ∧
    cborNumber a.seq = .ok (.int seq) ∧ b.primary.created = (.val (.int time), .val (.int seq))
  flags : b.primary.flags = .int (if place.isSome then 1 else 0)
  offset : b.primary.fragmentOffset = place.map fun p => .int p.1
  total : b.primary.totalAduLength = place.map fun p => .int p.2
  blocks : b.blocks = (extra ++ [payloadBlock part]).map BlockObject.filled

/-- The blocks before the payload are none, or an ingress block. -/
def IsExtra (extra : List BlockObject) : Prop := extra = [] ∨ ∃ data, extra = [ingressBlock data]

theorem fragmentBit_flags (N : Node) (fragment : Bool) :
    Bundle.fragmentBit N (some (.int (if fragment then 1 else 0))) = .ok (if fragment then 1 else 0) := by
  cases fragment with
  | false =>
      show (do return (JsNum.fin ((0 : Int) : ℚ)).toUint32 &&& 1) = Except.ok 0
      simp [JsNum.toUint32]
  | true =>
      show (do return (JsNum.fin ((1 : Nat) : ℚ)).toUint32 &&& 1) = Except.ok 1
      rw [JsNum.toUint32_natCast 1 (by decide)]
      rfl

theorem typed_bundleObject (N : Node) {extra : List BlockObject} (hextra : IsExtra extra)
    {time seq lifetime : Int} {place : Option (Nat × Nat)} {part : Bytes}
    (htime : Cbor.isNumber time = true) (hseq : Cbor.isNumber seq = true)
    (hlifetime : Cbor.isNumber lifetime = true)
    (hplace : ∀ p, place = some p → Cbor.isNumber p.1 = true ∧ Cbor.isNumber p.2 = true) :
    Bundle.Typed N (bundleObject a extra (.int time, .int seq) (.int lifetime)
      (place.map fun p => (.int p.1, .int p.2)) part) := by
  have small : ∀ n : Nat, n ≤ 226 → Bundle.IntField (.int n) := fun n hn => ⟨n, rfl, by omega, by omega⟩
  refine ⟨?_, ?_, ?_, ?_, ?_, ?_, ?_⟩
  · refine ⟨if place.isSome then 1 else 0, ?_, ?_⟩
    · show (Cbor.int (if (place.map _).isSome then 1 else 0)) = _
      rw [Option.isSome_map]
    · cases place <;> rfl
  · show Cbor.int 2 ∈ _
    simp
  · exact ⟨_, _, rfl, intField_number htime, intField_number hseq⟩
  · exact ⟨_, rfl, intField_number hlifetime⟩
  · intro frag hfrag
    have hbit := fragmentBit_flags N place.isSome
    rw [← Option.isSome_map (f := fun p : Nat × Nat => ((Cbor.int p.1), (Cbor.int p.2)))] at hbit
    have heq : Except.ok frag = Except.ok (ε := Err) _ := hfrag.symm.trans hbit
    cases heq
    cases place with
    | none => exact ⟨rfl, rfl⟩
    | some p =>
        obtain ⟨h1, h2⟩ := hplace p rfl
        exact ⟨_, _, rfl, rfl, intField_number h1, intField_number h2⟩
  · intro b hb
    have hcrc : Cbor.int 2 ∈ [Cbor.int 0, .int 1, .int 2] := by simp
    rcases List.mem_append.mp hb with hb | hb
    · rcases hextra with rfl | ⟨data, rfl⟩
      · cases hb
      · rw [List.mem_singleton.mp hb]
        exact ⟨⟨_, rfl, small 226 (by decide)⟩, ⟨_, rfl, small 2 (by decide)⟩, small 1 (by decide), hcrc⟩
    · rw [List.mem_singleton.mp hb]
      exact ⟨⟨_, rfl, small 1 (by decide)⟩, ⟨_, rfl, small 1 (by decide)⟩, small 0 (by decide), hcrc⟩
  · rcases hextra with rfl | ⟨data, rfl⟩
    · exact List.pairwise_singleton _ _
    · refine List.pairwise_pair.mpr ?_
      show (some (Cbor.int 2)) ≠ some (Cbor.int 1)
      simp

/-- **One bundle is read as it was made.** -/
theorem makeOne_reads {extra : List BlockObject} (hextra : IsExtra extra) {off : Option Nat}
    {part buf : Bytes} (h : makeOne H a extra (off.map fun n => .fin n) part = .ok buf) :
    ∃ b, Bundle.decodeBundle H.toNode buf = .ok b ∧
      IsMade a extra (off.map fun n => (n, a.payload.length)) part b := by
  obtain ⟨time, htime, h⟩ := Outcome.bind_eq_ok.mp h
  obtain ⟨seq, hseq, h⟩ := Outcome.bind_eq_ok.mp h
  obtain ⟨lifetime, hlifetime, h⟩ := Outcome.bind_eq_ok.mp h
  obtain ⟨place, hplace, h⟩ := Outcome.bind_eq_ok.mp h
  obtain ⟨t, _, rfl, ht⟩ := cborNumber_ok htime
  obtain ⟨s, _, rfl, hs⟩ := cborNumber_ok hseq
  obtain ⟨l, _, rfl, hl⟩ := cborNumber_ok hlifetime
  have hplaces : place = (off.map fun n => (n, a.payload.length)).map (fun p => (.int p.1, .int p.2)) ∧
      ∀ p, (off.map fun n => (n, a.payload.length)) = some p →
        Cbor.isNumber p.1 = true ∧ Cbor.isNumber p.2 = true := by
    cases off with
    | none =>
        cases hplace
        exact ⟨rfl, fun p hp => by cases hp⟩
    | some n =>
        obtain ⟨offset, hoffset, hplace⟩ := Outcome.bind_eq_ok.mp hplace
        obtain ⟨total, htotal, hplace⟩ := Outcome.bind_eq_ok.mp hplace
        cases hplace
        obtain ⟨rfl, hn⟩ := cborNumber_nat hoffset
        obtain ⟨rfl, hlen⟩ := cborNumber_nat htotal
        refine ⟨rfl, fun p hp => ?_⟩
        cases hp
        exact ⟨hn, hlen⟩
  rw [hplaces.1] at h
  obtain ⟨d, source, r, _, hsource, hread⟩ :=
    Bundle.decodeBundle_written (typed_bundleObject H.toNode hextra ht hs hl hplaces.2) h
  refine ⟨_, hread, hsource, ⟨t, s, htime, hseq, rfl⟩, ?_, ?_, ?_, rfl⟩
  · cases off <;> rfl
  · cases off <;> rfl
  · cases off <;> rfl

/-! ## The loop -/

/-- The bytes of the `i`-th fragment. -/
def partAt (payload : Bytes) (m i : Nat) : Bytes := (payload.drop (i * m)).take m

theorem subarray_fragment (payload : Bytes) (m i : Nat) :
    subarray payload (.fin (i * m : Nat)) ((JsNum.fin (i * m : Nat)).add (.fin m)) =
      partAt payload m i := by
  have hindex : ∀ n : Nat, toIndex payload.length (.fin n) = min payload.length n := by
    intro n
    rw [toIndex, if_neg (not_lt.mpr (Nat.cast_nonneg n)), Int.floor_natCast, Int.toNat_natCast]
  have hsum : (JsNum.fin (i * m : Nat)).add (.fin m) = .fin ((i * m + m : Nat) : ℚ) := by
    rw [JsNum.add, Nat.cast_add]
  rw [subarray, hsum, hindex, hindex, partAt, List.take_drop]
  apply List.ext_getElem?
  intro x
  rw [List.getElem?_drop, List.getElem?_drop, List.getElem?_take, List.getElem?_take]
  by_cases hlen : payload.length ≤ i * m
  · rw [List.getElem?_eq_none (by omega), List.getElem?_eq_none (by omega)]
    split <;> split <;> rfl
  · have hmin : min payload.length (i * m) = i * m := Nat.min_eq_right (by omega)
    rw [hmin]
    by_cases hx : i * m + x < payload.length
    · congr 1
      simp only [eq_iff_iff]
      omega
    · rw [List.getElem?_eq_none (by omega)]
      split <;> split <;> rfl

/-- **The loop makes the fragments in the order of their offsets, up to the end of the payload.** -/
theorem cut_ok {extra : List BlockObject} {m : Nat} (hsize : a.maxPayload = .fin m) (hm : 1 ≤ m) :
    ∀ {fuel k : Nat} {bs : List Bytes}, (k = 0 → 0 < a.payload.length) →
      cut H a extra fuel (.fin (k * m : Nat)) = .ok bs →
      a.payload.length ≤ (k + bs.length) * m ∧ ∀ i b, bs[i]? = some b →
        (k + i) * m < a.payload.length ∧
          makeOne H a extra (some (.fin ((k + i) * m : Nat))) (partAt a.payload m (k + i)) = .ok b := by
  intro fuel
  induction fuel with
  | zero => intro k bs _ h; cases h
  | succ fuel ih =>
      intro k bs hfirst h
      have hnext : (JsNum.fin (k * m : Nat)).add a.maxPayload = .fin ((k + 1) * m : Nat) := by
        rw [hsize, JsNum.add, Nat.succ_mul, Nat.cast_add]
      rw [cut] at h
      split at h
      · rename_i hgo
        have hlt : k * m < a.payload.length := by
          rcases hgo with hgo | hgo
          · have hzero : k * m = 0 := by exact_mod_cast JsNum.fin.inj hgo
            have hk : k = 0 := by
              rcases Nat.mul_eq_zero.mp hzero with hk | hk
              · exact hk
              · omega
            rw [hzero]
            exact hfirst hk
          · rw [JsNum.lt_fin, Option.some.injEq, decide_eq_true_eq] at hgo
            exact_mod_cast hgo
        obtain ⟨b, hb, h⟩ := Outcome.bind_eq_ok.mp h
        obtain ⟨rest, hrest, h⟩ := Outcome.bind_eq_ok.mp h
        cases h
        rw [hnext] at hrest
        obtain ⟨hend, hall⟩ := ih (fun hk => absurd hk (by omega)) hrest
        refine ⟨?_, fun i => ?_⟩
        · rw [List.length_cons]
          exact hend.trans (Nat.mul_le_mul_right m (by omega))
        · cases i with
          | zero =>
              intro c hc
              cases hc
              rw [hsize, subarray_fragment] at hb
              exact ⟨hlt, hb⟩
          | succ i =>
              intro c hc
              rw [Nat.add_succ, ← Nat.succ_add]
              exact hall i c hc
      · rename_i hstop
        cases h
        rw [not_or] at hstop
        refine ⟨?_, fun i b hb => by cases hb⟩
        have hge := hstop.2
        rw [JsNum.lt_fin, Option.some.injEq, decide_eq_true_eq, not_lt] at hge
        exact_mod_cast hge

/-! ## What is made -/

theorem extra_ok {extra : List BlockObject} (h : Gateway.extra H a = .ok extra) :
    (a.keypair = none ∧ extra = []) ∨ ∃ kp receivedAt receipt text data, a.keypair = some kp ∧
      Receipt.signRecord H.toHost kp (ingressContent H a receivedAt) = .ok receipt ∧
      receipt.canonicalize H.toNode = .ok text ∧
      (Cbor.Item.array [.text text]).encodeItem = .ok data ∧ extra = [ingressBlock data] := by
  unfold Gateway.extra at h
  split at h
  · rename_i hnone
    cases h
    exact Or.inl ⟨hnone, rfl⟩
  · rename_i kp hkp
    obtain ⟨receivedAt, _, h⟩ := Outcome.bind_eq_ok.mp h
    obtain ⟨receipt, hreceipt, h⟩ := Outcome.bind_eq_ok.mp h
    obtain ⟨text, htext, h⟩ := Outcome.bind_eq_ok.mp h
    obtain ⟨data, hdata, h⟩ := Outcome.bind_eq_ok.mp h
    cases h
    exact Or.inr ⟨kp, receivedAt, receipt, text, data, hkp, hreceipt, htext, hdata, rfl⟩

theorem isExtra_of_ok {extra : List BlockObject} (h : Gateway.extra H a = .ok extra) : IsExtra extra := by
  rcases extra_ok h with ⟨_, h⟩ | ⟨_, _, _, _, data, _, _, _, _, h⟩
  · exact Or.inl h
  · exact Or.inr ⟨data, h⟩

/-- A fragment that was made has an offset and a total length that are numbers. -/
theorem makeOne_place {extra : List BlockObject} {off : JsNum} {part buf : Bytes}
    (h : makeOne H a extra (some off) part = .ok buf) :
    (∃ z : Int, off = .fin z) ∧ Cbor.isNumber a.payload.length = true := by
  obtain ⟨_, _, h⟩ := Outcome.bind_eq_ok.mp h
  obtain ⟨_, _, h⟩ := Outcome.bind_eq_ok.mp h
  obtain ⟨_, _, h⟩ := Outcome.bind_eq_ok.mp h
  obtain ⟨_, hplace, _⟩ := Outcome.bind_eq_ok.mp h
  obtain ⟨_, hoffset, hplace⟩ := Outcome.bind_eq_ok.mp hplace
  obtain ⟨_, htotal, _⟩ := Outcome.bind_eq_ok.mp hplace
  obtain ⟨z, hz, _⟩ := cborNumber_ok hoffset
  exact ⟨⟨z, hz⟩, (cborNumber_nat htotal).2⟩

/-- A part that was written is a byte string of a length that is a number. -/
theorem makeOne_fits {extra : List BlockObject} {off : Option JsNum} {part buf : Bytes}
    (h : makeOne H a extra off part = .ok buf) : part.length ≤ Cbor.maxBuffer := by
  obtain ⟨_, _, h⟩ := Outcome.bind_eq_ok.mp h
  obtain ⟨_, _, h⟩ := Outcome.bind_eq_ok.mp h
  obtain ⟨_, _, h⟩ := Outcome.bind_eq_ok.mp h
  obtain ⟨_, _, h⟩ := Outcome.bind_eq_ok.mp h
  rw [Bundle.encodeBundle] at h
  obtain ⟨_, _, h⟩ := Outcome.bind_eq_ok.mp h
  split at h
  · cases h
  · obtain ⟨_, hblocks, _⟩ := Outcome.bind_eq_ok.mp h
    exact Bundle.encodeBlocks_data hblocks (payloadBlock part) (List.mem_append_right _ (by simp))

/-- **A payload that is not cut is one bundle.** -/
theorem makeBundles_whole {bs : List Bytes} (hcut : isCut a = false) (h : makeBundles H a = .ok bs) :
    ∃ extra buf b, Gateway.extra H a = .ok extra ∧ a.payload.length ≤ Cbor.maxBuffer ∧ bs = [buf] ∧
      Bundle.decodeBundle H.toNode buf = .ok b ∧ IsMade a extra none a.payload b := by
  obtain ⟨extra, hextra, h⟩ := Outcome.bind_eq_ok.mp h
  rw [hcut, if_neg Bool.false_ne_true] at h
  obtain ⟨buf, hbuf, h⟩ := Outcome.bind_eq_ok.mp h
  cases h
  obtain ⟨b, hread, hmade⟩ := @makeOne_reads H a extra (isExtra_of_ok hextra) none _ _ hbuf
  exact ⟨extra, buf, b, hextra, makeOne_fits hbuf, rfl, hread, hmade⟩

/-- The fragments of a payload: their size, and what each is read as. -/
structure IsCutInto (H : GatewayHost) (a : BundleArgs) (extra : List BlockObject) (m : Nat)
    (bs : List Bytes) : Prop where
  pos : 1 ≤ m
  long : m < a.payload.length
  number : Cbor.isNumber a.payload.length = true
  reach : a.payload.length ≤ bs.length * m
  reads : ∀ i buf, bs[i]? = some buf → i * m < a.payload.length ∧
    ∃ b, Bundle.decodeBundle H.toNode buf = .ok b ∧
      IsMade a extra (some (i * m, a.payload.length)) (partAt a.payload m i) b

/-- **A payload that is cut is a list of fragments.** -/
theorem makeBundles_cut {bs : List Bytes} (hsize : a.maxPayload.lt (.fin 1) = some false)
    (hcut : isCut a = true) (h : makeBundles H a = .ok bs) :
    ∃ extra m, Gateway.extra H a = .ok extra ∧ a.maxPayload = .fin (m : Nat) ∧
      IsCutInto H a extra m bs := by
  obtain ⟨extra, hextra, h⟩ := Outcome.bind_eq_ok.mp h
  rw [hcut, if_pos rfl] at h
  rw [isCut, decide_eq_true_eq] at hcut
  cases hmax : a.maxPayload with
  | nan => rw [hmax] at hcut; cases hcut
  | inf negative =>
      rw [hmax] at hcut hsize
      cases negative with
      | false => cases hcut
      | true => cases hsize
  | fin q =>
      rw [hmax, JsNum.lt_fin, Option.some.injEq, decide_eq_true_eq] at hcut
      rw [hmax, JsNum.lt_fin, Option.some.injEq, decide_eq_false_iff_not, not_lt] at hsize
      have hlen : 1 < a.payload.length := by exact_mod_cast hsize.trans_lt hcut
      -- the second turn of the loop gives the size as an offset
      have hsecond : ∃ z : Int, JsNum.fin q = .fin z := by
        obtain ⟨n, hn⟩ : ∃ n, a.payload.length = n + 1 := ⟨a.payload.length - 1, by omega⟩
        rw [hn, cut, if_pos (Or.inl rfl)] at h
        obtain ⟨_, _, h⟩ := Outcome.bind_eq_ok.mp h
        obtain ⟨_, hrest, _⟩ := Outcome.bind_eq_ok.mp h
        rw [cut, hmax, JsNum.add, zero_add, if_pos (Or.inr (by simpa using hcut))] at hrest
        obtain ⟨_, hone, _⟩ := Outcome.bind_eq_ok.mp hrest
        exact (makeOne_place hone).1
      obtain ⟨z, hz⟩ := hsecond
      obtain rfl : q = z := JsNum.fin.inj hz
      have hpos : 1 ≤ z := by exact_mod_cast hsize
      obtain ⟨m, rfl⟩ := Int.eq_ofNat_of_zero_le (by omega : 0 ≤ z)
      have hm : 1 ≤ m := by omega
      have hstart : JsNum.fin 0 = .fin (0 * m : Nat) := by rw [Nat.zero_mul, Nat.cast_zero]
      rw [hstart] at h
      obtain ⟨hreach, hall⟩ := cut_ok (by rw [hmax]; rfl) hm (fun _ => by omega) h
      rw [Nat.zero_add] at hreach
      refine ⟨extra, m, hextra, rfl, hm, by exact_mod_cast hcut, ?_, hreach, fun i buf hbuf => ?_⟩
      · -- there is a first fragment
        cases bs with
        | nil =>
            rw [List.length_nil, Nat.zero_mul] at hreach
            omega
        | cons b bs => exact (makeOne_place (hall 0 b rfl).2).2
      · obtain ⟨hlt, hone⟩ := hall i buf hbuf
        rw [Nat.zero_add] at hlt hone
        exact ⟨hlt, @makeOne_reads H a extra (isExtra_of_ok hextra) (some (i * m)) _ _ hone⟩

end Gateway

end DtnCustody
