/-
# DtnCustody.Transport.HopAudit — the audit of a recorded path, and the whole of what signed
hop-records promise.

Each record moves one counter (`countRecord_cases`), so a finished audit tallies with the accounts
of its records (`auditFrom_tally`). It does not finish when a record cannot be read: an EID or link
field of the wrong shape, or a signed record that does not come back from the wire.

`hop_records_bind` puts the three promises together, each with the exact condition under which it
is kept. `movedRecord_not_binds` is the case that breaks the first: a genuine signature, moved onto
other fields with the fields it was made on carried in the structure.
-/
import DtnCustody.Transport.HopBinding

namespace DtnCustody

open Base Js

namespace Treb

variable (N : Node)

/-! ## Accounts -/

/-- What the audit makes of one record. -/
inductive Account where
  | signed
  | unsigned
  | failed (reason : String)
  | thrown
  deriving DecidableEq, Repr

def Account.isFailed : Account → Bool
  | .failed _ => true
  | _ => false

def account (keys : String → Option String) (bundle : Bundle) (r : List Cbor) : Account :=
  match readHopRecord r with
  | .error _ => .thrown
  | .ok h =>
      if h.signed = false then .unsigned
      else match verifyHopRecord N r (keys h.self) bundle with
        | .error _ => .thrown
        | .ok (.ok _) => .signed
        | .ok (.fail reason) => .failed reason

variable {N} {keys : String → Option String} {bundle : Bundle}

/-- One record moves exactly one of the three counters, as its account says. -/
theorem countRecord_cases {r : List Cbor} {h : HopInfo} (hr : readHopRecord r = .ok h) (i : Nat)
    (out : Audit) :
    match account N keys bundle r with
    | .signed => countRecord N keys bundle i r h out = .ok { out with signed := out.signed + 1 }
    | .unsigned =>
        countRecord N keys bundle i r h out = .ok { out with unsigned := out.unsigned + 1 }
    | .failed reason => countRecord N keys bundle i r h out
        = .ok { out with failed := out.failed ++ [{ index := i, node := h.self, reason }] }
    | .thrown => ∃ e, countRecord N keys bundle i r h out = .error e := by
  unfold account countRecord
  rw [hr]
  by_cases hs : h.signed = false
  · simp only [hs, if_true]
  · simp only [hs]
    cases hv : verifyHopRecord N r (keys h.self) bundle with
    | error e => exact ⟨e, rfl⟩
    | ok v => cases v <;> rfl

@[simp] theorem noteGap_signed (prev : Option HopInfo) (h : HopInfo) (out : Audit) :
    (noteGap prev h out).signed = out.signed := by
  unfold noteGap
  split
  · rfl
  · split <;> rfl

@[simp] theorem noteGap_unsigned (prev : Option HopInfo) (h : HopInfo) (out : Audit) :
    (noteGap prev h out).unsigned = out.unsigned := by
  unfold noteGap
  split
  · rfl
  · split <;> rfl

@[simp] theorem noteGap_failed (prev : Option HopInfo) (h : HopInfo) (out : Audit) :
    (noteGap prev h out).failed = out.failed := by
  unfold noteGap
  split
  · rfl
  · split <;> rfl

theorem auditFrom_cons {r : List Cbor} {h : HopInfo} (hr : readHopRecord r = .ok h) (i : Nat)
    (prev : Option HopInfo) (out : Audit) (rs : List (List Cbor)) :
    auditFrom N keys bundle i prev out (r :: rs) = (countRecord N keys bundle i r h out >>= fun out =>
      auditFrom N keys bundle (i + 1) (some h) (noteGap prev h out) rs) := by
  simp only [auditFrom, hr, Outcome.ok_bind]

/-- The audit gets to its end when no record makes it throw. -/
theorem auditFrom_returns {rs : List (List Cbor)} :
    ∀ {i : Nat} {prev : Option HopInfo} {out : Audit},
      (∃ out', auditFrom N keys bundle i prev out rs = .ok out') ↔
        ∀ r ∈ rs, account N keys bundle r ≠ .thrown := by
  induction rs with
  | nil =>
      intro i prev out
      exact ⟨fun _ r hr => absurd hr List.not_mem_nil, fun _ => ⟨out, rfl⟩⟩
  | cons r rs ih =>
      intro i prev out
      have stop : ∀ {e : Err}, auditFrom N keys bundle i prev out (r :: rs) = .error e →
          account N keys bundle r = .thrown → ((∃ out', auditFrom N keys bundle i prev out (r :: rs)
            = .ok out') ↔ ∀ x ∈ r :: rs, account N keys bundle x ≠ .thrown) := by
        intro e he ht
        rw [he]
        refine ⟨fun hex => ?_, fun hall => absurd ht (hall r List.mem_cons_self)⟩
        obtain ⟨_, hex⟩ := hex
        cases hex
      cases hr : readHopRecord r with
      | error e =>
          refine @stop e ?_ ?_
          · simp only [auditFrom, hr, Outcome.error_bind]
          · simp only [account, hr]
      | ok h =>
          have hcount := @countRecord_cases N keys bundle _ _ hr i out
          have hstep := @auditFrom_cons N keys bundle _ _ hr i prev out rs
          cases hacc : account N keys bundle r with
          | thrown =>
              rw [hacc] at hcount
              obtain ⟨e, he⟩ := hcount
              rw [he, Outcome.error_bind] at hstep
              exact stop hstep hacc
          | signed =>
              rw [hacc] at hcount
              rw [hstep, hcount, Outcome.ok_bind, ih, List.forall_mem_cons, hacc]
              simp
          | unsigned =>
              rw [hacc] at hcount
              rw [hstep, hcount, Outcome.ok_bind, ih, List.forall_mem_cons, hacc]
              simp
          | failed reason =>
              rw [hacc] at hcount
              rw [hstep, hcount, Outcome.ok_bind, ih, List.forall_mem_cons, hacc]
              simp

/-- The counters against the accounts of the records, counted from `i`. -/
structure Tally (accounts : List Account) (i : Nat) (out out' : Audit) : Prop where
  signed : out'.signed = out.signed + accounts.countP (· == .signed)
  unsigned : out'.unsigned = out.unsigned + accounts.countP (· == .unsigned)
  failed : out'.failed.map FailedHop.index = out.failed.map FailedHop.index ++
    ((accounts.zipIdx i).filter fun p => p.1.isFailed).map Prod.snd
  total : out'.signed + out'.unsigned + out'.failed.length
    = out.signed + out.unsigned + out.failed.length + accounts.length

theorem auditFrom_tally {rs : List (List Cbor)} :
    ∀ {i : Nat} {prev : Option HopInfo} {out out' : Audit},
      auditFrom N keys bundle i prev out rs = .ok out' →
        Tally (rs.map (account N keys bundle)) i out out' := by
  induction rs with
  | nil =>
      intro i prev out out' h
      cases h
      exact ⟨rfl, rfl, by simp, rfl⟩
  | cons r rs ih =>
      intro i prev out out' h
      obtain ⟨info, hr, h⟩ := Outcome.bind_eq_ok.mp h
      obtain ⟨mid, hmid, h⟩ := Outcome.bind_eq_ok.mp h
      have hcount := @countRecord_cases N keys bundle _ _ hr i out
      have ht := ih h
      rw [List.map_cons]
      cases hacc : account N keys bundle r with
      | thrown =>
          rw [hacc] at hcount
          obtain ⟨e, he⟩ := hcount
          cases he.symm.trans hmid
      | signed =>
          rw [hacc] at hcount
          cases hcount.symm.trans hmid
          refine ⟨?_, ?_, ?_, ?_⟩
          · rw [ht.signed, noteGap_signed, List.countP_cons]; simp; omega
          · rw [ht.unsigned, noteGap_unsigned, List.countP_cons]; simp
          · rw [ht.failed, noteGap_failed]; simp [Account.isFailed]
          · rw [ht.total]; simp; omega
      | unsigned =>
          rw [hacc] at hcount
          cases hcount.symm.trans hmid
          refine ⟨?_, ?_, ?_, ?_⟩
          · rw [ht.signed, noteGap_signed, List.countP_cons]; simp
          · rw [ht.unsigned, noteGap_unsigned, List.countP_cons]; simp; omega
          · rw [ht.failed, noteGap_failed]; simp [Account.isFailed]
          · rw [ht.total]; simp; omega
      | failed reason =>
          rw [hacc] at hcount
          cases hcount.symm.trans hmid
          refine ⟨?_, ?_, ?_, ?_⟩
          · rw [ht.signed, noteGap_signed, List.countP_cons]; simp
          · rw [ht.unsigned, noteGap_unsigned, List.countP_cons]; simp
          · rw [ht.failed, noteGap_failed]; simp [Account.isFailed]
          · rw [ht.total]; simp; omega

/-! ## The three promises -/

/-- **Signed hop-records, exactly.** A record binds its own fields unless it presents a signature
on other fields, or on a bundle whose timestamp another bundle shares once written; a record made
by `signHopRecord` holds unless it is nested too deep for the decoder; and an audit that no record
makes throw counts every record once. -/
theorem hop_records_bind (hsha : Function.Injective N.sha256) :
    (∀ (record : HopRecord) (held : DecodedBundle), Binds N record held ↔
      ∀ fields, Presents N record held fields →
        fields.fields = record.fields.take 7 ∧ ¬ Bundle.Ambiguous held.bundle.primary.created) ∧
    (∀ priv pub, KeyPair N priv pub → ∀ (fields : HopRecord) (held : DecodedBundle) signed,
      signHopRecord N priv fields.fields held.bundle = .ok signed →
        (Holds N signed pub held.bundle ↔ Cbor.depth (.array fields.fields) < Cbor.maxLevels)) ∧
    ∀ records keys bundle,
      ((∃ out, auditHopRecords N records keys bundle = .ok out) ↔
        ∀ r ∈ records, account N keys bundle r ≠ .thrown) ∧
      ∀ out, auditHopRecords N records keys bundle = .ok out →
        Tally (records.map (account N keys bundle)) 0 {} out := by
  refine ⟨binds_iff N hsha, ?_, ?_⟩
  · intro priv pub hpair fields held signed h
    exact signHopRecord_holds N hpair h
  · intro records keys bundle
    exact ⟨auditFrom_returns, fun out h => auditFrom_tally h⟩

/-! ## A record and a moved signature -/

/-- A value that comes back from the wire holds no map key twice. -/
theorem distinct_of_wire {v : Cbor} (h : (do Cbor.decode (← Cbor.encode v)) = .ok v) :
    v.Distinct := by
  obtain ⟨b, _, h⟩ := Outcome.bind_eq_ok.mp h
  exact (Cbor.decode_decoded h).1

def sampleWire : Bytes :=
  [0x9f, 0x88, 7, 0, 0, 0x82, 2, 0x82, 9, 1, 0x82, 2, 0x82, 1, 0, 0x82, 1, 0, 0x82, 0x18, 100, 5, 9,
    0x85, 1, 1, 0, 0, 0x43, 1, 2, 3, 0xff]

def sampleBundle : Bundle where
  primary := { flags := .int 0, crcType := .int 0, dest := "ipn:9.1", source := "ipn:1.0",
               reportTo := "dtn:none", created := (.val (.int 100), .val (.int 5)),
               lifetime := .int 9 }
  blocks := [{ type := .int 1, number := .int 1, flags := .int 0, crcType := .int 0,
               data := [1, 2, 3] }]

theorem decodeBundle_sampleWire :
    Bundle.decodeBundle sampleNode sampleWire = .ok sampleBundle := by decide +kernel

def sampleHeld : DecodedBundle :=
  ⟨sampleBundle, Bundle.decodeBundle_wellFormed sampleNode decodeBundle_sampleWire⟩

def eid (node : Int) : Cbor := .array [.int 2, .array [.int node, .int 0]]

/-- The fields of a record by node 4, at time `t`. -/
def sampleFields (t : Int) : List Cbor :=
  [eid 4, eid 3, eid 5, .int 0, .int t, .int 0, .array [.int 0, .int 0, .int 0, .int 0, .int 0]]

def sampleRecord : HopRecord := ⟨sampleFields 7, distinct_of_wire (by decide +kernel)⟩

/-- The fields at time `t`, with a signature that carries `payload`. -/
def withSignature (t : Int) (payload : Cbor) : List Cbor :=
  sampleFields t ++ [.array [.bytes Cose.protectedHeader, .map [], payload, .bytes [1, 2]]]

def detachedRecord : HopRecord := ⟨withSignature 7 .null, distinct_of_wire (by decide +kernel)⟩

/-- A detached signature is bound to the record it stands in. -/
theorem detachedRecord_binds : Binds sampleNode detachedRecord sampleHeld := by
  refine ((@hop_records_bind sampleNode sampleHash_injective).1 _ _).mpr ?_
  rintro fields ⟨_, _, ⟨unprot, carried, sig, payload, hitem, hcarries, henc⟩, _⟩
  have hitem' : detachedRecord.fields[7]? = some (.array [.bytes Cose.protectedHeader, .map [], .null,
      .bytes [1, 2]]) := by decide +kernel
  rw [hitem'] at hitem
  simp only [Option.some.injEq, Cbor.array.injEq, List.cons.injEq, and_true] at hitem
  obtain ⟨_, _, rfl, _⟩ := hitem
  refine ⟨?_, ?_⟩
  · rcases hcarries with hc | ⟨_, hown⟩
    · cases hc
    · have hseven : (Cbor.array (detachedRecord.fields.take 7)).Distinct :=
        distinct_of_wire (by decide +kernel)
      have heq := Cbor.encode_inj fields.distinct hseven henc hown
      simpa using heq
  · rintro ⟨⟨u, hu⟩, _⟩
    cases hu

/-- The encoding of the fields at time 7. -/
def genuinePayload : Bytes :=
  [0x87, 0x82, 2, 0x82, 4, 0, 0x82, 2, 0x82, 3, 0, 0x82, 2, 0x82, 5, 0, 0, 7, 0, 0x85, 0, 0, 0, 0, 0]

/-- The signature made at time 7, moved onto a record for time 8: the third slot carries what it
was made on. -/
def movedRecord : HopRecord :=
  ⟨withSignature 8 (.bytes genuinePayload), distinct_of_wire (by decide +kernel)⟩

/-- **A genuine signature can be moved onto changed fields.** -/
theorem movedRecord_not_binds : ¬ Binds sampleNode movedRecord sampleHeld := by
  intro hb
  have hpresents : Presents sampleNode movedRecord sampleHeld sampleRecord := by
    refine ⟨by decide +kernel, by decide +kernel, ⟨[], .bytes genuinePayload, [1, 2], genuinePayload,
      by decide +kernel, Or.inl rfl, by decide +kernel⟩, ?_⟩
    have hbytes : ((Signing.hop sampleRecord sampleHeld).signedBytes sampleNode).isOk = true := by
      decide +kernel
    cases hm : (Signing.hop sampleRecord sampleHeld).signedBytes sampleNode with
    | error e => rw [hm] at hbytes; cases hbytes
    | ok m => exact ⟨m, rfl⟩
  obtain ⟨r, b, hmem, hfields, _⟩ := hpresents.accepted sampleNode rfl hb
  simp only [List.mem_singleton, Signing.hop.injEq] at hmem
  obtain ⟨rfl, rfl⟩ := hmem
  exact absurd hfields (by decide +kernel)

end Treb

end DtnCustody
