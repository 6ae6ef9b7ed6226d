/-
# DtnCustody.Gateway.Pump — `Gateway._pump` and `Gateway.fromIp`: the spool, drained through a session.

The ingress adds bundles to the spool, one loop sends them to the peer one at a time, oldest first, and
takes each away when the peer has acknowledged all of it. The loop waits in four places (`Wait`);
between any two of its steps bundles come in, the session is lost, or the process stops, and another
process may be started on the same directory.

In every run in which sequence numbers keep to twelve digits, no bundle is lost or overtaken, and the
loop does not sleep on one (`spool_kept`). The thirteenth digit breaks the order (`spool_overtaken`).
-/
import DtnCustody.Gateway.Spool
import DtnCustody.Gateway.Tcpcl4Promise

namespace DtnCustody

open Base Spool Tcpcl4

namespace Pump

/-! ## The gateway -/

/-- Where `_pump` waits. -/
inductive Wait where
  | connect
  /-- For `_kick`: whether it has been called. -/
  | kick (called : Bool)
  /-- For `session.send`: the file, the transfer, and how its promise has been settled. -/
  | sent (name : JsString) (transferId : Nat) (outcome : Option Bool)
  /-- For the timer, after an error. -/
  | retry
  /-- `_pump` has returned. -/
  | over
  deriving DecidableEq, Repr

structure Process where
  /-- `spool.seq`. -/
  seq : Nat
  session : Option Session := none
  wait : Wait := .connect
  stopped : Bool := false
  /-- The bundles whose final acknowledgement this process has read. -/
  acked : List Nat := []

/-- The directory, the process that runs on it, and the history of both. Bundles are named by the call
of `add` that they came with. -/
structure World where
  opts : Options
  dir : Dir
  process : Option Process := none
  /-- The bundles, in the order of the calls of `add`. -/
  added : List Bytes := []
  /-- The bundles whose final acknowledgement has been read. -/
  acked : List Nat := []
  /-- The bundles, in the order of their first transmissions. -/
  firsts : List Nat := []

/-- `this._kick?.()`. -/
def Process.kick (p : Process) : Process :=
  match p.wait with
  | .kick _ => { p with wait := .kick true }
  | _ => p

def isWrite : Output → Bool
  | .write _ => true
  | _ => false

/-- How the promise of `send` is settled by what `send` does. -/
def begun (transferId : Nat) (outs : List Output) : Option Bool :=
  if outs.any fun o => match o with | .refused _ => true | _ => false then some false
  else settlement transferId outs

namespace World

/-- The bundles in the spool, as they would be read. -/
def waiting (w : World) : List File := (list w.dir).filterMap w.dir.get?

/-- The `catch` of the loop. -/
def fail (w : World) (p : Process) : World :=
  if p.stopped then { w with process := some { p with wait := .over } }
  else { w with process := some { p with session := none, wait := .retry } }

/-- The rest of the loop, with a session: the oldest bundle is sent. -/
def next (w : World) (p : Process) (s : Session) : World :=
  match (list w.dir).head? with
  | none => { w with process := some { p with session := some s, wait := .kick false } }
  | some name =>
      match w.dir.get? name with
      | none => w.fail { p with session := some s }
      | some file =>
          let outs := (s.send file.bytes).log.drop s.log.length
          { w with
            process := some { p with
              session := some (s.send file.bytes)
              wait := .sent name s.nextTransferId (begun s.nextTransferId outs) }
            firsts := if outs.any isWrite ∧ file.add ∉ w.firsts then w.firsts ++ [file.add]
              else w.firsts }

/-- The head of the loop. -/
def top (w : World) (p : Process) : World :=
  if p.stopped then { w with process := some { p with wait := .over } }
  else match p.session with
    | none => { w with process := some { p with wait := .connect } }
    | some s => w.next p s

/-- One bundle into the spool. -/
def store (w : World) (seq : Nat) (bundle : Bytes) : World :=
  { w with
    dir := put w.dir seq { bytes := bundle, add := w.added.length }
    added := w.added ++ [bundle] }

/-- `spool.add` for each, with the number that comes next. -/
def storeAll (w : World) (seq : Nat) : List Bytes → World × Nat
  | [] => (w, seq)
  | bundle :: bundles => (w.store seq bundle).storeAll (inc seq) bundles

/-- The final acknowledgement of the bundle that is being sent is read in this event. -/
def readsAck (w : World) (p : Process) (s : Session) (e : Tcpcl4.Event) : List Nat :=
  match p.wait with
  | .sent name transferId none =>
      match w.dir.get? name with
      | some file =>
          if (s.within e).any fun t => t.finalAck transferId file.bytes.length then [file.add] else []
      | none => []
  | _ => []

/-- Something happens to the session: the promise of `send` may be settled, and when the session
closes, the handler forgets it and wakes the loop. -/
def onEvent (w : World) (p : Process) (s : Session) (e : Tcpcl4.Event) : World :=
  let s' := s.handle e
  let p' := { p with
    wait := match p.wait with
      | .sent name transferId none =>
          .sent name transferId (settlement transferId (s'.log.drop s.log.length))
      | wait => wait
    acked := p.acked ++ w.readsAck p s e }
  { w with
    process := some (if s'.closed && !s.closed then { p' with session := none }.kick
      else { p' with session := some s' })
    acked := w.acked ++ w.readsAck p s e }

end World

inductive Act where
  /-- A process is started on the directory. -/
  | start
  /-- The process is gone, at any point between two others of these. -/
  | crash
  /-- The process is gone while it adds bundles: some of them have been added, and of one there is a
  temporary file. -/
  | crashAdding (bundles : List Bytes) (torn : Bytes)
  | fromIp (bundles : List Bytes)
  /-- `connect` hands over a session, after everything that happened to it so far. -/
  | connected (es : List Tcpcl4.Event)
  | connectFailed
  | session (e : Tcpcl4.Event)
  /-- What the loop waits for has come, and it goes on. -/
  | resume
  | stop

/-- Only the loop sends. -/
def isSend : Tcpcl4.Event → Bool
  | .send _ => true
  | _ => false

namespace World

def step (w : World) (a : Act) : World :=
  match a, w.process with
  | .start, none => w.top { seq := firstSeq w.dir }
  | .start, some _ => w
  | _, none => w
  | .crash, some _ => { w with process := none }
  | .crashAdding bundles torn, some p =>
      let (w', seq) := w.storeAll p.seq bundles
      { w' with
        dir := w'.dir.set (tmpName seq) { bytes := torn, add := w'.added.length }
        process := none }
  | .fromIp bundles, some p =>
      let (w', seq) := w.storeAll p.seq bundles
      { w' with process := some { p with seq := seq }.kick }
  | .connected es, some p =>
      if p.wait = .connect ∧ .ready ∈ ((Session.new w.opts).run es).log ∧ es.all fun e => !isSend e then
        w.next p ((Session.new w.opts).run es)
      else w
  | .connectFailed, some p => if p.wait = .connect then w.fail p else w
  | .session e, some p =>
      match p.session with
      | some s => if isSend e then w else w.onEvent p s e
      | none => w
  | .resume, some p =>
      match p.wait with
      | .kick true => w.top p
      | .sent name _ (some true) => { w with dir := done w.dir name }.top p
      | .sent _ _ (some false) => w.fail p
      | .retry => w.top p
      | _ => w
  | .stop, some p =>
      { w with process := some { p with
          stopped := true
          session := p.session.map fun s : Session => s.close }.kick }

def run (w : World) (as : List Act) : World := as.foldl step w

/-- A directory with files of the spool, numbered in the order in which they were added, and no process
yet. -/
def new (opts : Options) (files : List (Nat × Bytes)) : World :=
  files.foldl (fun w f => w.store f.1 f.2) { opts := opts, dir := .empty }

/-- **Nothing is lost or overtaken.** -/
structure Kept (w : World) : Prop where
  /-- A bundle that was added is in the spool, or its final acknowledgement has been read. -/
  stays : ∀ (k : Nat) (bytes : Bytes), w.added[k]? = some bytes →
    k ∈ w.acked ∨ { bytes := bytes, add := k } ∈ w.waiting
  /-- A bundle whose final acknowledgement the process has read is not in the spool any more when the
  loop goes on. -/
  removed : ∀ p, w.process = some p → ∀ k ∈ p.acked, k ∉ (w.step .resume).waiting.map File.add
  /-- The first transmissions are those of the bundles added first, in the order of `add`. -/
  order : w.firsts = List.range w.firsts.length
  /-- The loop sleeps on an empty spool only. -/
  awake : ∀ p, w.process = some p → p.wait = .kick false → w.waiting = []

/-- Sequence numbers keep to twelve digits. -/
def ShortStep (w : World) : Act → Prop
  | .fromIp bundles => ∀ p ∈ w.process, p.seq + bundles.length ≤ 10 ^ 12
  | .crashAdding bundles _ => ∀ p ∈ w.process, p.seq + bundles.length ≤ 10 ^ 12
  | _ => True

instance (w : World) (a : Act) : Decidable (w.ShortStep a) := by
  unfold ShortStep
  split <;> infer_instance

def ShortRun : World → List Act → Prop
  | _, [] => True
  | w, a :: as => w.ShortStep a ∧ ShortRun (w.step a) as

instance decidableShortRun : ∀ (w : World) (as : List Act), Decidable (ShortRun w as)
  | _, [] => isTrue trivial
  | w, a :: as =>
      have := decidableShortRun (w.step a) as
      inferInstanceAs (Decidable (_ ∧ _))

/-! ## The queue in the spool -/

/-- **The spool holds the bundles that have not gone**, all acknowledged bundles are the first ones, and
the next one may have been transmitted. -/
structure Stock (w : World) (q : List (Nat × File)) (gone : Nat) : Prop where
  holds : Holds w.dir q
  adds : q.map (fun e => e.2.add) = List.range' gone q.length
  total : gone + q.length = w.added.length
  bytes : ∀ e ∈ q, w.added[e.2.add]? = some e.2.bytes
  acked : ∀ k < gone, k ∈ w.acked
  firsts : w.firsts = List.range gone ∨ q ≠ [] ∧ w.firsts = List.range (gone + 1)

/-- What holds of the loop. -/
def Waits (w : World) (q : List (Nat × File)) (gone : Nat) (p : Process) : Prop :=
  match p.wait with
  | .kick false => q = []
  | .sent name transferId outcome =>
      (∃ n file rest, q = (n, file) :: rest ∧ name = fileName n ∧
        ∀ s, p.session = some s → outcome = none →
          s.pending.get? transferId = some file.bytes.length) ∧
      (outcome ≠ some false → w.firsts = List.range (gone + 1)) ∧
      (outcome = some true → gone ∈ w.acked)
  | _ => True

/-- The loop has been told that the oldest bundle is acknowledged. -/
def Told (p : Process) : Prop := ∃ name transferId, p.wait = .sent name transferId (some true)

structure Running (w : World) (q : List (Nat × File)) (gone : Nat) (p : Process) : Prop where
  seq : ∀ e ∈ q, e.1 < p.seq
  session : ∀ s, p.session = some s → s.Steady
  wait : w.Waits q gone p
  /-- What has been read is gone, or it is the oldest bundle, and the loop has been told. -/
  acked : ∀ k ∈ p.acked, k < gone ∨ k = gone ∧ Told p

structure Inv (w : World) (q : List (Nat × File)) (gone : Nat) : Prop where
  stock : w.Stock q gone
  process : ∀ p, w.process = some p → w.Running q gone p

namespace Stock

variable {w : World} {q : List (Nat × File)} {gone : Nat}

theorem waiting_eq (h : w.Stock q gone) : w.waiting = q.map Prod.snd := by
  have hget : ∀ e ∈ q, w.dir.get? (fileName e.1) = some e.2 := fun _ he => h.holds.get? he
  rw [waiting, h.holds.list_eq]
  clear h
  induction q with
  | nil => rfl
  | cons e q ih =>
      rw [List.map_cons, List.filterMap_cons, hget e List.mem_cons_self,
        ih fun e' he' => hget e' (List.mem_cons_of_mem _ he')]
      rfl

theorem add_head {n : Nat} {file : File} {rest : List (Nat × File)}
    (h : w.Stock ((n, file) :: rest) gone) : file.add = gone := by
  have hadds := h.adds
  rw [List.map_cons, List.length_cons, List.range'_succ] at hadds
  exact (List.cons.inj hadds).1

/-- The same directory and the same history. -/
theorem congr (h : w.Stock q gone) {w' : World} (hdir : w'.dir = w.dir) (hadded : w'.added = w.added)
    (hacked : w'.acked = w.acked) (hfirsts : w'.firsts = w.firsts) : w'.Stock q gone :=
  ⟨hdir ▸ h.holds, h.adds, hadded ▸ h.total, hadded ▸ h.bytes, hacked ▸ h.acked, hfirsts ▸ h.firsts⟩

/-- One bundle more, with a number behind the others. -/
theorem store (h : w.Stock q gone) {seq : Nat} (hlast : ∀ e ∈ q, e.1 < seq) (hsmall : seq < 10 ^ 12)
    (bundle : Bytes) :
    (w.store seq bundle).Stock (q ++ [(seq, { bytes := bundle, add := w.added.length })]) gone := by
  refine ⟨h.holds.put hlast hsmall _, ?_, ?_, ?_, h.acked, ?_⟩
  · rw [List.map_append, h.adds, List.length_append, List.range'_append_1.symm]
    show _ ++ [w.added.length] = _ ++ List.range' (gone + q.length) 1
    rw [h.total]
    rfl
  · show gone + (q ++ [_]).length = (w.added ++ [bundle]).length
    rw [List.length_append, List.length_append, ← h.total]
    exact (Nat.add_assoc _ _ _).symm
  · intro e he
    show (w.added ++ [bundle])[e.2.add]? = some e.2.bytes
    rcases List.mem_append.mp he with he | he
    · have hplace := h.bytes e he
      rw [List.getElem?_append_left (List.getElem?_eq_some_iff.mp hplace).1]
      exact hplace
    · cases List.mem_singleton.mp he
      exact List.getElem?_concat_length
  · rcases h.firsts with hfirsts | ⟨-, hfirsts⟩
    · exact .inl hfirsts
    · exact .inr ⟨by simp, hfirsts⟩

/-- Bundles more, with the numbers that come next. -/
theorem storeAll (h : w.Stock q gone) {seq : Nat} (hlast : ∀ e ∈ q, e.1 < seq) (bundles : List Bytes)
    (hsmall : seq + bundles.length ≤ 10 ^ 12) :
    ∃ more, (w.storeAll seq bundles).1.Stock (q ++ more) gone ∧
      (∀ e ∈ q ++ more, e.1 < (w.storeAll seq bundles).2) ∧
      (w.storeAll seq bundles).1.firsts = w.firsts ∧
      (w.storeAll seq bundles).1.acked = w.acked := by
  induction bundles generalizing w q seq with
  | nil =>
      refine ⟨[], ?_, ?_, rfl, rfl⟩
      · rw [List.append_nil]
        exact h
      · rw [List.append_nil]
        exact hlast
  | cons bundle bundles ih =>
      rw [List.length_cons] at hsmall
      have hinc : inc seq = seq + 1 := if_pos (by omega)
      have hlast' : ∀ e ∈ q ++ [(seq, ({ bytes := bundle, add := w.added.length } : File))],
          e.1 < inc seq := by
        intro e he
        rw [hinc]
        rcases List.mem_append.mp he with he | he
        · have := hlast e he
          omega
        · cases List.mem_singleton.mp he
          exact Nat.lt_succ_self seq
      obtain ⟨more, hstock, hnext, hfirsts, hacked⟩ :=
        ih (h.store hlast (by omega) bundle) hlast' (by rw [hinc]; omega)
      refine ⟨(seq, { bytes := bundle, add := w.added.length }) :: more, ?_, ?_, hfirsts, hacked⟩
      · rw [List.append_cons]
        exact hstock
      · rw [List.append_cons]
        exact hnext

/-- The oldest bundle is taken away. -/
theorem done {n : Nat} {file : File} {rest : List (Nat × File)} (h : w.Stock ((n, file) :: rest) gone)
    (hacked : gone ∈ w.acked) (hfirsts : w.firsts = List.range (gone + 1)) :
    ({ w with dir := Spool.done w.dir (fileName n) } : World).Stock rest (gone + 1) := by
  have hadds := h.adds
  have htotal := h.total
  rw [List.map_cons, List.length_cons, List.range'_succ] at hadds
  rw [List.length_cons] at htotal
  refine ⟨h.holds.done, (List.cons.inj hadds).2, ?_, fun e he => h.bytes e (List.mem_cons_of_mem _ he),
    ?_, .inl hfirsts⟩
  · show gone + 1 + rest.length = w.added.length
    omega
  · intro k hk
    rcases Nat.lt_succ_iff_lt_or_eq.mp hk with hk | rfl
    · exact h.acked k hk
    · exact hacked

/-- **The spool holds what is not acknowledged, and has been sent from in order.** -/
theorem stays (h : w.Stock q gone) (k : Nat) (bytes : Bytes) (hk : w.added[k]? = some bytes) :
    k ∈ w.acked ∨ { bytes := bytes, add := k } ∈ w.waiting := by
  by_cases hgone : k < gone
  · exact .inl (h.acked k hgone)
  · right
    have hlt : k < w.added.length := (List.getElem?_eq_some_iff.mp hk).1
    have hmem : k ∈ q.map fun e => e.2.add := by
      rw [h.adds, List.mem_range'_1]
      have := h.total
      omega
    obtain ⟨e, he, rfl⟩ := List.mem_map.mp hmem
    rw [h.waiting_eq]
    refine List.mem_map.mpr ⟨e, he, ?_⟩
    have hbytes := h.bytes e he
    rw [hk] at hbytes
    rw [Option.some.inj hbytes]

theorem order (h : w.Stock q gone) : w.firsts = List.range w.firsts.length := by
  rcases h.firsts with hfirsts | ⟨-, hfirsts⟩ <;> rw [hfirsts, List.length_range]

end Stock

/-! ## Every step -/

/-- What the loop has when it goes on. -/
structure Ready (w : World) (q : List (Nat × File)) (gone : Nat) (p : Process) : Prop where
  stock : w.Stock q gone
  seq : ∀ e ∈ q, e.1 < p.seq
  session : ∀ s, p.session = some s → s.Steady
  acked : ∀ k ∈ p.acked, k < gone

section Step

variable {w : World} {q : List (Nat × File)} {gone : Nat} {p : Process}

theorem Ready.fail (h : w.Ready q gone p) : (w.fail p).Inv q gone := by
  unfold World.fail
  split
  · refine ⟨h.stock.congr rfl rfl rfl rfl, ?_⟩
    rintro _ ⟨⟩
    exact ⟨h.seq, h.session, trivial, fun k hk => .inl (h.acked k hk)⟩
  · refine ⟨h.stock.congr rfl rfl rfl rfl, ?_⟩
    rintro _ ⟨⟩
    exact ⟨h.seq, fun s hs => (by cases hs), trivial, fun k hk => .inl (h.acked k hk)⟩

/-- **The oldest bundle is the one that is sent**, or the spool is empty and the loop sleeps. -/
theorem Ready.next (h : w.Ready q gone p) {s : Session} (hs : s.Steady) :
    (w.next p s).Inv q gone := by
  unfold World.next
  rw [h.stock.holds.list_eq]
  cases q with
  | nil =>
      refine ⟨h.stock.congr rfl rfl rfl rfl, ?_⟩
      rintro _ ⟨⟩
      exact ⟨h.seq, fun s' hs' => Option.some.inj hs' ▸ hs, rfl, fun k hk => .inl (h.acked k hk)⟩
  | cons e rest =>
      obtain ⟨n, file⟩ := e
      have hget : w.dir.get? (fileName n) = some file := h.stock.holds.get? (e := (n, file)) List.mem_cons_self
      have hadd : file.add = gone := h.stock.add_head
      rw [List.map_cons, List.head?_cons]
      dsimp only
      rw [hget]
      dsimp only
      -- The new session, and what may be said of it while the promise is open.
      have running : ∀ {outcome : Option Bool} {w' : World},
          (outcome = none → (s.send file.bytes).pending.get? s.nextTransferId = some file.bytes.length) →
          (outcome ≠ some false → w'.firsts = List.range (gone + 1)) → outcome ≠ some true →
          w'.Running ((n, file) :: rest) gone { p with
            session := some (s.send file.bytes)
            wait := .sent (fileName n) s.nextTransferId outcome } := by
        intro outcome w' hopen hfirst hnot
        refine ⟨h.seq, ?_, ⟨⟨n, file, rest, rfl, rfl, ?_⟩, hfirst, fun htrue => absurd htrue hnot⟩,
          fun k hk => .inl (h.acked k hk)⟩
        · rintro _ ⟨⟩
          exact hs.send _
        · rintro _ ⟨⟩ hnone
          exact hopen hnone
      have unsent : ∀ {outs : List Output}, outs.any isWrite = false →
          (if outs.any isWrite = true ∧ file.add ∉ w.firsts then w.firsts ++ [file.add] else w.firsts)
            = w.firsts := by
        intro outs hnone
        rw [if_neg]
        rintro ⟨hsome, -⟩
        rw [hnone] at hsome
        cases hsome
      rcases Session.send_starts hs file.bytes with ⟨err, hsend⟩ | ⟨outs, hlog, hstart⟩
      · have houts : (s.send file.bytes).log.drop s.log.length = [.refused err] := by
          rw [hsend]
          exact List.drop_left
        rw [houts, unsent rfl]
        refine ⟨h.stock.congr rfl rfl rfl rfl, ?_⟩
        rintro _ ⟨⟩
        exact running (fun hnone => (by cases hnone)) (fun hne => absurd rfl hne) (by simp [begun])
      · rw [hlog, List.drop_left]
        rcases hstart with ⟨err, rfl⟩ | ⟨hopen, bytes, more, rfl⟩
        · rw [unsent rfl]
          have hfalse : begun s.nextTransferId [.rejected s.nextTransferId err] = some false := by
            simp [begun, settlement, Output.settles]
          refine ⟨h.stock.congr rfl rfl rfl rfl, ?_⟩
          rintro _ ⟨⟩
          rw [hfalse]
          exact running (fun hnone => (by cases hnone)) (fun hne => absurd rfl hne) (by simp)
        · have hnone : begun s.nextTransferId ((bytes :: more).map .write) = none := by
            have hrefused : ∀ bs : List Bytes, (bs.map Output.write).any
                (fun o => match o with | .refused _ => true | _ => false) = false := by
              intro bs
              induction bs with
              | nil => rfl
              | cons b bs ih => exact ih
            have hsettled : ∀ bs : List Bytes, settlement s.nextTransferId (bs.map .write) = none := by
              intro bs
              induction bs with
              | nil => rfl
              | cons b bs ih => exact ih
            rw [begun, hrefused, hsettled]
            rfl
          have hwrites : ((bytes :: more).map Output.write).any isWrite = true := rfl
          -- It is recorded if it is the first time.
          have hfirsts : (if ((bytes :: more).map Output.write).any isWrite = true ∧
              file.add ∉ w.firsts then w.firsts ++ [file.add] else w.firsts)
                = List.range (gone + 1) := by
            rw [hadd, hwrites]
            rcases h.stock.firsts with hfirsts | ⟨-, hfirsts⟩
            · rw [if_pos ⟨rfl, by rw [hfirsts]; simp⟩, hfirsts, List.range_succ]
            · rw [if_neg (by rw [hfirsts]; simp), hfirsts]
          rw [hfirsts, hnone]
          refine ⟨⟨h.stock.holds, h.stock.adds, h.stock.total, h.stock.bytes, h.stock.acked,
            .inr ⟨by simp, rfl⟩⟩, ?_⟩
          rintro _ ⟨⟩
          exact running (fun _ => hopen) (fun _ => rfl) (by simp)

theorem Ready.top (h : w.Ready q gone p) : (w.top p).Inv q gone := by
  unfold World.top
  split
  · refine ⟨h.stock.congr rfl rfl rfl rfl, ?_⟩
    rintro _ ⟨⟩
    exact ⟨h.seq, h.session, trivial, fun k hk => .inl (h.acked k hk)⟩
  · split
    · refine ⟨h.stock.congr rfl rfl rfl rfl, ?_⟩
      rintro _ ⟨⟩
      exact ⟨h.seq, h.session, trivial, fun k hk => .inl (h.acked k hk)⟩
    · rename_i s hsession
      exact h.next (h.session s hsession)

/-- Waking the loop takes nothing from what is known of it. -/
theorem Running.kick (h : w.Running q gone p) : w.Running q gone p.kick := by
  unfold Process.kick
  split
  · rename_i called hwait
    refine ⟨h.seq, h.session, trivial, fun k hk => ?_⟩
    rcases h.acked k hk with hgone | ⟨-, name, transferId, htold⟩
    · exact .inl hgone
    · rw [hwait] at htold
      cases htold
  · exact h

/-- A loop that has not been told of an acknowledgement has read none for the oldest bundle. -/
theorem Running.ready (hstock : w.Stock q gone) (h : w.Running q gone p)
    (hnot : ∀ name transferId, p.wait ≠ .sent name transferId (some true)) : w.Ready q gone p := by
  refine ⟨hstock, h.seq, h.session, fun k hk => ?_⟩
  rcases h.acked k hk with hgone | ⟨-, name, transferId, htold⟩
  · exact hgone
  · exact absurd htold (hnot name transferId)

/-- More has been acknowledged. -/
theorem Stock.acknowledged (h : w.Stock q gone) {w' : World} (more : List Nat) (hdir : w'.dir = w.dir)
    (hadded : w'.added = w.added) (hacked : w'.acked = w.acked ++ more)
    (hfirsts : w'.firsts = w.firsts) : w'.Stock q gone :=
  ⟨hdir ▸ h.holds, h.adds, hadded ▸ h.total, hadded ▸ h.bytes,
    fun k hk => hacked ▸ List.mem_append_left _ (h.acked k hk), hfirsts ▸ h.firsts⟩

/-- Where no promise is open, the session does not matter to the loop. -/
theorem Running.aside (h : w.Running q gone p)
    (hnot : ∀ name transferId, p.wait ≠ .sent name transferId none) {w' : World} {p' : Process}
    (hseq : p'.seq = p.seq) (hwait : p'.wait = p.wait) (hacked : p'.acked = p.acked)
    (hsession : ∀ s, p'.session = some s → s.Steady) (hfirsts : w'.firsts = w.firsts)
    (hmore : ∀ k ∈ w.acked, k ∈ w'.acked) : w'.Running q gone p' := by
  refine ⟨hseq ▸ h.seq, hsession, ?_, ?_⟩
  · have hwaits := h.wait
    unfold Waits at hwaits ⊢
    rw [hwait]
    split at hwaits
    · exact hwaits
    · obtain ⟨⟨n, file, rest, hq, hname, -⟩, hfirst, htrue⟩ := hwaits
      rename_i name transferId outcome hsent
      refine ⟨⟨n, file, rest, hq, hname, ?_⟩, fun hne => hfirsts.trans (hfirst hne),
        fun hsome => hmore _ (htrue hsome)⟩
      rintro s - rfl
      exact absurd hsent (hnot name transferId)
    · exact hwaits
  · rw [hacked]
    unfold Told
    rw [hwait]
    exact h.acked

theorem readsAck_of_not (hnot : ∀ name transferId, p.wait ≠ .sent name transferId none) (s : Session)
    (e : Tcpcl4.Event) : w.readsAck p s e = [] := by
  unfold readsAck
  split
  · rename_i hwait
    exact absurd hwait (hnot _ _)
  · rfl

/-- **An event of the session tells the loop of the final acknowledgement, exactly when it is read.** -/
theorem Inv.onEvent (h : w.Inv q gone) (hp : w.process = some p) {s : Session}
    (hs : p.session = some s) {e : Tcpcl4.Event} (hsend : isSend e = false) :
    (w.onEvent p s e).Inv q gone := by
  have hrunning := h.process p hp
  have hsteady : (s.handle e).Steady := (hrunning.session s hs).handle e
  have hnosend : ∀ bundle, e ≠ .send bundle := by
    rintro bundle rfl
    cases hsend
  refine ⟨h.stock.acknowledged (w.readsAck p s e) rfl rfl rfl rfl, ?_⟩
  rintro _ ⟨⟩
  -- Whether the session is kept or forgotten, and the loop woken, is the same to the rest.
  suffices hboth : ∀ session, session = none ∨ session = some (s.handle e) →
      (w.onEvent p s e).Running q gone { p with
        session := session
        wait := match p.wait with
          | .sent name transferId none =>
              .sent name transferId
                (settlement transferId ((s.handle e).log.drop s.log.length))
          | wait => wait
        acked := p.acked ++ w.readsAck p s e } by
    split
    · exact (hboth none (.inl rfl)).kick
    · exact hboth _ (.inr rfl)
  intro session hsession
  have hsteady' : ∀ s', session = some s' → s'.Steady := by
    intro s' hs'
    rcases hsession with rfl | rfl
    · cases hs'
    · exact Option.some.inj hs' ▸ hsteady
  by_cases hopen : ∃ name transferId, p.wait = .sent name transferId none
  · obtain ⟨name, transferId, hwait⟩ := hopen
    have hwaits := hrunning.wait
    unfold Waits at hwaits
    rw [hwait] at hwaits
    obtain ⟨⟨n, file, rest, rfl, rfl, hpending⟩, hfirsts, -⟩ := hwaits
    replace hpending := hpending s hs rfl
    obtain ⟨r, hspends, hiff⟩ := Session.spends_handle hpending hnosend
    obtain ⟨outs, hlog, hr⟩ := hspends.log
    have hget : w.dir.get? (fileName n) = some file :=
      h.stock.holds.get? (e := (n, file)) List.mem_cons_self
    have hadd : file.add = gone := h.stock.add_head
    have hreads : w.readsAck p s e = if r = some true then [gone] else [] := by
      unfold readsAck
      rw [hwait]
      dsimp only
      rw [hget]
      dsimp only
      rw [hadd]
      refine if_congr ?_ rfl rfl
      rw [hiff, List.any_eq_true]
    rw [hwait, hreads]
    dsimp only
    rw [hlog, List.drop_left, hr]
    refine ⟨hrunning.seq, hsteady', ⟨⟨n, file, rest, rfl, rfl, ?_⟩, fun _ => hfirsts (by simp), ?_⟩, ?_⟩
    · rintro s' rfl hnone
      rcases hsession with hsession | hsession
      · cases hsession
      · cases hsession
        rw [hspends.kept hnone]
        exact hpending
    · intro hsome
      show gone ∈ w.acked ++ w.readsAck p s e
      rw [hreads, if_pos hsome]
      exact List.mem_append_right _ List.mem_cons_self
    · intro k hk
      rcases List.mem_append.mp hk with hk | hk
      · rcases hrunning.acked k hk with hgone | ⟨-, name, id, htold⟩
        · exact .inl hgone
        · rw [hwait] at htold
          cases htold
      · split at hk
        · rename_i hsome
          refine .inr ⟨List.mem_singleton.mp hk, fileName n, transferId, ?_⟩
          rw [hsome]
        · exact (List.not_mem_nil hk).elim
  · have hnot : ∀ name transferId, p.wait ≠ .sent name transferId none :=
      fun name transferId hwait => hopen ⟨name, transferId, hwait⟩
    refine hrunning.aside hnot rfl ?_ ?_ hsteady' rfl fun k hk => List.mem_append_left _ hk
    · dsimp only
      split
      · rename_i hwait
        exact absurd hwait (hnot _ _)
      · rfl
    · show p.acked ++ w.readsAck p s e = p.acked
      rw [readsAck_of_not hnot, List.append_nil]

theorem kick_of_ne (h : ∀ called, p.wait ≠ .kick called) : p.kick = p := by
  unfold Process.kick
  split
  · rename_i hwait
    exact absurd hwait (h _)
  · rfl

/-- More bundles behind the others: the loop is woken. -/
theorem Running.fromIp (h : w.Running q gone p) {w' : World} (more : List (Nat × File)) {seq : Nat}
    (hseq : ∀ e ∈ q ++ more, e.1 < seq) (hfirsts : w'.firsts = w.firsts)
    (hacked : w'.acked = w.acked) :
    w'.Running (q ++ more) gone ({ p with seq := seq } : Process).kick := by
  by_cases hsleeps : ∃ called, p.wait = .kick called
  · obtain ⟨called, hwait⟩ := hsleeps
    have hkick : ({ p with seq := seq } : Process).kick = { p with seq := seq, wait := .kick true } := by
      unfold Process.kick
      dsimp only
      rw [hwait]
    rw [hkick]
    refine ⟨hseq, h.session, trivial, fun k hk => ?_⟩
    rcases h.acked k hk with hgone | ⟨-, name, id, htold⟩
    · exact .inl hgone
    · rw [hwait] at htold
      cases htold
  · have hnot : ∀ called, p.wait ≠ .kick called := fun called hwait => hsleeps ⟨called, hwait⟩
    rw [kick_of_ne (p := { p with seq := seq }) hnot]
    refine ⟨hseq, h.session, ?_, h.acked⟩
    have hwaits := h.wait
    unfold Waits at hwaits ⊢
    dsimp only
    split at hwaits
    · rename_i hwait
      exact absurd hwait (hnot _)
    · obtain ⟨⟨n, file, rest, rfl, hname, hopen⟩, hfirst, htrue⟩ := hwaits
      exact ⟨⟨n, file, rest ++ more, rfl, hname, hopen⟩, fun hne => hfirsts.trans (hfirst hne),
        fun hsome => hacked ▸ htrue hsome⟩
    · trivial

/-- **The loop goes on**: what it has read the acknowledgement of is gone then. -/
theorem Inv.resume (h : w.Inv q gone) (hp : w.process = some p) :
    ∃ q' gone', (w.step .resume).Inv q' gone' ∧ ∀ k ∈ p.acked, k < gone' := by
  have hrunning := h.process p hp
  have hwaits := hrunning.wait
  unfold World.step Waits at *
  rw [hp]
  dsimp only
  cases hwait : p.wait with
  | sent name transferId outcome =>
      rw [hwait] at hwaits
      obtain ⟨⟨n, file, rest, rfl, rfl, -⟩, hfirsts, htrue⟩ := hwaits
      cases outcome with
      | none =>
          have hready := hrunning.ready h.stock (by rw [hwait]; simp)
          exact ⟨_, _, h, hready.acked⟩
      | some b =>
          cases b with
          | true =>
              refine ⟨rest, gone + 1, ?_, fun k hk => ?_⟩
              · refine Ready.top ⟨(h.stock.done (htrue rfl) (hfirsts (by simp))).congr rfl rfl rfl rfl,
                  fun e he => hrunning.seq e (List.mem_cons_of_mem _ he), hrunning.session, ?_⟩
                intro k hk
                rcases hrunning.acked k hk with hgone | ⟨rfl, -⟩ <;> omega
              · rcases hrunning.acked k hk with hgone | ⟨rfl, -⟩ <;> omega
          | false =>
              have hready := hrunning.ready h.stock (by rw [hwait]; simp)
              exact ⟨_, _, hready.fail, hready.acked⟩
  | kick called =>
      have hready := hrunning.ready h.stock (by rw [hwait]; simp)
      cases called with
      | true => exact ⟨_, _, hready.top, hready.acked⟩
      | false => exact ⟨_, _, h, hready.acked⟩
  | retry =>
      have hready := hrunning.ready h.stock (by rw [hwait]; simp)
      exact ⟨_, _, hready.top, hready.acked⟩
  | connect =>
      have hready := hrunning.ready h.stock (by rw [hwait]; simp)
      exact ⟨_, _, h, hready.acked⟩
  | _ =>
      have hready := hrunning.ready h.stock (by rw [hwait]; simp)
      exact ⟨_, _, h, hready.acked⟩

/-- **Every step keeps the queue.** -/
theorem Inv.step (h : w.Inv q gone) {a : Act} (hshort : w.ShortStep a) :
    ∃ q' gone', (w.step a).Inv q' gone' := by
  cases hp : w.process with
  | none =>
      have hsame : ∀ {a}, a ≠ .start → w.step a = w := by
        intro a ha
        unfold World.step
        rw [hp]
        cases a with
        | start => exact absurd rfl ha
        | _ => rfl
      by_cases hstart : a = .start
      · subst hstart
        have hstep : w.step .start = w.top { seq := firstSeq w.dir } := by
          unfold World.step
          rw [hp]
        rw [hstep]
        exact ⟨q, gone, Ready.top ⟨h.stock, h.stock.holds.firstSeq.1, fun s hs => (by cases hs),
          fun k hk => (List.not_mem_nil hk).elim⟩⟩
      · rw [hsame hstart]
        exact ⟨q, gone, h⟩
  | some p =>
      have hrunning := h.process p hp
      cases a with
      | resume =>
          obtain ⟨q', gone', hinv, -⟩ := h.resume hp
          exact ⟨q', gone', hinv⟩
      | start =>
          have hstep : w.step .start = w := by
            unfold World.step
            rw [hp]
          rw [hstep]
          exact ⟨q, gone, h⟩
      | crash =>
          refine ⟨q, gone, ?_⟩
          unfold World.step
          rw [hp]
          exact ⟨h.stock.congr rfl rfl rfl rfl, fun p' hp' => (by cases hp')⟩
      | crashAdding bundles torn =>
          obtain ⟨more, hstock, -, -, -⟩ := h.stock.storeAll hrunning.seq bundles (hshort p hp)
          refine ⟨q ++ more, gone, ?_⟩
          unfold World.step
          rw [hp]
          refine ⟨⟨hstock.holds.set_other (not_isBundle_tmpName _) _, hstock.adds, hstock.total,
            hstock.bytes, hstock.acked, hstock.firsts⟩, fun p' hp' => (by cases hp')⟩
      | fromIp bundles =>
          obtain ⟨more, hstock, hseq, hfirsts, hacked⟩ :=
            h.stock.storeAll hrunning.seq bundles (hshort p hp)
          refine ⟨q ++ more, gone, ?_⟩
          unfold World.step
          rw [hp]
          refine ⟨hstock.congr rfl rfl rfl rfl, ?_⟩
          rintro _ ⟨⟩
          exact hrunning.fromIp more hseq hfirsts hacked
      | connected es =>
          refine ⟨q, gone, ?_⟩
          unfold World.step
          rw [hp]
          dsimp only
          split
          · rename_i hconnected
            have hready := hrunning.ready h.stock (by rw [hconnected.1]; simp)
            exact hready.next ((Session.steady_new w.opts).run es)
          · exact h
      | connectFailed =>
          refine ⟨q, gone, ?_⟩
          unfold World.step
          rw [hp]
          dsimp only
          split
          · rename_i hconnect
            exact (hrunning.ready h.stock (by rw [hconnect]; simp)).fail
          · exact h
      | session e =>
          refine ⟨q, gone, ?_⟩
          unfold World.step
          rw [hp]
          dsimp only
          split
          · rename_i s hs
            split
            · exact h
            · rename_i hsend
              exact h.onEvent hp hs (by simpa using hsend)
          · exact h
      | stop =>
          refine ⟨q, gone, ?_⟩
          unfold World.step
          rw [hp]
          refine ⟨h.stock.congr rfl rfl rfl rfl, ?_⟩
          rintro _ ⟨⟩
          apply Running.kick
          have hsessions : ∀ s', p.session.map (fun s : Session => s.close) = some s' →
              ∃ s, p.session = some s ∧ s.close = s' := fun s' hs' => Option.map_eq_some_iff.mp hs'
          refine ⟨hrunning.seq, ?_, ?_, hrunning.acked⟩
          · intro s' hs'
            obtain ⟨s, hs, rfl⟩ := hsessions s' hs'
            exact (hrunning.session s hs).write _
          · have hwaits := hrunning.wait
            unfold Waits at hwaits ⊢
            dsimp only
            split at hwaits
            · exact hwaits
            · obtain ⟨⟨n, file, rest, hq, hname, hopen⟩, hfirst, htrue⟩ := hwaits
              refine ⟨⟨n, file, rest, hq, hname, fun s' hs' hnone => ?_⟩, hfirst, htrue⟩
              obtain ⟨s, hs, rfl⟩ := hsessions s' hs'
              rw [← hopen s hs hnone]
              show (s.write _).pending.get? _ = _
              unfold Session.write
              split <;> rfl
            · trivial

end Step

theorem Inv.run {w : World} {q : List (Nat × File)} {gone : Nat} (h : w.Inv q gone) (as : List Act)
    (hshort : ShortRun w as) : ∃ q' gone', (w.run as).Inv q' gone' := by
  induction as generalizing w q gone with
  | nil => exact ⟨q, gone, h⟩
  | cons a as ih =>
      obtain ⟨q', gone', hstep⟩ := h.step hshort.1
      exact ih hstep hshort.2

theorem Inv.kept {w : World} {q : List (Nat × File)} {gone : Nat} (h : w.Inv q gone) : w.Kept := by
  refine ⟨h.stock.stays, ?_, h.stock.order, ?_⟩
  · intro p hp k hk hstill
    obtain ⟨q', gone', hinv, hgone⟩ := h.resume hp
    rw [hinv.stock.waiting_eq, List.map_map] at hstill
    have hrange : k ∈ List.range' gone' q'.length := by
      rw [← hinv.stock.adds]
      exact hstill
    have := (List.mem_range'_1.mp hrange).1
    have := hgone k hk
    omega
  · intro p hp hwait
    have hwaits := (h.process p hp).wait
    unfold Waits at hwaits
    rw [hwait] at hwaits
    rw [h.stock.waiting_eq, show q = [] from hwaits]
    rfl

/-- The files that the directory begins with. -/
theorem inv_new (opts : Options) {files : List (Nat × Bytes)}
    (horder : (files.map Prod.fst).Pairwise (· < ·)) (hsmall : ∀ f ∈ files, f.1 < 10 ^ 12) :
    ∃ q, (new opts files).Inv q 0 := by
  have hall : ∀ (files : List (Nat × Bytes)) (w : World) (q : List (Nat × File)), w.Stock q 0 →
      w.process = none → (files.map Prod.fst).Pairwise (· < ·) → (∀ f ∈ files, f.1 < 10 ^ 12) →
      (∀ e ∈ q, ∀ f ∈ files, e.1 < f.1) →
      ∃ q', (files.foldl (fun w f => w.store f.1 f.2) w).Stock q' 0 ∧
        (files.foldl (fun w f => w.store f.1 f.2) w).process = none := by
    intro files
    induction files with
    | nil => exact fun w q h hnone _ _ _ => ⟨q, h, hnone⟩
    | cons f files ih =>
        intro w q h hnone horder hsmall hbefore
        rw [List.map_cons, List.pairwise_cons] at horder
        refine ih _ _ (h.store (fun e he => hbefore e he f List.mem_cons_self)
          (hsmall f List.mem_cons_self) f.2) hnone horder.2
          (fun g hg => hsmall g (List.mem_cons_of_mem _ hg)) ?_
        intro e he g hg
        rcases List.mem_append.mp he with he | he
        · exact hbefore e he g (List.mem_cons_of_mem _ hg)
        · cases List.mem_singleton.mp he
          exact horder.1 g.1 (List.mem_map.mpr ⟨g, hg, rfl⟩)
  have hempty : ({ opts := opts, dir := .empty } : World).Stock [] 0 := by
    refine ⟨⟨fun name file _ => ?_, List.Pairwise.nil, fun e he => (List.not_mem_nil he).elim⟩, rfl, rfl,
      fun e he => (List.not_mem_nil he).elim, fun k hk => absurd hk (Nat.not_lt_zero k), .inl rfl⟩
    constructor
    · rintro ⟨⟩
    · rintro ⟨n, hn, -⟩
      exact (List.not_mem_nil hn).elim
  obtain ⟨q, hstock, hnone⟩ := hall files _ [] hempty rfl horder hsmall
    fun e he => (List.not_mem_nil he).elim
  refine ⟨q, hstock, fun p hp => ?_⟩
  replace hp : (new opts files).process = some p := hp
  rw [show (new opts files).process = none from hnone] at hp
  cases hp

end World

/-- **What keeps every bundle, in order.** From any directory with files of the spool, in every run of
ingress, session events, lost sessions, stops and restarts, in which all sequence numbers have at most
twelve digits: a bundle stays in the spool until its final acknowledgement has been read, and is gone when
the loop goes on; the first transmissions are in the order of the calls of `add`; and the loop sleeps on
an empty spool only. -/
theorem spool_kept (opts : Options) (files : List (Nat × Bytes)) (as : List Act)
    (horder : (files.map Prod.fst).Pairwise (· < ·)) (hsmall : ∀ f ∈ files, f.1 < 10 ^ 12)
    (hshort : World.ShortRun (.new opts files) as) : ((World.new opts files).run as).Kept := by
  obtain ⟨q, hinv⟩ := World.inv_new opts horder hsmall
  obtain ⟨q', gone', hrun⟩ := hinv.run as hshort
  exact hrun.kept

/-- A gateway whose bundles have a byte. -/
def gatewayOptions : Options where
  active := true
  nodeId := js "ipn:1.0"
  keepalive_lt := default_keepalive_lt
  segmentMru_lt := by decide
  transferMru_lt := by decide
  nodeId_lt := sampleNodeId_lt

/-- One bundle from before the start and one from after it: the first is sent, acknowledged and taken
away, then the session is lost while the second is being sent. -/
theorem spool_kept_sample :
    ((World.new gatewayOptions [(7, [1])]).run
      [.start, .fromIp [[2]], .connected peerHandshake, .session (.data (encodeAck 3 0 1)), .resume,
       .session (.lost none), .resume, .crash, .start]).Kept :=
  spool_kept gatewayOptions [(7, [1])] _ (by decide) (by decide) (by decide +kernel)

example : ((World.new gatewayOptions [(7, [1])]).run
    [.start, .fromIp [[2]], .connected peerHandshake, .session (.data (encodeAck 3 0 1)), .resume]).firsts
      = [0, 1] := by
  decide +kernel

/-- **The thirteenth digit overtakes**: with the largest number of twelve digits in the spool, the bundle
that comes next is transmitted first. -/
theorem spool_overtaken :
    ¬ ∀ (opts : Options) (files : List (Nat × Bytes)) (as : List Act),
      (files.map Prod.fst).Pairwise (· < ·) → ((World.new opts files).run as).Kept := by
  intro hkept
  have horder := (hkept gatewayOptions [(999999999999, [1])]
    [.start, .fromIp [[2]], .connected peerHandshake] (by decide)).order
  revert horder
  decide +kernel

end Pump

end DtnCustody
