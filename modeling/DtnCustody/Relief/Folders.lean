/-
# DtnCustody.Relief.Folders — where `persist` of `relief/kit/node.mjs` writes.

A verified report is written below the inbox: a directory named by its identifier, in which the
characters that are not safe have become underscores, with the file under the last part of its own name
and the evidence beside it. Both names come from a clinic. Where identifiers differ in what is left of
them, are no dot segments and are not too long, and where file names are not those of directories or
of the evidence, the inbox holds every report in a directory of its own (`inbox_faithful`).

The directory of the node is the root of the tree here, and the file system is one with `/` between
names and NUL in none.
-/
import DtnCustody.Base.FileTree
import DtnCustody.Relief.Hub
import DtnCustody.Relief.PaidFor

namespace DtnCustody

open Base Base.FileTree Js

namespace Relief

/-! ## Names and paths -/

/-- How long a name may be, in bytes. -/
structure FileSystem where
  nameMax : Nat
  evidence_fits : (toUtf8 (js "evidence.json")).length ≤ nameMax

def FileSystem.takes (fs : FileSystem) (name : JsString) : Bool :=
  decide (0 ∉ name) && decide ((toUtf8 name).length ≤ fs.nameMax)

abbrev Tree := FileTree.Tree JsString Bytes

/-- `basename(name)`, of a string. -/
def basename (name : JsString) : JsString :=
  ((name.reverse.dropWhile (· = 47)).takeWhile (· ≠ 47)).reverse

/-- `join(path, name)`, for a name without a slash. -/
def joinName (path : List JsString) (name : JsString) : List JsString :=
  if name = [] ∨ name = js "." then path
  else if name = js ".." then path.dropLast
  else path ++ [name]

def inboxPath : List JsString := [js "inbox"]

/-- What a failed call throws. -/
def faultError : Fault → Err
  | .name => .error "ENAMETOOLONG"
  | .exists => .error "EEXIST"
  | .isDirectory => .error "EISDIR"
  | .noDirectory => .error "ENOENT"

/-! ## Evidence -/

/-- A property, which is left out if it is `undefined`. -/
def present (name : String) (v : JsonVal) : List (JsString × Json) := v.toList.map fun v => (js name, v)

/-- An element of a list, where `undefined` is printed as `null`. -/
def element (v : JsonVal) : Json := v.getD .null

def Hop.json (h : Hop) : Json :=
  .obj (present "from" h.fromEid ++ present "to" h.toEid ++ [(js "transitMs", .num h.transitMs)])

/-- `{ payloadId: id, ...evidence }`: the report without its bytes. -/
def evidenceJson (id : JsonVal) (r : Verified) : Json :=
  .obj (present "payloadId" id ++ [(js "status", .text "verified")] ++ present "clinic" r.clinic ++
    present "root" r.root ++ present "chunkCount" r.chunkCount ++ present "createdAt" r.createdAt ++
    [(js "verifiedAt", .int r.verifiedAt),
      (js "file", .obj (present "name" r.fileName ++ present "type" r.fileType ++
        [(js "size", .int r.fileSize)])),
      (js "summary", r.summary), (js "route", .arr (r.route.map element)),
      (js "hops", .arr (r.hops.map Hop.json)), (js "resends", .int r.resends),
      (js "holds", .arr (r.holds.map Hop.json))])

variable (fs : FileSystem) (pretty : Json → JsString)

/-- `JSON.stringify(…, null, 2) + "\n"`, with `pretty` for the text on several lines. -/
def evidenceText (id : JsonVal) (r : Verified) : Bytes := toUtf8 (pretty (evidenceJson id r) ++ [10])

/-! ## Writing a report -/

/-- The tree, and the paths that were made or written. -/
structure Disc where
  tree : Tree
  wrote : List (List JsString) := []

def Disc.makeDirs (d : Disc) (path : List JsString) : Outcome Disc :=
  match FileTree.makeDirs fs.takes d.tree path with
  | .ok tree => .ok { tree, wrote := d.wrote ++ [path] }
  | .error fault => .error (faultError fault)

def Disc.writeFile (d : Disc) (path : List JsString) (bytes : Bytes) : Outcome Disc :=
  match FileTree.writeFile fs.takes d.tree path bytes with
  | .ok tree => .ok { tree, wrote := d.wrote ++ [path] }
  | .error fault => .error (faultError fault)

/-- `basename(r.file.name)`, which takes strings only. -/
def baseOf : JsonVal → Outcome JsString
  | some (.str s) => .ok (basename s)
  | _ => .error .typeError

/-- The calls of `persist` in their order, up to the first that throws; what those before it wrote
stays. -/
def fileReport (d : Disc) (id : JsonVal) (r : Verified) : Outcome Unit × Disc :=
  match safe id with
  | .error e => (.error e, d)
  | .ok name =>
      let out := joinName inboxPath name
      match d.makeDirs fs out with
      | .error e => (.error e, d)
      | .ok d =>
          match (do d.writeFile fs (joinName out (← baseOf r.fileName)) r.bytes : Outcome Disc) with
          | .error e => (.error e, d)
          | .ok d =>
              match d.writeFile fs (joinName out (js "evidence.json")) (evidenceText pretty id r) with
              | .error e => (.error e, d)
              | .ok d => (.ok (), d)

/-! ## The node -/

/-- A report that was written, and where. -/
structure Written where
  id : JsonVal
  report : Verified
  wrote : List (List JsString)

/-- The hub, the identifiers of the reports written, the tree, and what was written for each. -/
structure FilingNode where
  hub : Hub := {}
  written : List Prim := []
  tree : Tree
  filed : List Written := []

/-- `written.add(id)`; an object is found only as itself. -/
def addWritten (written : List Prim) (id : JsonVal) : List Prim :=
  match JsonVal.key? id with
  | some p => written ++ [p]
  | none => written

/-- `persist(id)`. -/
def FilingNode.persist (s : FilingNode) (id : JsonVal) : Outcome Unit × FilingNode :=
  if JsonVal.truthy id = false then (.ok (), s)
  else
    match s.hub.reportFor id with
    | some (.verified r) =>
        if (JsonVal.key? id).any (· ∈ s.written) then (.ok (), s)
        else
          let x := fileReport fs pretty { tree := s.tree } id r
          (x.1, { s with
            written := addWritten s.written id
            tree := x.2.tree
            filed := s.filed ++ [{ id, report := r, wrote := x.2.wrote }] })
    | _ => (.ok (), s)

/-- What ends a node. -/
inductive Halt where
  | ingest (e : Err)
  | persist (e : Err)

variable (H : ReliefHost) (cfg : HubConfig)

/-- A run of frames, each under the directory of its moment. -/
def FilingNode.serve (s : FilingNode) : List (Directory × Arrival) → Option Halt × FilingNode
  | [] => (none, s)
  | (d, x) :: rest =>
      match s.hub.ingest H (cfg.under d) x with
      | (.error e, hub) => (some (.ingest e), { s with hub })
      | (.ok id, hub) =>
          match FilingNode.persist fs pretty { s with hub } id with
          | (.error e, s) => (some (.persist e), s)
          | (.ok (), s) => FilingNode.serve s rest

/-- The hub after a run of frames, whatever each call answers. -/
def Hub.after (hub : Hub) (frames : List (Directory × Arrival)) : Hub :=
  frames.foldl (fun hub p => (hub.ingest H (cfg.under p.1) p.2).2) hub

/-- The report becomes a verified one in the run. -/
def Verifies (hub : Hub) (frames : List (Directory × Arrival)) (id : JsonVal) (r : Verified) : Prop :=
  ∃ front, front <+: frames ∧ (hub.after H cfg front).reportFor id = some (.verified r)

/-! ## What is asked of the inbox -/

/-- The name of a report's directory. -/
def folderName (id : JsonVal) : JsString := (safe id).toOption.getD []

/-- The name of a report's file. -/
def fileName (r : Verified) : JsString := (baseOf r.fileName).toOption.getD []

/-- A report is in its directory: nothing was written but there, and it holds the file and the
evidence. -/
structure FiledIn (x : Written) (tree : Tree) : Prop where
  confined : ∀ path ∈ x.wrote, path = inboxPath ++ [folderName x.id] ∨
    ∃ name, path = inboxPath ++ [folderName x.id] ++ [name]
  file : tree (inboxPath ++ [folderName x.id] ++ [fileName x.report]) = some (.file x.report.bytes)
  evidence : tree (inboxPath ++ [folderName x.id] ++ [js "evidence.json"]) =
    some (.file (evidenceText pretty x.id x.report))

/-- **Faithful and confined**: writing does not throw, every report is in its directory, and no two are
in one. -/
structure Faithful (run : Option Halt × FilingNode) : Prop where
  noThrow : ∀ e, run.1 ≠ some (.persist e)
  filed : ∀ x ∈ run.2.filed, FiledIn pretty x run.2.tree
  apart : ∀ x ∈ run.2.filed, ∀ y ∈ run.2.filed, x.id ≠ y.id → folderName x.id ≠ folderName y.id

/-- Names that are not those of directories. -/
def isDots (name : JsString) : Bool := decide (name = []) || decide (name = js ".") || decide (name = js "..")

/-- A report has an identifier and a file name that make a directory and a file of their own. -/
structure Nameable (id : JsonVal) (name : JsonVal) : Prop where
  id_str : ∃ s, id = some (.str s)
  folder : fs.takes (folderName id) = true ∧ isDots (folderName id) = false
  name_str : ∃ s, name = some (.str s) ∧ fs.takes (basename s) = true ∧ isDots (basename s) = false ∧
    basename s ≠ js "evidence.json"

/-- The inbox is a directory of directories of files. -/
structure Ready (t : Tree) : Prop where
  root : t [] = some .dir
  inbox : t inboxPath = some .dir
  folders : ∀ name bytes, t (inboxPath ++ [name]) ≠ some (.file bytes)
  files : ∀ name name', t (inboxPath ++ [name] ++ [name']) ≠ some .dir

/-! ## One report -/

variable {fs pretty} {t : Tree}

theorem takes_evidence : fs.takes (js "evidence.json") = true := by
  rw [FileSystem.takes, decide_eq_true fs.evidence_fits]
  decide

theorem takes_inbox : fs.takes (js "inbox") = true := by
  have hfits : (toUtf8 (js "inbox")).length ≤ fs.nameMax :=
    le_trans (by decide +kernel) fs.evidence_fits
  rw [FileSystem.takes, decide_eq_true hfits]
  decide

theorem joinName_of_not_dots {path : List JsString} {name : JsString} (h : isDots name = false) :
    joinName path name = path ++ [name] := by
  rw [isDots, Bool.or_eq_false_iff, Bool.or_eq_false_iff, decide_eq_false_iff_not, decide_eq_false_iff_not,
    decide_eq_false_iff_not] at h
  rw [joinName, if_neg (not_or.mpr h.1), if_neg h.2]

theorem Nameable.safe_eq {id name : JsonVal} (h : Nameable fs id name) : safe id = .ok (folderName id) := by
  obtain ⟨s, rfl⟩ := h.id_str
  rfl

/-- The trees that differ from a ready one in a directory and its files. -/
theorem Ready.update_dir (h : Ready t) (name : JsString) :
    Ready (Function.update t (inboxPath ++ [name]) (some .dir)) := by
  refine ⟨?_, ?_, fun d bytes => ?_, fun d f => ?_⟩
  · rw [Function.update_of_ne (by simp [inboxPath])]
    exact h.root
  · rw [Function.update_of_ne (by simp [inboxPath])]
    exact h.inbox
  · by_cases hd : d = name
    · rw [hd, Function.update_self]
      simp
    · rw [Function.update_of_ne (by simpa [inboxPath] using hd)]
      exact h.folders d bytes
  · rw [Function.update_of_ne (by simp [inboxPath])]
    exact h.files d f

theorem Ready.update_file (h : Ready t) (name file : JsString) (bytes : Bytes) :
    Ready (Function.update t (inboxPath ++ [name] ++ [file]) (some (.file bytes))) := by
  refine ⟨?_, ?_, fun d b => ?_, fun d f => ?_⟩
  · rw [Function.update_of_ne (by simp [inboxPath])]
    exact h.root
  · rw [Function.update_of_ne (by simp [inboxPath])]
    exact h.inbox
  · rw [Function.update_of_ne (by simp [inboxPath])]
    exact h.folders d b
  · by_cases hf : inboxPath ++ [d] ++ [f] = inboxPath ++ [name] ++ [file]
    · rw [hf, Function.update_self]
      simp
    · rw [Function.update_of_ne hf]
      exact h.files d f

theorem makeDirs_folder {d : Disc} {name : JsString} (h : Ready d.tree) (htakes : fs.takes name = true) :
    d.makeDirs fs (inboxPath ++ [name]) = .ok {
      tree := Function.update d.tree (inboxPath ++ [name]) (some .dir)
      wrote := d.wrote ++ [inboxPath ++ [name]] } := by
  have hmake : FileTree.makeDirs fs.takes d.tree (inboxPath ++ [name]) =
      .ok (Function.update d.tree (inboxPath ++ [name]) (some .dir)) := by
    apply makeDirs_of_parents
    · intro p hp
      have hp : p = [] ∨ p = inboxPath := by simpa [inboxPath] using hp
      rcases hp with rfl | rfl
      · exact h.root
      · exact h.inbox
    · exact h.folders name
    · simp [inboxPath, takes_inbox, htakes]
  rw [Disc.makeDirs, hmake]

theorem writeFile_folder {d : Disc} {name file : JsString} (h : Ready d.tree)
    (hdir : d.tree (inboxPath ++ [name]) = some .dir) (hname : fs.takes name = true)
    (hfile : fs.takes file = true) (bytes : Bytes) :
    d.writeFile fs (inboxPath ++ [name] ++ [file]) bytes = .ok {
      tree := Function.update d.tree (inboxPath ++ [name] ++ [file]) (some (.file bytes))
      wrote := d.wrote ++ [inboxPath ++ [name] ++ [file]] } := by
  have hwrite : FileTree.writeFile fs.takes d.tree (inboxPath ++ [name] ++ [file]) bytes =
      .ok (Function.update d.tree (inboxPath ++ [name] ++ [file]) (some (.file bytes))) :=
    writeFile_of_parent hdir (h.files name file) (by simp [inboxPath, takes_inbox, hname, hfile]) bytes
  rw [Disc.writeFile, hwrite]

/-- **A report with good names is filed**, and nothing else is touched. -/
theorem fileReport_of_nameable (pretty : Json → JsString) {id : JsonVal} {r : Verified} (h : Ready t)
    (hname : Nameable fs id r.fileName) : ∃ d, fileReport fs pretty { tree := t } id r = (.ok (), d) ∧
      Ready d.tree ∧ FiledIn pretty { id, report := r, wrote := d.wrote } d.tree ∧
      ∀ path, (∀ rest, path ≠ inboxPath ++ [folderName id] ++ rest) → d.tree path = t path := by
  obtain ⟨s, hs, htakes, hdots, hevidence⟩ := hname.name_str
  set name := folderName id with hfolder
  have hbase : baseOf r.fileName = .ok (basename s) := by
    rw [hs]
    rfl
  have hready := h.update_dir name
  have hdir : Function.update t (inboxPath ++ [name]) (some .dir) (inboxPath ++ [name]) = some .dir :=
    Function.update_self _ _ _
  have hready' := hready.update_file name (basename s) r.bytes
  have hdir' : Function.update (Function.update t (inboxPath ++ [name]) (some .dir))
      (inboxPath ++ [name] ++ [basename s]) (some (.file r.bytes)) (inboxPath ++ [name]) = some .dir := by
    rw [Function.update_of_ne (by simp [inboxPath])]
    exact hdir
  refine ⟨{
    tree := Function.update (Function.update (Function.update t (inboxPath ++ [name]) (some .dir))
      (inboxPath ++ [name] ++ [basename s]) (some (.file r.bytes)))
      (inboxPath ++ [name] ++ [js "evidence.json"]) (some (.file (evidenceText pretty id r)))
    wrote := [inboxPath ++ [name], inboxPath ++ [name] ++ [basename s],
      inboxPath ++ [name] ++ [js "evidence.json"]] }, ?_,
    hready'.update_file name (js "evidence.json") (evidenceText pretty id r), ⟨?_, ?_, ?_⟩, ?_⟩
  · rw [fileReport, hname.safe_eq]
    dsimp only
    rw [joinName_of_not_dots hname.folder.2, makeDirs_folder h hname.folder.1]
    dsimp only
    rw [hbase, Outcome.ok_bind, joinName_of_not_dots hdots,
      writeFile_folder hready hdir hname.folder.1 htakes]
    dsimp only
    rw [joinName_of_not_dots (by decide), writeFile_folder hready' hdir' hname.folder.1 takes_evidence]
    rfl
  · intro path hpath
    simp only [List.mem_cons, List.not_mem_nil, or_false] at hpath
    rcases hpath with rfl | rfl | rfl
    · exact Or.inl rfl
    · exact Or.inr ⟨_, rfl⟩
    · exact Or.inr ⟨_, rfl⟩
  · have hfile : fileName r = basename s := by
      rw [fileName, hbase]
      rfl
    show Function.update _ _ _ (inboxPath ++ [name] ++ [fileName r]) = _
    rw [hfile, Function.update_of_ne (by simpa [inboxPath] using hevidence), Function.update_self]
  · exact Function.update_self _ _ _
  · intro path hpath
    dsimp only
    rw [Function.update_of_ne (hpath _), Function.update_of_ne (hpath _),
      Function.update_of_ne (fun heq => hpath [] (heq.trans (List.append_nil _).symm))]

/-! ## Runs -/

/-- **What a run keeps**, of reports that are among `P`: the inbox is ready, every report is in its
directory, and the identifiers of all of them are known. -/
structure InboxInv (pretty : Json → JsString) (P : JsonVal → Verified → Prop) (s : FilingNode) : Prop where
  ready : Ready s.tree
  known : ∀ x ∈ s.filed, P x.id x.report
  filed : ∀ x ∈ s.filed, FiledIn pretty x s.tree
  written : ∀ x ∈ s.filed, ∀ p, JsonVal.key? x.id = some p → p ∈ s.written

/-- The reports have names of their own. -/
structure WellNamed (fs : FileSystem) (P : JsonVal → Verified → Prop) : Prop where
  names : ∀ id r, P id r → Nameable fs id r.fileName
  apart : ∀ id r id' r', P id r → P id' r' → folderName id = folderName id' → id = id'

/-- What is filed in one directory stays, when another is written. -/
theorem FiledIn.of_frame {x : Written} {tree tree' : Tree} {name : JsString}
    (h : FiledIn pretty x tree) (hne : folderName x.id ≠ name)
    (hframe : ∀ path, (∀ rest, path ≠ inboxPath ++ [name] ++ rest) → tree' path = tree path) :
    FiledIn pretty x tree' := by
  have hother : ∀ file rest, inboxPath ++ [folderName x.id] ++ [file] ≠ inboxPath ++ [name] ++ rest := by
    intro file rest heq
    simp only [inboxPath, List.cons_append, List.nil_append, List.cons.injEq, true_and] at heq
    exact hne heq.1
  exact ⟨h.confined, (hframe _ (hother _)).trans h.file, (hframe _ (hother _)).trans h.evidence⟩

theorem inv_persist {P : JsonVal → Verified → Prop} {s : FilingNode} {id : JsonVal}
    (hP : WellNamed fs P) (h : InboxInv pretty P s)
    (hid : ∀ r, s.hub.reportFor id = some (.verified r) → P id r) :
    (s.persist fs pretty id).1 = .ok () ∧ (s.persist fs pretty id).2.hub = s.hub ∧
      InboxInv pretty P (s.persist fs pretty id).2 := by
  unfold FilingNode.persist
  split
  · exact ⟨rfl, rfl, h⟩
  · split
    · rename_i r hr
      split
      · exact ⟨rfl, rfl, h⟩
      · rename_i hnew
        have hin := hid r hr
        have hname := hP.names id r hin
        obtain ⟨str, hstr⟩ := hname.id_str
        have hkey : JsonVal.key? id = some (.str str) := by
          rw [hstr]
          rfl
        rw [hkey, Option.any_some, decide_eq_true_eq] at hnew
        obtain ⟨d, hd, hready, hfiled, hframe⟩ := fileReport_of_nameable pretty h.ready hname
        dsimp only
        rw [hd]
        refine ⟨rfl, rfl, hready, fun x hx => ?_, fun x hx => ?_, fun x hx p hp => ?_⟩
        · rcases List.mem_append.mp hx with hx | hx
          · exact h.known x hx
          · rw [List.mem_singleton.mp hx]
            exact hin
        · rcases List.mem_append.mp hx with hx | hx
          · apply (h.filed x hx).of_frame _ hframe
            -- an identifier that is not written yet is another one
            intro heq
            have hsame := hP.apart x.id x.report id r (h.known x hx) hin heq
            exact hnew (h.written x hx _ (hsame ▸ hkey))
          · rw [List.mem_singleton.mp hx]
            exact hfiled
        · show p ∈ addWritten s.written id
          rw [addWritten, hkey]
          rcases List.mem_append.mp hx with hx | hx
          · exact List.mem_append_left _ (h.written x hx p hp)
          · rw [List.mem_singleton.mp hx] at hp
            rw [hkey] at hp
            cases hp
            exact List.mem_append_right _ List.mem_cons_self
    · exact ⟨rfl, rfl, h⟩

variable {H cfg}

theorem verifies_tail {hub : Hub} {d : Directory} {x : Arrival} {rest : List (Directory × Arrival)}
    {id : JsonVal} {r : Verified}
    (h : Verifies H cfg (hub.ingest H (cfg.under d) x).2 rest id r) :
    Verifies H cfg hub ((d, x) :: rest) id r := by
  obtain ⟨front, hfront, hreport⟩ := h
  exact ⟨(d, x) :: front, List.prefix_cons_inj (d, x) |>.mpr hfront, hreport⟩

/-- The run does not end in `persist`, and keeps the invariant. -/
theorem inv_serve {P : JsonVal → Verified → Prop} (hP : WellNamed fs P)
    {frames : List (Directory × Arrival)} : ∀ {s : FilingNode}, InboxInv pretty P s →
      (∀ id r, Verifies H cfg s.hub frames id r → P id r) →
      (∀ e, (s.serve fs pretty H cfg frames).1 ≠ some (.persist e)) ∧
        InboxInv pretty P (s.serve fs pretty H cfg frames).2 := by
  induction frames with
  | nil => exact fun h _ => ⟨fun e he => (by cases he), h⟩
  | cons frame rest ih =>
      obtain ⟨d, x⟩ := frame
      intro s h hverifies
      rw [FilingNode.serve]
      rcases hingest : s.hub.ingest H (cfg.under d) x with ⟨e | id, hub⟩
      · exact ⟨fun e he => (by cases he), h.ready, h.known, h.filed, h.written⟩
      · dsimp only
        have hhub : (s.hub.ingest H (cfg.under d) x).2 = hub := by rw [hingest]
        have htouched : InboxInv pretty P { s with hub } := ⟨h.ready, h.known, h.filed, h.written⟩
        obtain ⟨hok, hkeeps, hinv⟩ := @inv_persist fs pretty P { s with hub } id hP htouched fun r hr => by
          apply hverifies
          refine ⟨[(d, x)], List.cons_prefix_cons.mpr ⟨rfl, List.nil_prefix⟩, ?_⟩
          show (Hub.ingest H (cfg.under d) s.hub x).2.reportFor id = _
          rw [hhub]
          exact hr
        rcases hpersist : FilingNode.persist fs pretty { s with hub } id with ⟨e | _, s'⟩
        · rw [hpersist] at hok
          cases hok
        · rw [hpersist] at hkeeps hinv
          apply ih hinv
          intro id' r' h'
          rw [hkeeps, ← hhub] at h'
          exact hverifies id' r' (verifies_tail h')

/-- **The inbox is faithful and confined** in every run whose reports have identifiers and file names
that make directories and files of their own. -/
theorem inbox_faithful (fs : FileSystem) (pretty : Json → JsString) (H : ReliefHost) (cfg : HubConfig)
    (t : Tree) (ht : Ready t) (frames : List (Directory × Arrival))
    (hnames : WellNamed fs (Verifies H cfg {} frames)) :
    Faithful pretty (FilingNode.serve fs pretty H cfg { tree := t } frames) := by
  have hstart : InboxInv pretty (Verifies H cfg {} frames) { tree := t } :=
    ⟨ht, fun _ hx => (by cases hx), fun _ hx => (by cases hx), fun _ hx => (by cases hx)⟩
  obtain ⟨hno, hinv⟩ := @inv_serve fs pretty H cfg _ hnames frames _ hstart fun _ _ h => h
  refine ⟨hno, hinv.filed, fun x hx y hy hne heq => ?_⟩
  exact hne (hnames.apart _ _ _ _ (hinv.known x hx) (hinv.known y hy) heq)

/-! ### A file, and one that is named as the evidence -/

def sampleClinic : Clinic where
  kp := Path.sampleKey
  eid := js "c"
  hubEncPub := []
  chunkSize_pos := by decide

/-- The frames of a file of one byte. -/
def sampleFrames (name : String) : List (Directory × Arrival) :=
  match sampleClinic.sendFile sampleRelief { priv := [], epk := [1], iv := List.replicate 12 0 }
      { name := js name, bytes := [1] } 0 0 with
  | .ok sent =>
      (arriving "manifest" [(js "manifest", sent.out.manifest)] :: sent.out.bundles.map chunkArrival).map
        fun x => (sampleConfig.directory, x)
  | .error _ => []

def sampleFiles : FileSystem := ⟨255, by decide +kernel⟩

/-- An inbox with nothing in it. -/
def emptyInbox : Tree := fun path => if path = [] ∨ path = inboxPath then some .dir else none

def sampleInbox (name : String) : Option Halt × FilingNode :=
  FilingNode.serve sampleFiles (Json.stringify sampleNode) sampleRelief sampleConfig { tree := emptyInbox }
    (sampleFrames name)

theorem ready_emptyInbox : Ready emptyInbox := by
  refine ⟨if_pos (Or.inl rfl), if_pos (Or.inr rfl), fun name bytes => ?_, fun name name' => ?_⟩
  · rw [emptyInbox, if_neg (by simp [inboxPath])]
    simp
  · rw [emptyInbox, if_neg (by simp [inboxPath])]
    simp

/-- The reports of a hub are all of one identifier and file name. -/
def onlyReport (id fileName : String) (hub : Hub) : Bool :=
  hub.payloads.entries.all fun p =>
    match p.2.report with
    | some (.verified r) =>
        decide (p.1 = .prim (.str (js id))) && JsonVal.strictEq r.fileName (some (.text fileName))
    | _ => true

theorem eq_of_onlyReport {hub : Hub} {id fileName : String} (h : onlyReport id fileName hub = true)
    {v : JsonVal} {r : Verified} (hr : hub.reportFor v = some (.verified r)) :
    v = some (.text id) ∧ r.fileName = some (.text fileName) := by
  obtain ⟨e, he, hreport⟩ := Option.bind_eq_some_iff.mp hr
  have hentry := List.all_eq_true.mp h _ (JsMap.mem_entries_iff.mpr he)
  dsimp only at hentry
  rw [hreport, Bool.and_eq_true, decide_eq_true_eq] at hentry
  refine ⟨?_, JsonVal.eq_of_strictEq hentry.2⟩
  have hkey := hentry.1
  unfold Dest.keyOf at hkey
  cases v with
  | none => cases hkey
  | some v =>
      cases v with
      | str s =>
          cases hkey
          rfl
      | _ => cases hkey

theorem sampleInbox_faithful : Faithful (Json.stringify sampleNode) (sampleInbox "a.txt") := by
  apply inbox_faithful sampleFiles (Json.stringify sampleNode) sampleRelief sampleConfig emptyInbox
    ready_emptyInbox
  have hall : (sampleFrames "a.txt").inits.all (fun front =>
      onlyReport "c/0-0" "a.txt" (({} : Hub).after sampleRelief sampleConfig front)) = true := by
    decide +kernel
  have hone : ∀ id r, Verifies sampleRelief sampleConfig {} (sampleFrames "a.txt") id r →
      id = some (.text "c/0-0") ∧ r.fileName = some (.text "a.txt") := by
    rintro id r ⟨front, hfront, hr⟩
    exact eq_of_onlyReport (List.all_eq_true.mp hall front ((List.mem_inits _ _).mpr hfront)) hr
  refine ⟨fun id r h => ?_, fun id r id' r' h h' _ => ?_⟩
  · obtain ⟨rfl, hname⟩ := hone id r h
    rw [hname]
    exact ⟨⟨_, rfl⟩, by decide +kernel, _, rfl, by decide +kernel⟩
  · rw [(hone id r h).1, (hone id' r' h').1]

/-- **The evidence takes the place of a report** whose file is named as it. -/
theorem evidence_replaces_file : Ready emptyInbox ∧
    ¬ Faithful (Json.stringify sampleNode) (sampleInbox "evidence.json") := by
  refine ⟨ready_emptyInbox, fun h => ?_⟩
  -- the report and its evidence are asked for at one path
  have hlost : ((sampleInbox "evidence.json").2.filed.any fun x =>
      decide (fileName x.report = js "evidence.json") &&
        decide (x.report.bytes ≠ evidenceText (Json.stringify sampleNode) x.id x.report)) = true := by
    decide +kernel
  obtain ⟨x, hx, hsame⟩ := List.any_eq_true.mp hlost
  rw [Bool.and_eq_true, decide_eq_true_eq, decide_eq_true_eq] at hsame
  have hfile := (h.filed x hx).file
  rw [hsame.1, (h.filed x hx).evidence, Option.some.injEq, FileTree.Item.file.injEq] at hfile
  exact hsame.2 hfile.symm

end Relief

end DtnCustody
