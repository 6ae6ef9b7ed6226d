/-
# DtnCustody.Gateway.Spool — `gateway/spool.mjs`: bundles waiting on disk.

A bundle is a file, named by its sequence number, and the files are read in the order of their names.
What the spool is for is a queue (`Holds`): `add` puts a bundle at its end, `list` names its bundles
oldest first, `done` takes one away, and a new spool on the same directory goes on where the names end.
The names are in the order of the numbers as long as these have no more than twelve digits.
-/
import DtnCustody.Base.Digits
import DtnCustody.Base.JsMap
import Mathlib.Data.List.Sort

namespace DtnCustody

open Base

namespace Spool

/-! ## Files and names -/

/-- A file, and which call of `add` wrote it: the calls are counted from the first one on, over all the
processes that use the directory. -/
structure File where
  bytes : Bytes
  add : Nat
  deriving DecidableEq, Repr

abbrev Dir := JsMap JsString File

def suffix : JsString := js ".bundle"

/-- `` `${String(seq).padStart(12, "0")}.bundle` ``. -/
def fileName (seq : Nat) : JsString := padStart 12 (js (toString seq)) ++ suffix

def tmpName (seq : Nat) : JsString := fileName seq ++ js ".tmp"

/-- `f.endsWith(".bundle")`. -/
def isBundle (f : JsString) : Bool := suffix.isSuffixOf f

/-- `Number(f.split(".")[0])`, of a name that begins with digits. -/
def seqOf (f : JsString) : Nat := digitsValue (f.takeWhile (· ≠ 46))

/-- One more, as numbers count: no further than 2^53. -/
def inc (n : Nat) : Nat := if n < 2 ^ 53 then n + 1 else n

/-! ## The spool -/

/-- The constructor: the number that comes next. -/
def firstSeq (d : Dir) : Nat :=
  match (d.keys.filter isBundle).map seqOf with
  | [] => 1
  | n :: ns => inc (ns.foldl max n)

/-- `add`, with the file it writes: to a temporary name, and renamed. -/
def put (d : Dir) (seq : Nat) (file : File) : Dir :=
  ((d.set (tmpName seq) file).delete (tmpName seq)).set (fileName seq) file

def list (d : Dir) : List JsString := (d.keys.filter isBundle).insertionSort (· ≤ ·)

def done (d : Dir) (name : JsString) : Dir := d.delete name

/-! ## Names -/

theorem isBundle_fileName (seq : Nat) : isBundle (fileName seq) = true :=
  List.isSuffixOf_iff_suffix.mpr (List.suffix_append _ _)

theorem not_isBundle_tmpName (seq : Nat) : isBundle (tmpName seq) = false := by
  rw [← Bool.not_eq_true]
  intro h
  obtain ⟨front, hfront⟩ : suffix <:+ fileName seq ++ js ".tmp" := List.isSuffixOf_iff_suffix.mp h
  -- The last letters differ.
  have hlast := congrArg List.getLast? hfront
  have he : suffix.getLast? = some 101 := by decide +kernel
  have hp : (js ".tmp").getLast? = some 112 := by decide +kernel
  rw [List.getLast?_append, List.getLast?_append, he, hp] at hlast
  simp at hlast

theorem tmpName_ne_fileName (seq seq' : Nat) : fileName seq ≠ tmpName seq' := by
  intro h
  have hbundle := isBundle_fileName seq
  rw [h, not_isBundle_tmpName] at hbundle
  cases hbundle

/-- A name spells its number. -/
theorem seqOf_fileName (seq : Nat) : seqOf (fileName seq) = seq := by
  have hdigits := isDigit_padStart 12 (isDigit_js_toString seq)
  have hfront : (fileName seq).takeWhile (· ≠ 46) = padStart 12 (js (toString seq)) := by
    have hnone : suffix.takeWhile (· ≠ 46) = [] := by decide +kernel
    rw [fileName, List.takeWhile_append_of_pos, hnone, List.append_nil]
    intro u hu
    have hu' := (hdigits u hu).1
    simp only [ne_eq, decide_eq_true_eq]
    rintro rfl
    revert hu'
    decide
  rw [seqOf, hfront, digitsValue_padStart, digitsValue_js_toString]

theorem fileName_inj {seq seq' : Nat} (h : fileName seq = fileName seq') : seq = seq' := by
  rw [← seqOf_fileName seq, h, seqOf_fileName]

/-- **Names of twelve digits are in the order of their numbers.** -/
theorem fileName_lt {seq seq' : Nat} (h : seq < seq') (hsmall : seq' < 10 ^ 12) :
    fileName seq < fileName seq' := by
  have hlength : ∀ {n}, n < 10 ^ 12 → (padStart 12 (js (toString n))).length = 12 := fun hn =>
    length_padStart ((length_js_toString (by decide)).mpr hn)
  have hlen := (hlength (h.trans hsmall)).trans (hlength hsmall).symm
  refine append_lt_append hlen ?_ _
  apply lt_of_value_lt (isDigit_padStart 12 (isDigit_js_toString seq))
    (isDigit_padStart 12 (isDigit_js_toString seq')) hlen
  rw [digitsValue_padStart, digitsValue_padStart, digitsValue_js_toString, digitsValue_js_toString]
  exact h

/-! ## What the spool is for -/

/-- **A directory holds a queue**: numbered files, oldest first. Files with other names than the spool
gives do not matter. -/
structure Holds (d : Dir) (q : List (Nat × File)) : Prop where
  files : ∀ name file, isBundle name = true →
    (d.get? name = some file ↔ ∃ n, (n, file) ∈ q ∧ fileName n = name)
  order : (q.map Prod.fst).Pairwise (· < ·)
  small : ∀ e ∈ q, e.1 < 10 ^ 12

namespace Holds

variable {d : Dir} {q : List (Nat × File)}

theorem get? (h : Holds d q) {e : Nat × File} (he : e ∈ q) : d.get? (fileName e.1) = some e.2 :=
  (h.files _ _ (isBundle_fileName e.1)).mpr ⟨e.1, he, rfl⟩

theorem names_lt (h : Holds d q) : (q.map fun e => fileName e.1).Pairwise (· < ·) := by
  have horder := List.pairwise_map.mp h.order
  refine List.pairwise_map.mpr (horder.imp_of_mem ?_)
  intro e e' _ he' hlt
  exact fileName_lt hlt (h.small e' he')

/-- **`list` names the bundles, oldest first.** -/
theorem list_eq (h : Holds d q) : list d = q.map fun e => fileName e.1 := by
  have hnames := h.names_lt
  have hnodup : (q.map fun e => fileName e.1).Nodup :=
    hnames.imp fun {a b} hlt heq => by
      rw [heq] at hlt
      exact absurd hlt (List.lt_irrefl _)
  -- The directory has these names, in some order.
  have hkeys : d.keys.Nodup := d.nodup
  have hsame : (d.keys.filter isBundle).Perm (q.map fun e => fileName e.1) := by
    refine (List.perm_ext_iff_of_nodup (hkeys.filter _) hnodup).mpr fun name => ?_
    rw [List.mem_filter, JsMap.mem_keys_iff, List.mem_map]
    constructor
    · rintro ⟨⟨file, hfile⟩, hbundle⟩
      obtain ⟨n, hn, hname⟩ := (h.files name file hbundle).mp hfile
      exact ⟨(n, file), hn, hname⟩
    · rintro ⟨e, he, rfl⟩
      exact ⟨⟨e.2, h.get? he⟩, isBundle_fileName e.1⟩
  have hsorted : (list d).Pairwise (· ≤ ·) := List.pairwise_insertionSort _ _
  have hperm : (list d).Perm (q.map fun e => fileName e.1) :=
    (List.perm_insertionSort _ _).trans hsame
  refine hperm.eq_of_pairwise ?_ hsorted (hnames.imp fun hlt => List.le_of_lt hlt)
  intro a b _ _ hab hba
  exact List.le_antisymm hab hba

/-- A file with another name does not matter. -/
theorem set_other (h : Holds d q) {name : JsString} (hname : isBundle name = false) (file : File) :
    Holds (d.set name file) q := by
  refine ⟨fun name' file' hbundle => ?_, h.order, h.small⟩
  have hne : name' ≠ name := by
    rintro rfl
    rw [hname] at hbundle
    cases hbundle
  rw [JsMap.get?_set_ne _ hne]
  exact h.files name' file' hbundle

theorem delete_other (h : Holds d q) {name : JsString} (hname : isBundle name = false) :
    Holds (d.delete name) q := by
  refine ⟨fun name' file' hbundle => ?_, h.order, h.small⟩
  have hne : name' ≠ name := by
    rintro rfl
    rw [hname] at hbundle
    cases hbundle
  rw [JsMap.get?_delete_ne _ hne]
  exact h.files name' file' hbundle

/-- **`add` puts a bundle at the end of the queue.** -/
theorem put (h : Holds d q) {seq : Nat} (hlast : ∀ e ∈ q, e.1 < seq) (hsmall : seq < 10 ^ 12)
    (file : File) : Holds (put d seq file) (q ++ [(seq, file)]) := by
  have hcleared : Holds ((d.set (tmpName seq) file).delete (tmpName seq)) q :=
    (h.set_other (not_isBundle_tmpName seq) file).delete_other (not_isBundle_tmpName seq)
  refine ⟨fun name file' hbundle => ?_, ?_, ?_⟩
  · unfold Spool.put
    by_cases hname : name = fileName seq
    · subst hname
      rw [JsMap.get?_set_self]
      constructor
      · rintro ⟨⟩
        exact ⟨seq, List.mem_append_right _ (List.mem_singleton.mpr rfl), rfl⟩
      · rintro ⟨n, hn, hsame⟩
        cases fileName_inj hsame
        rcases List.mem_append.mp hn with hn | hn
        · exact absurd (hlast _ hn) (Nat.lt_irrefl _)
        · cases List.mem_singleton.mp hn
          rfl
    · rw [JsMap.get?_set_ne _ hname, hcleared.files name file' hbundle]
      constructor
      · rintro ⟨n, hn, rfl⟩
        exact ⟨n, List.mem_append_left _ hn, rfl⟩
      · rintro ⟨n, hn, rfl⟩
        rcases List.mem_append.mp hn with hn | hn
        · exact ⟨n, hn, rfl⟩
        · cases List.mem_singleton.mp hn
          exact absurd rfl hname
  · rw [List.map_append, List.pairwise_append]
    refine ⟨h.order, List.pairwise_singleton _ _, ?_⟩
    intro n hn m hm
    obtain ⟨e, he, rfl⟩ := List.mem_map.mp hn
    cases List.mem_singleton.mp hm
    exact hlast e he
  · intro e he
    rcases List.mem_append.mp he with he | he
    · exact h.small e he
    · cases List.mem_singleton.mp he
      exact hsmall

/-- **`done` takes the oldest bundle away.** -/
theorem done {n : Nat} {file : File} {rest : List (Nat × File)} (h : Holds d ((n, file) :: rest)) :
    Holds (done d (fileName n)) rest := by
  have horder := h.order
  rw [List.map_cons, List.pairwise_cons] at horder
  refine ⟨fun name file' hbundle => ?_, horder.2, fun e he => h.small e (List.mem_cons_of_mem _ he)⟩
  unfold Spool.done
  by_cases hname : name = fileName n
  · subst hname
    rw [JsMap.get?_delete_self]
    constructor
    · rintro ⟨⟩
    · rintro ⟨m, hm, hsame⟩
      obtain rfl := fileName_inj hsame
      exact absurd (horder.1 _ (List.mem_map.mpr ⟨_, hm, rfl⟩)) (Nat.lt_irrefl _)
  · rw [JsMap.get?_delete_ne _ hname, h.files name file' hbundle]
    constructor
    · rintro ⟨m, hm, rfl⟩
      rcases List.mem_cons.mp hm with hm | hm
      · cases hm
        exact absurd rfl hname
      · exact ⟨m, hm, rfl⟩
    · rintro ⟨m, hm, rfl⟩
      exact ⟨m, List.mem_cons_of_mem _ hm, rfl⟩

theorem le_foldl_max {ns : List Nat} {a : Nat} : a ≤ ns.foldl max a ∧ ∀ n ∈ ns, n ≤ ns.foldl max a := by
  induction ns generalizing a with
  | nil => exact ⟨le_rfl, fun n hn => (List.not_mem_nil hn).elim⟩
  | cons m ns ih =>
      obtain ⟨hfirst, hrest⟩ := ih (a := max a m)
      refine ⟨(Nat.le_max_left a m).trans hfirst, fun n hn => ?_⟩
      rcases List.mem_cons.mp hn with rfl | hn
      · exact (Nat.le_max_right a n).trans hfirst
      · exact hrest n hn

theorem foldl_max_mem (ns : List Nat) (a : Nat) : ns.foldl max a ∈ a :: ns := by
  induction ns generalizing a with
  | nil => exact List.mem_singleton.mpr rfl
  | cons m ns ih =>
      rcases List.mem_cons.mp (ih (max a m)) with hmax | hmem
      · rw [List.foldl_cons, hmax]
        rcases Nat.le_total a m with hle | hle
        · rw [Nat.max_eq_right hle]
          exact List.mem_cons_of_mem _ List.mem_cons_self
        · rw [Nat.max_eq_left hle]
          exact List.mem_cons_self
      · exact List.mem_cons_of_mem _ (List.mem_cons_of_mem _ hmem)

/-- **A new spool goes on behind the newest bundle.** -/
theorem firstSeq (h : Holds d q) : (∀ e ∈ q, e.1 < firstSeq d) ∧ firstSeq d ≤ 10 ^ 12 := by
  have hnumbers : ∀ n, n ∈ (d.keys.filter isBundle).map seqOf ↔ ∃ e ∈ q, e.1 = n := by
    intro n
    rw [List.mem_map]
    constructor
    · rintro ⟨name, hname, rfl⟩
      obtain ⟨hkey, hbundle⟩ := List.mem_filter.mp hname
      obtain ⟨file, hfile⟩ := JsMap.mem_keys_iff.mp hkey
      obtain ⟨m, hm, rfl⟩ := (h.files name file hbundle).mp hfile
      exact ⟨(m, file), hm, (seqOf_fileName m).symm⟩
    · rintro ⟨e, he, rfl⟩
      refine ⟨fileName e.1, List.mem_filter.mpr ⟨?_, isBundle_fileName e.1⟩, seqOf_fileName e.1⟩
      exact JsMap.mem_keys_iff.mpr ⟨e.2, h.get? he⟩
  unfold Spool.firstSeq
  cases hlist : (d.keys.filter isBundle).map seqOf with
  | nil =>
      refine ⟨fun e he => ?_, by norm_num⟩
      have hmem := (hnumbers e.1).mpr ⟨e, he, rfl⟩
      rw [hlist] at hmem
      cases hmem
  | cons n ns =>
      dsimp only
      have hmax : ns.foldl max n < 10 ^ 12 := by
        have hmem := foldl_max_mem ns n
        rw [← hlist, hnumbers] at hmem
        obtain ⟨e, he, heq⟩ := hmem
        rw [← heq]
        exact h.small e he
      rw [inc, if_pos (by omega)]
      refine ⟨fun e he => ?_, hmax⟩
      have hmem := (hnumbers e.1).mpr ⟨e, he, rfl⟩
      rw [hlist] at hmem
      obtain ⟨hfirst, hrest⟩ := @le_foldl_max ns n
      rcases List.mem_cons.mp hmem with heq | hmem
      · omega
      · have := hrest _ hmem
        omega

end Holds

end Spool

end DtnCustody
