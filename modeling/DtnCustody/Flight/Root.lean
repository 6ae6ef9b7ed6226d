/-
# DtnCustody.Flight.Root — `ck_root` of `flight/custody.c`, against the tree of the reference.

`size_t` has `w` bits, and the number of chunks is computed in it: `n + chunk - 1` can wrap. Every access
to the payload and to the scratch array is checked here, so that a run that leaves either of them is a
fault and not a value. Where the sum does not wrap there is no fault, and the root and the count are
those of the reference (`ckRoot_of_fits`); where it wraps, no chunk is counted at all.
-/
import DtnCustody.Agent.Source
import DtnCustody.Flight.Fold

namespace DtnCustody

open Base Js

namespace Flight

/-! ## Memory -/

/-- An access outside of the payload, or of the scratch array. -/
inductive Fault where
  | payload
  | scratch
  deriving DecidableEq, Repr

abbrev Run (α : Type) := Except Fault α

/-- `len` bytes at `payload + off`. -/
def loadBytes (payload : Bytes) (off len : Nat) : Run Bytes :=
  if off + len ≤ payload.length then .ok ((payload.drop off).take len) else .error .payload

def loadRow (s : List Bytes) (i : Nat) : Run Bytes :=
  match s[i]? with
  | some d => .ok d
  | none => .error .scratch

def storeRow (s : List Bytes) (i : Nat) (d : Bytes) : Run (List Bytes) :=
  if i < s.length then .ok (s.set i d) else .error .scratch

/-! ## The root -/

section Program

variable (N : FlightHost) (w : Nat)

/-- The leaves from `i` on, `left` of them. -/
def leafRows (payload : Bytes) (chunk : Nat) : (left i : Nat) → List Bytes → Run (List Bytes)
  | 0, _, s => .ok s
  | left + 1, i, s => do
      let len := if (i + 1) * chunk % 2 ^ w ≤ payload.length then chunk
        else (payload.length + 2 ^ w - i * chunk % 2 ^ w) % 2 ^ w
      let bytes ← loadBytes payload (i * chunk % 2 ^ w) len
      let s ← storeRow s i (ckLeaf N bytes)
      leafRows payload chunk left (i + 1) s

/-- The leaves, of which an empty payload has one. -/
def firstRows (payload : Bytes) (chunk cnt : Nat) (s : List Bytes) : Run (List Bytes) :=
  if payload.length = 0 then storeRow s 0 (ckLeaf N []) else leafRows N w payload chunk cnt 0 s

/-- `ck_node(s[i], i + 1 < width ? s[i + 1] : s[i], s[i / 2])` at `i = 2k`. An array has too few rows for
its indices to wrap. -/
def nodeRow (width : Nat) (s : List Bytes) (k : Nat) : Run (List Bytes) := do
  let l ← loadRow s (2 * k)
  let r ← loadRow s (if 2 * k + 1 < width then 2 * k + 1 else 2 * k)
  storeRow s k (ckNode N l r)

def nodeRows (width : Nat) (s : List Bytes) : Run (List Bytes) :=
  (List.range ((width + 1) / 2)).foldlM (nodeRow N width) s

/-- The rounds, of which there are at most `fuel`. -/
def foldRows : (fuel : Nat) → (width : Nat) → List Bytes → Run (List Bytes)
  | 0, _, s => .ok s
  | fuel + 1, width, s =>
      if 1 < width then do foldRows fuel ((width + 1) / 2) (← nodeRows N width s) else .ok s

/-- `ck_root`: the payload is all its bytes, and the scratch array, which may be NULL, all its rows with
what they happen to hold. -/
def ckRoot (payload : Bytes) (chunk : Nat) (scratch : Option (List Bytes)) :
    Run (Except CkError (Bytes × Nat)) :=
  match scratch with
  | none => .ok (.error .arg)
  | some s =>
      if chunk = 0 then .ok (.error .arg)
      else
        let n := payload.length
        let cnt := if n = 0 then 1 else (n + chunk - 1) % 2 ^ w / chunk
        if s.length < cnt then .ok (.error .space)
        else do
          let s ← firstRows N w payload chunk cnt s
          let s ← foldRows N cnt cnt s
          let root ← loadRow s 0
          return .ok (root, cnt)

end Program

/-! ## No fault -/

variable {N : FlightHost} {w : Nat}

theorem loadRow_ok {s : List Bytes} {i : Nat} (hi : i < s.length) :
    loadRow s i = .ok (s.getD i []) := by
  rw [loadRow, List.getElem?_eq_getElem hi, List.getD_eq_getElem?_getD, List.getElem?_eq_getElem hi]
  rfl

theorem nodeRow_ok {width k : Nat} {s : List Bytes} (hwidth : width ≤ s.length)
    (hk : k < (width + 1) / 2) : nodeRow N width s k = .ok (layerStep N width s k) := by
  unfold nodeRow
  rw [loadRow_ok (by omega)]
  show (loadRow s _ >>= fun r => storeRow s k (ckNode N (s.getD (2 * k) []) r)) = _
  rw [loadRow_ok (by split <;> omega)]
  show storeRow s k _ = _
  rw [storeRow, if_pos (by omega), layerStep]
  split <;> rfl

theorem nodeRows_ok {width : Nat} {s : List Bytes} (hwidth : width ≤ s.length) :
    nodeRows N width s = .ok (foldLayer N width s) := by
  have upTo : ∀ k ≤ (width + 1) / 2, (List.range k).foldlM (nodeRow N width) s =
      .ok ((List.range k).foldl (layerStep N width) s) := by
    intro k
    induction k with
    | zero => exact fun _ => rfl
    | succ k ih =>
        intro hk
        have hlength := (folded_range (N := N) hwidth (show k ≤ (width + 1) / 2 by omega)).length
        rw [List.range_succ, List.foldlM_append, ih (by omega), List.foldl_append]
        show (nodeRow N width _ k >>= pure) = _
        rw [nodeRow_ok (by rw [hlength]; exact hwidth) (by omega)]
        rfl
  exact upTo _ le_rfl

theorem foldRows_ok {fuel : Nat} : ∀ {width : Nat} {s : List Bytes}, width ≤ s.length →
    foldRows N fuel width s = .ok (foldLayers N fuel width s) := by
  induction fuel with
  | zero => exact fun _ => rfl
  | succ fuel ih =>
      intro width s hwidth
      rw [foldRows, foldLayers]
      split
      · rw [nodeRows_ok hwidth]
        exact ih (by rw [length_foldLayer hwidth]; omega)
      · rfl

/-! ## The leaves -/

/-- What is left of the payload behind `i` chunks, in chunks, is one less behind one more. -/
theorem chunksLeft_succ {n chunk i left : Nat} (hchunk : 0 < chunk)
    (hleft : left + 1 = (n - i * chunk + chunk - 1) / chunk) :
    i * chunk < n ∧ left = (n - (i + 1) * chunk + chunk - 1) / chunk := by
  have hsome : i * chunk < n := by
    by_contra hnone
    rw [show n - i * chunk + chunk - 1 = chunk - 1 by omega, Nat.div_eq_of_lt (by omega)] at hleft
    cases hleft
  refine ⟨hsome, ?_⟩
  have hnext : (i + 1) * chunk = i * chunk + chunk := Nat.succ_mul i chunk
  by_cases hlast : n ≤ (i + 1) * chunk
  · have hone : (n - i * chunk + chunk - 1) / chunk = 1 :=
      Nat.div_eq_of_lt_le (by omega) (by omega)
    rw [show n - (i + 1) * chunk + chunk - 1 = chunk - 1 by omega, Nat.div_eq_of_lt (by omega)]
    omega
  · have hmore : n - i * chunk + chunk - 1 = n - (i + 1) * chunk + chunk - 1 + chunk := by omega
    rw [hmore, Nat.add_div_right _ hchunk] at hleft
    omega

theorem cut_nil (size fuel : Nat) : Source.cut size fuel [] = [] := by
  cases fuel with
  | zero => rfl
  | succ fuel => rw [Source.cut, if_pos rfl]

/-- **The loop over the leaves** writes the hashes of the chunks that are left, each of them read inside
the payload. -/
theorem leafRows_ok {payload : Bytes} {chunk : Nat} (hchunk : 0 < chunk)
    (hfits : payload.length + chunk ≤ 2 ^ w) {left : Nat} :
    ∀ {i fuel : Nat} {s : List Bytes}, left = (payload.length - i * chunk + chunk - 1) / chunk →
      i + left ≤ s.length → payload.length - i * chunk ≤ fuel →
      ∃ s', leafRows N w payload chunk left i s = .ok s' ∧ s'.length = s.length ∧
        s'.take (i + left) =
          s.take i ++ (Source.cut chunk fuel (payload.drop (i * chunk))).map (ckLeaf N) := by
  induction left with
  | zero =>
      intro i fuel s hleft _ _
      have hnone : payload.length - i * chunk + chunk - 1 < chunk :=
        (Nat.div_eq_zero_iff_lt hchunk).mp hleft.symm
      rw [List.drop_eq_nil_of_le (by omega), cut_nil]
      exact ⟨s, rfl, rfl, (List.append_nil _).symm⟩
  | succ left ih =>
      intro i fuel s hleft hroom hfuel
      obtain ⟨hsome, hleft'⟩ := chunksLeft_succ hchunk hleft
      have hnext : (i + 1) * chunk = i * chunk + chunk := Nat.succ_mul i chunk
      obtain ⟨fuel, rfl⟩ := Nat.exists_eq_succ_of_ne_zero (show fuel ≠ 0 by omega)
      set rest := payload.drop (i * chunk) with hrest
      have hlength : rest.length = payload.length - i * chunk := List.length_drop
      -- the chunk is read where it is, and not beyond the payload
      have hload : loadBytes payload (i * chunk % 2 ^ w)
          (if (i + 1) * chunk % 2 ^ w ≤ payload.length then chunk
            else (payload.length + 2 ^ w - i * chunk % 2 ^ w) % 2 ^ w) = .ok (rest.take chunk) := by
        rw [Nat.mod_eq_of_lt (show i * chunk < 2 ^ w by omega)]
        rcases Nat.lt_or_ge ((i + 1) * chunk) (2 ^ w) with hlt | hge
        · rw [Nat.mod_eq_of_lt hlt]
          split
          · rw [loadBytes, if_pos (by omega)]
          · have hlen : (payload.length + 2 ^ w - i * chunk) % 2 ^ w = payload.length - i * chunk := by
              rw [show payload.length + 2 ^ w - i * chunk = payload.length - i * chunk + 2 ^ w by omega,
                Nat.add_mod_right, Nat.mod_eq_of_lt (by omega)]
            rw [hlen, loadBytes, if_pos (by omega), ← hrest, List.take_of_length_le (by omega),
              List.take_of_length_le (by omega)]
        · omega
      have hstore : storeRow s i (ckLeaf N (rest.take chunk)) = .ok (s.set i (ckLeaf N (rest.take chunk))) :=
        if_pos (by omega)
      obtain ⟨s', hs', hlen', htake⟩ := @ih (i + 1) fuel (s.set i (ckLeaf N (rest.take chunk))) hleft'
        (by rw [List.length_set]; omega) (by omega)
      refine ⟨s', ?_, hlen'.trans List.length_set, ?_⟩
      · rw [leafRows, hload]
        show (storeRow s i _ >>= _) = _
        rw [hstore]
        exact hs'
      · have hne : rest ≠ [] := List.length_pos_iff.mp (by omega)
        have hcut : Source.cut chunk (fuel + 1) rest =
            rest.take chunk :: Source.cut chunk fuel (payload.drop ((i + 1) * chunk)) := by
          rw [Source.cut, if_neg hne, hrest, List.drop_drop, hnext]
        have hset : (s.set i (ckLeaf N (rest.take chunk))).take (i + 1) =
            s.take i ++ [ckLeaf N (rest.take chunk)] := by
          rw [List.take_add_one, List.take_set_of_le le_rfl, List.getElem?_set_self (by omega)]
          rfl
        rw [show i + (left + 1) = i + 1 + left by omega, htake, hset, hcut, List.map_cons,
          List.append_assoc]
        rfl

/-- As many rows are written as there are chunks. -/
theorem length_cut {chunk : Nat} (hchunk : 0 < chunk) {fuel : Nat} :
    ∀ {bytes : Bytes}, bytes.length ≤ fuel →
      (Source.cut chunk fuel bytes).length = (bytes.length + chunk - 1) / chunk := by
  induction fuel with
  | zero =>
      intro bytes hlen
      rw [show bytes.length + chunk - 1 = chunk - 1 by omega, Nat.div_eq_of_lt (by omega)]
      rfl
  | succ fuel ih =>
      intro bytes hlen
      rw [Source.cut]
      split
      · rename_i hnil
        rw [hnil]
        exact (Nat.div_eq_of_lt (show 0 + chunk - 1 < chunk by omega)).symm
      · rename_i hne
        have hpos : 0 < bytes.length := List.length_pos_iff.mpr hne
        have hone : (bytes.length + chunk - 1) / chunk = (bytes.length - 1) / chunk + 1 := by
          rw [show bytes.length + chunk - 1 = bytes.length - 1 + chunk by omega,
            Nat.add_div_right _ hchunk]
        rw [List.length_cons, ih (by rw [List.length_drop]; omega), List.length_drop, hone]
        by_cases hlast : bytes.length ≤ chunk
        · rw [show bytes.length - chunk + chunk - 1 = chunk - 1 by omega, Nat.div_eq_of_lt (by omega),
            Nat.div_eq_of_lt (by omega)]
        · rw [show bytes.length - chunk + chunk - 1 = bytes.length - 1 by omega]

/-! ## Against the reference -/

theorem length_chunk {chunk : Nat} (hchunk : 0 < chunk) {payload : Bytes} (hne : payload ≠ []) :
    Source.chunk payload chunk = Source.cut chunk payload.length payload ∧
      (Source.chunk payload chunk).length = (payload.length + chunk - 1) / chunk := by
  have hpos : 0 < payload.length := List.length_pos_iff.mpr hne
  have hlength := length_cut hchunk (le_refl payload.length)
  have hsome : Source.cut chunk payload.length payload ≠ [] := by
    have hone : 0 < (payload.length + chunk - 1) / chunk := Nat.div_pos (by omega) hchunk
    exact List.length_pos_iff.mp (by omega)
  have heq : Source.chunk payload chunk = Source.cut chunk payload.length payload := by
    unfold Source.chunk
    split
    · exact absurd ‹_› hsome
    · rfl
  exact ⟨heq, by rw [heq, hlength]⟩

/-- The count that is computed, where the sum does not wrap. -/
theorem count_of_fits {payload : Bytes} {chunk : Nat} (hchunk : 0 < chunk)
    (hfits : payload = [] ∨ payload.length + chunk ≤ 2 ^ w) :
    (if payload.length = 0 then 1 else (payload.length + chunk - 1) % 2 ^ w / chunk) =
      (Source.chunk payload chunk).length := by
  by_cases hnil : payload = []
  · rw [hnil]
    rfl
  · have hpos : 0 < payload.length := List.length_pos_iff.mpr hnil
    have hle : payload.length + chunk ≤ 2 ^ w := hfits.resolve_left hnil
    rw [if_neg (by omega), (length_chunk hchunk hnil).2, Nat.mod_eq_of_lt (by omega)]

/-- The rows before the rounds begin with the leaves of the reference. -/
theorem rows_of_fits {payload : Bytes} {chunk : Nat} {s : List Bytes} (hchunk : 0 < chunk)
    (hfits : payload = [] ∨ payload.length + chunk ≤ 2 ^ w)
    (hroom : (Source.chunk payload chunk).length ≤ s.length) : ∃ s',
      firstRows N w payload chunk (Source.chunk payload chunk).length s = .ok s' ∧
      s'.length = s.length ∧
      s'.take (Source.chunk payload chunk).length = (Source.chunk payload chunk).map (ckLeaf N) := by
  by_cases hnil : payload = []
  · subst hnil
    have hlt : 0 < s.length := hroom
    refine ⟨s.set 0 (ckLeaf N []), ?_, List.length_set, ?_⟩
    · rw [firstRows, if_pos List.length_nil, storeRow, if_pos hlt]
    · cases s with
      | nil => cases hlt
      | cons a rest => rfl
  · have hpos : 0 < payload.length := List.length_pos_iff.mpr hnil
    obtain ⟨hcut, hcount⟩ := length_chunk hchunk hnil
    obtain ⟨s', hs', hlen, htake⟩ := @leafRows_ok N w payload chunk hchunk (hfits.resolve_left hnil)
      (Source.chunk payload chunk).length 0 payload.length s
      (by rw [hcount, Nat.zero_mul, Nat.sub_zero]) (by omega) (by omega)
    refine ⟨s', by rw [firstRows, if_neg (by omega), hs'], hlen, ?_⟩
    rw [Nat.zero_add, Nat.zero_mul, List.drop_zero, ← hcut] at htake
    exact htake

/-- The rounds over rows that begin with the leaves end in the root of the reference. -/
theorem foldRows_root {leaves s : List Bytes} (hne : leaves ≠ []) (hroom : leaves.length ≤ s.length)
    (htake : s.take leaves.length = leaves) : ∃ s' root tree,
      foldRows N leaves.length leaves.length s = .ok s' ∧ loadRow s' 0 = .ok root ∧
        Merkle.buildTree N.toNode (leaves.map Hex.encode) = .ok tree ∧
        tree.root = Hex.encode root := by
  have hpos : 0 < leaves.length := List.length_pos_iff.mpr hne
  obtain ⟨tree, root, htree, hroot, hhex, -⟩ := Merkle.buildTree_eq N.toNode hne
  have hfold := take_foldLayers (N := N) hpos le_rfl hroom
  rw [htake, hroot] at hfold
  have hfirst : (foldLayers N leaves.length leaves.length s)[0]? = some root := by
    rw [← List.getElem?_take_of_lt Nat.zero_lt_one, hfold]
    rfl
  refine ⟨_, root, tree, foldRows_ok hroom, ?_, htree, hhex⟩
  rw [loadRow, hfirst]

/-- **Where the sum does not wrap**, the call keeps to its memory, refuses for room exactly when there
are more chunks than rows, and otherwise gives the root and the count of the reference. -/
theorem ckRoot_of_fits {payload : Bytes} {chunk : Nat} {s : List Bytes} (hchunk : 0 < chunk)
    (hfits : payload = [] ∨ payload.length + chunk ≤ 2 ^ w) :
    if s.length < (Source.chunk payload chunk).length then
      ckRoot N w payload chunk (some s) = .ok (.error .space)
    else ∃ root tree, ckRoot N w payload chunk (some s) =
        .ok (.ok (root, (Source.chunk payload chunk).length)) ∧
      Merkle.buildTree N.toNode ((Source.chunk payload chunk).map (Merkle.leafHash N.toNode)) =
        .ok tree ∧ tree.root = Hex.encode root := by
  have hleaves : (Source.chunk payload chunk).map (Merkle.leafHash N.toNode) =
      ((Source.chunk payload chunk).map (ckLeaf N)).map Hex.encode := by
    rw [List.map_map]
    rfl
  have hcount := count_of_fits hchunk hfits
  unfold ckRoot
  dsimp only
  rw [if_neg (show ¬ chunk = 0 by omega), hcount]
  split
  · rfl
  · rename_i hroom
    obtain ⟨s', hs', hlen, htake⟩ := rows_of_fits (N := N) hchunk hfits (Nat.le_of_not_lt hroom)
    obtain ⟨s'', root, tree, hs'', hroot, htree, hhex⟩ :=
      @foldRows_root N ((Source.chunk payload chunk).map (ckLeaf N)) s'
        (mt List.map_eq_nil_iff.mp (Source.chunk_ne_nil payload chunk))
        (by rw [List.length_map]; omega) (by rw [List.length_map]; exact htake)
    rw [List.length_map] at hs''
    refine ⟨root, tree, ?_, by rw [hleaves]; exact htree, hhex⟩
    rw [hs']
    show (foldRows N _ _ s' >>= _) = _
    rw [hs'']
    show (loadRow s'' 0 >>= _) = _
    rw [hroot]
    rfl

variable (N w)

/-- **The call agrees with the reference**: it does not leave its memory, refuses for room exactly when
there are more chunks than rows, and what it returns is the root and the number of the chunks. -/
def RootAgrees (payload : Bytes) (chunk : Nat) (s : List Bytes) : Prop :=
  ∃ r, ckRoot N w payload chunk (some s) = .ok r ∧
    (r = .error .space ↔ s.length < (Source.chunk payload chunk).length) ∧
    ∀ root count, r = .ok (root, count) → count = (Source.chunk payload chunk).length ∧
      ∃ tree, Merkle.buildTree N.toNode
        ((Source.chunk payload chunk).map (Merkle.leafHash N.toNode)) = .ok tree ∧
          tree.root = Hex.encode root

variable {N w}

/-- Where the sum wraps no chunk is counted, so what is returned is a row as it was found. -/
theorem ckRoot_of_wrap {payload : Bytes} {chunk : Nat} {s : List Bytes} (hn : payload.length < 2 ^ w)
    (hchunk : 0 < chunk) (hsize : chunk < 2 ^ w) (hne : payload ≠ [])
    (hwrap : 2 ^ w < payload.length + chunk) :
    ckRoot N w payload chunk (some s) = do return .ok (← loadRow s 0, 0) := by
  have hpos : 0 < payload.length := List.length_pos_iff.mpr hne
  have hcount : (payload.length + chunk - 1) % 2 ^ w / chunk = 0 := by
    rw [show payload.length + chunk - 1 = payload.length + chunk - 1 - 2 ^ w + 2 ^ w by omega,
      Nat.add_mod_right, Nat.mod_eq_of_lt (by omega), Nat.div_eq_of_lt (by omega)]
  unfold ckRoot
  dsimp only
  rw [if_neg (show ¬ chunk = 0 by omega), if_neg (show ¬ payload.length = 0 by omega), hcount,
    if_neg (Nat.not_lt_zero _), firstRows, if_neg (show ¬ payload.length = 0 by omega)]
  rfl

/-- **When the call agrees with the reference**: the payload is empty, or its length and the chunk size
together are at most `2 ^ w`. -/
theorem ckRoot_agrees_iff (N : FlightHost) {w : Nat} {payload : Bytes} {chunk : Nat} {s : List Bytes}
    (hn : payload.length < 2 ^ w) (hchunk : 0 < chunk) (hsize : chunk < 2 ^ w) :
    RootAgrees N w payload chunk s ↔ payload = [] ∨ payload.length + chunk ≤ 2 ^ w := by
  constructor
  · rintro ⟨r, hr, -, hvalue⟩
    by_contra hnot
    rw [not_or, Nat.not_le] at hnot
    rw [ckRoot_of_wrap hn hchunk hsize hnot.1 hnot.2] at hr
    cases hrow : loadRow s 0 with
    | error f =>
        rw [hrow] at hr
        cases hr
    | ok root =>
        rw [hrow] at hr
        cases hr
        have hcount := (hvalue root 0 rfl).1
        exact Source.chunk_ne_nil payload chunk (List.length_eq_zero_iff.mp hcount.symm)
  · intro hfits
    have h := @ckRoot_of_fits N w payload chunk s hchunk hfits
    split at h
    · rename_i hspace
      exact ⟨_, h, ⟨fun _ => hspace, fun _ => rfl⟩, fun _ _ hr => (by cases hr)⟩
    · rename_i hspace
      obtain ⟨root, tree, hr, htree, hhex⟩ := h
      refine ⟨_, hr, ⟨fun h => (by cases h), fun h => absurd h hspace⟩, ?_⟩
      rintro root' count' hsame
      cases hsame
      exact ⟨rfl, tree, htree, hhex⟩

/-- Three bytes in chunks of two, with room for one more row than that takes. -/
theorem ckRoot_agrees_sample :
    RootAgrees ⟨{ sampleNode with bufferOf := fun _ => none }, id⟩ 64 [1, 2, 3] 2 [[], [], []] ↔
      [1, 2, 3] = ([] : Bytes) ∨ ([1, 2, 3] : Bytes).length + 2 ≤ 2 ^ 64 :=
  ckRoot_agrees_iff _ (by decide) (by decide) (by decide)

/-- Two bytes that are to be one chunk of the largest size. -/
theorem ckRoot_largest :
    ¬ RootAgrees ⟨{ sampleNode with bufferOf := fun _ => none }, id⟩ 64 [1, 2] (2 ^ 64 - 1) [[]] := by
  rintro ⟨r, hr, -, hvalue⟩
  have hrun : ckRoot ⟨{ sampleNode with bufferOf := fun _ => none }, id⟩ 64 [1, 2] (2 ^ 64 - 1)
      (some [[]]) = .ok (.ok ([], 0)) := by decide +kernel
  rw [hrun] at hr
  cases hr
  exact absurd (hvalue [] 0 rfl).1 (by decide)

end Flight

end DtnCustody
