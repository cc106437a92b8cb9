import Recovery.Load
import Recovery.StoredLibs
import Recovery.Tracing

/-!
`LoadPartitionContents` step by step: the tokens of the name that it uses, the indices into the
arrays of pairs, the opening of the partition, and the buffer that grows along the sizes.
-/
namespace Recovery.PartitionNames
open Memory Load Tracing Tracing.Traced List

variable (L : Libs)

/-- What the call does on its way. -/
inductive Use where
  /-- A result of `strtok` is used as a string. -/
  | token (text : Option Path)
  /-- An index into `index`, `size` or `sha1sum`. -/
  | pair (i : Int)
  | opens
  deriving DecidableEq, Repr

inductive Halt where
  | returns (code : Int) (file : FileContents)
  | crash

abbrev Run := Traced Use Halt

def useToken (text : Option Path) : Run Path := do
  note (.token text)
  match text with
  | some t => pure t
  | none => stop .crash
def usePair (pairs : Nat) (i : Int) : Run Unit := do
  note (.pair i)
  if 0 ≤ i ∧ i < pairs then pure () else stop .crash

/-- The loop that reads the sizes and the texts of the hashes. A text is kept without being used. -/
def fillPairs (file : FileContents) (pairs : Nat) : Nat → Nat → List Path → Run (List (Nat × Option Path))
  | _, 0, _ => pure []
  | i, left + 1, fields => do
    let sizeStr ← useToken fields.head?
    usePair pairs i
    let size := unsigned 64 (strtol sizeStr)
    if size = 0 then stop (.returns (-1) file)
    else do
      let rest ← fillPairs file pairs (i + 1) left fields.tail.tail
      pure ((size, fields.tail.head?) :: rest)

/-- The pairs with their indices, in order of size. -/
def sortIndices (pairs : List (Nat × Option Path)) : List ((Nat × Option Path) × Nat) :=
  pairs.zipIdx.insertionSort fun a b => a.1.1 ≤ b.1.1

/-- What was read so far: the rest of the partition, the buffer with the place of the next byte, the
    number of bytes and the SHA-1 context. -/
structure Reading where
  rest : Bytes
  data : Bytes
  p : Nat
  size : Nat
  ctx : Bytes

def readUpTo (want : Nat) (r : Reading) : Run (Option (Nat × Reading)) :=
  let next := unsigned 64 ((want : Int) - r.size)
  if 0 < next then
    let chunk := r.rest.take next
    if chunk.length ≠ next then pure none
    else match setSlice r.data r.p chunk with
      | none => stop .crash
      | some data =>
        pure (some (next, ⟨r.rest.drop next, data, r.p, r.size + next, r.ctx ++ chunk⟩))
  else pure (some (0, r))

def failed (file : FileContents) (size : Nat) : Halt :=
  .returns (-1) { file.freed with size, sized := nofun }

/-- The loop over the pairs in order of size: what was read when a hash matched. -/
def tryPairs (file : FileContents) (pairs : Nat) : Nat → List ((Nat × Option Path) × Nat) → Reading → Run Reading
  | _, [], r => stop (failed file r.size)
  | i, ((want, sum), index) :: rest, r => do
    usePair pairs i
    usePair pairs index
    match ← readUpTo want r with
    | none => stop (failed file r.size)
    | some (read, r) => do
      let str ← useToken sum
      match parseSha1 str with
      | none => stop (failed file r.size)
      | some parsed =>
        if L.sha1 r.ctx = parsed then pure r else tryPairs file pairs (i + 1) rest { r with p := r.p + read }

def partitionFor (mtd : Bool) (name : Path) : Partition := if mtd then .mtd name else .emmc name

def loadPairs (s : Storage) (file : FileContents) (mtd : Bool) (name : Option Path)
    (pairs : List (Nat × Option Path)) : Run Reading := do
  let name ← useToken name
  note .opens
  match openPartition s (partitionFor mtd name) with
  | none => stop (.returns (-1) file)
  | some contents => do
    -- the largest size is looked up before the loop
    usePair pairs.length (pairs.length - 1)
    let sorted := sortIndices pairs
    let largest := (sorted.getLast?.map fun entry => entry.1.1).getD 0
    tryPairs L file pairs.length 0 sorted ⟨contents, L.fresh largest, 0, 0, []⟩

/-- `LoadPartitionContents`: what was read when a hash matched. A name with a bad number of colons
    is only reported. -/
def loadPartition (s : Storage) (filename : Path) (file : FileContents) : Run Reading := do
  let fields := tokens filename
  let magic ← useToken fields.head?
  if magic = "MTD".toList ∨ magic = "EMMC".toList then do
    let pairs ← fillPairs file (pairCount filename) 0 (pairCount filename) (fields.drop 2)
    loadPairs L s file (magic = "MTD".toList) fields.tail.head? pairs
  else stop (.returns (-1) file)

/-! ## The fields of a name -/

/-- A token that is there, or an index of a pair. -/
def Proper (pairs : Nat) : Use → Prop
  | .token text => text.isSome
  | .pair i => 0 ≤ i ∧ i < pairs
  | .opens => True

def sizeNumber (sizeStr : Path) : Nat := unsigned 64 (strtol sizeStr)
def ZeroAt (fields : List Path) (k : Nat) : Prop := ∃ str, fields[2 * k]? = some str ∧ sizeNumber str = 0
def SizeAt (fields : List Path) (k : Nat) : Prop := ∃ str, fields[2 * k]? = some str ∧ sizeNumber str ≠ 0

private theorem at_succ (fields : List Path) (k : Nat) : fields[2 * (k + 1)]? = fields.tail.tail[2 * k]? := by
  simp only [getElem?_tail]
  rfl

inductive Filled (file : FileContents) (pairs left : Nat) (fields : List Path) :
    Run (List (Nat × Option Path)) → Prop
  | done {run : Run (List (Nat × Option Path))} {found : List (Nat × Option Path)} (result : run.result = .ok found)
      (count : found.length = left) (sizes : ∀ k < left, SizeAt fields k)
      (sums : 2 * left ≤ fields.length → ∀ pair ∈ found, pair.2.isSome) (positive : ∀ pair ∈ found, 0 < pair.1)
      (proper : Within (Proper pairs) run) (closed : .opens ∉ run.trace) : Filled file pairs left fields run
  | zero {run : Run (List (Nat × Option Path))} {k : Nat} (result : run.result = .error (.returns (-1) file))
      (early : k < left) (size : ZeroAt fields k) (proper : Within (Proper pairs) run)
      (closed : .opens ∉ run.trace) : Filled file pairs left fields run
  | missing {run : Run (List (Nat × Option Path))} {k : Nat} (early : k < left) (sizes : ∀ j < k, SizeAt fields j)
      (none : fields[2 * k]? = none) (improper : ¬ Within (Proper pairs) run) : Filled file pairs left fields run

variable {α : Type} {str : Path} {pairs i left : Nat} {file : FileContents} {rest : List Path} {s : Storage}
  {magic name : Path}

theorem useToken_bind (t : Path) (k : Path → Run α) :
    useToken (some t) >>= k = ⟨(k t).result,.token (some t) :: (k t).trace⟩ := rfl
theorem usePair_bind {i : Int} (inside : 0 ≤ i ∧ i < pairs) (k : Unit → Run α) :
    usePair pairs i >>= k = ⟨(k ()).result,.pair i :: (k ()).trace⟩ := by
  simp only [usePair,note_bind,if_pos inside]
  rfl
theorem fillPairs_zero (inside : i < pairs)
    (zero : sizeNumber str = 0) : fillPairs file pairs i (left + 1) (str :: rest) =
      ⟨.error (.returns (-1) file),[.token (some str),.pair i]⟩ := by
  rw [fillPairs,head?_cons,useToken_bind,usePair_bind ⟨by omega,by omega⟩]
  simp only [sizeNumber] at zero
  simp only [zero,if_true]
  rfl
theorem fillPairs_cons (inside : i < pairs)
    (positive : sizeNumber str ≠ 0) : fillPairs file pairs i (left + 1) (str :: rest) =
      ⟨((fillPairs file pairs (i + 1) left rest.tail).result).map ((sizeNumber str, rest.head?) :: ·),
        .token (some str) :: .pair i :: (fillPairs file pairs (i + 1) left rest.tail).trace⟩ := by
  rw [fillPairs,head?_cons,useToken_bind,usePair_bind ⟨by omega,by omega⟩]
  simp only [sizeNumber] at positive
  simp only [positive,if_false,tail_cons]
  cases found : (fillPairs file pairs (i + 1) left rest.tail).result with
  | ok more =>
    rw [bind_eq_ok found]
    simp [sizeNumber,Except.map]
  | error e =>
    rw [bind_eq_error found]
    simp [Except.map]

theorem within_pair {β : Type} {i : Int} {run : Run α} {result : Except Halt β}
    (index : Proper pairs (.pair i)) (proper : Within (Proper pairs) run) :
    Within (Proper pairs) (⟨result,.token (some str) :: .pair i :: run.trace⟩ : Run β) := by
  intro use member
  rcases mem_cons.mp member with rfl | member
  · rfl
  rcases mem_cons.mp member with rfl | member
  · exact index
  · exact proper use member
private theorem fillPairs_filled (file : FileContents) (fields : List Path) (room : i + left ≤ pairs) :
    Filled file pairs left fields (fillPairs file pairs i left fields) := by
  induction left generalizing i fields with
  | zero => exact .done rfl rfl (by simp) (by simp) (by simp) (by simp [fillPairs,Within]) (by simp [fillPairs])
  | succ left ih =>
    cases fields with
    | nil =>
      refine .missing (k := 0) (by omega) (by simp) rfl fun proper => ?_
      simpa [Proper] using proper (.token none) (mem_singleton.mpr rfl)
    | cons str rest =>
      have inside : i < pairs := by omega
      have index : Proper pairs (.pair i) := ⟨by omega,by omega⟩
      by_cases zero : sizeNumber str = 0
      · rw [fillPairs_zero inside zero]
        refine .zero (k := 0) rfl (by omega) ⟨str,rfl,zero⟩ ?_ (by simp)
        simpa [Within,Proper] using index
      rw [fillPairs_cons inside zero]
      -- what is known of the later pairs is known of these fields, two places on
      have later (k : Nat) : (str :: rest)[2 * (k + 1)]? = rest.tail[2 * k]? := at_succ (str :: rest) k
      have sizes {n : Nat} (known : ∀ k < n, SizeAt rest.tail k) : ∀ k < n + 1, SizeAt (str :: rest) k := by
        intro k small
        cases k with
        | zero => exact ⟨str,rfl,zero⟩
        | succ k =>
          obtain ⟨other,found,size⟩ := known k (by omega)
          exact ⟨other,(later k).trans found,size⟩
      cases ih rest.tail (i := i + 1) (by omega) with
      | @done found result count known sums positive proper closed =>
        refine .done (by rw [result,Except.map]) (by simp [count])
          (sizes known) ?_ ?_ ?_ (by simpa using closed)
        · intro enough pair member
          simp only [length_cons] at enough
          rcases mem_cons.mp member with rfl | member
          · cases rest with
            | nil => simp only [length_nil] at enough; omega
            | cons sum rest => rfl
          · exact sums (by rw [length_tail]; omega) pair member
        · intro pair member
          rcases mem_cons.mp member with rfl | member
          · exact Nat.pos_of_ne_zero zero
          · exact positive pair member
        · exact within_pair index proper
      | @zero k result early size proper closed =>
        obtain ⟨other,found,zero'⟩ := size
        refine .zero (k := k + 1) (by simp [result,Except.map]) (by omega) ⟨other,(later k).trans found,zero'⟩ ?_
          (by simpa using closed)
        exact within_pair index proper
      | @missing k early known none improper =>
        refine .missing (k := k + 1) (by omega) (sizes known) ((later k).trans none) fun proper => improper ?_
        exact fun use member => proper use (mem_cons_of_mem _ (mem_cons_of_mem _ member))

/-! ## The loop over the pairs -/

theorem within_useToken (t : Option Path) : Within (Proper pairs) (useToken t) ↔ t.isSome := by
  cases t <;> simp [useToken,Within,note_bind,Proper]
theorem within_usePair {i : Int} (inside : 0 ≤ i ∧ i < pairs) : Within (Proper pairs) (usePair pairs i) := by
  rw [usePair,within_bind]
  refine ⟨by simpa [Proper] using inside,fun _ _ => ?_⟩
  rw [if_pos inside]
  exact within_pure _ _
private theorem within_readUpTo (want : Nat) (r : Reading) : Within (Proper pairs) (readUpTo want r) := by
  simp only [readUpTo]
  repeat' split
  all_goals simp
private theorem within_tryPairs {entries : List ((Nat × Option Path) × Nat)}
    (room : i + entries.length ≤ pairs) (sums : ∀ entry ∈ entries, entry.1.2.isSome)
    (indices : ∀ entry ∈ entries, entry.2 < pairs) (r : Reading) :
    Within (Proper pairs) (tryPairs L file pairs i entries r) := by
  induction entries generalizing i r with
  | nil => exact within_stop _ _
  | cons entry rest ih =>
    obtain ⟨⟨want,sum⟩,index⟩ := entry
    simp only [length_cons] at room
    have small := indices _ (by simp : ((want,sum),index) ∈ ((want,sum),index) :: rest)
    have known := sums _ (by simp : ((want,sum),index) ∈ ((want,sum),index) :: rest)
    refine within_bind.mpr ⟨within_usePair ⟨by omega,by omega⟩,fun _ _ => ?_⟩
    refine within_bind.mpr ⟨within_usePair ⟨by omega,by omega⟩,fun _ _ => ?_⟩
    refine within_bind.mpr ⟨within_readUpTo want r,fun done _ => ?_⟩
    cases done with
    | none => exact within_stop _ _
    | some result =>
      obtain ⟨read,after⟩ := result
      refine within_bind.mpr ⟨(within_useToken sum).mpr known,fun str _ => ?_⟩
      cases parseSha1 str with
      | none => exact within_stop _ _
      | some parsed =>
        simp only
        split
        · exact within_pure _ _
        · exact ih (by omega) (fun entry member => sums entry (mem_cons_of_mem _ member))
            (fun entry member => indices entry (mem_cons_of_mem _ member)) _

theorem mem_sortIndices {pairs : List (Nat × Option Path)} {entry : (Nat × Option Path) × Nat}
    (member : entry ∈ sortIndices pairs) : entry.1 ∈ pairs ∧ entry.2 < pairs.length := by
  have listed : entry ∈ pairs.zipIdx := (mem_insertionSort _).mp member
  obtain ⟨pair,index⟩ := entry
  have found := mem_zipIdx_iff_getElem?.mp listed
  exact ⟨mem_of_getElem? found,(List.getElem?_eq_some_iff.mp found).1⟩
theorem length_sortIndices (pairs : List (Nat × Option Path)) : (sortIndices pairs).length = pairs.length := by
  rw [sortIndices,length_insertionSort,length_zipIdx]
private theorem within_loadPairs {mtd : Bool} {name : Option Path}
    {pairs : List (Nat × Option Path)} (named : name.isSome) (some : 0 < pairs.length)
    (sums : ∀ pair ∈ pairs, pair.2.isSome) :
    Within (Proper pairs.length) (loadPairs L s file mtd name pairs) := by
  refine within_bind.mpr ⟨(within_useToken name).mpr named,fun text _ => ?_⟩
  refine within_bind.mpr ⟨by simp [Proper],fun _ _ => ?_⟩
  cases openPartition s (partitionFor mtd text) with
  | none => exact within_stop _ _
  | some contents =>
    refine within_bind.mpr ⟨within_usePair ⟨by omega,by omega⟩,fun _ _ => ?_⟩
    refine within_tryPairs L (by rw [length_sortIndices]; omega) ?_ ?_ _
    · exact fun entry member => sums _ (mem_sortIndices member).1
    · exact fun entry member => (mem_sortIndices member).2

/-! ## Good names -/

/-- An odd number of colons, at least three, and fields that are not empty for the type, the
    partition and all the pairs. -/
def Good (name : Path) : Prop :=
  3 ≤ name.count ':' ∧ name.count ':' % 2 = 1 ∧ 2 + 2 * pairCount name ≤ (tokens name).length
def Rejected (run : Run Reading) : Prop :=
  (∃ file, run.result = .error (.returns (-1) file)) ∧ .opens ∉ run.trace
/-- No missing token is used and no index is out of range; a bad name is rejected. -/
def Sound (name : Path) (run : Run Reading) : Prop :=
  Within (Proper (pairCount name)) run ∧ (¬ Good name → Rejected run)
def ZeroSize (name : Path) : Prop := ∃ k < pairCount name, ZeroAt ((tokens name).drop 2) k

theorem tokens_first {rest : Path} (noColon : ':' ∉ magic) (nonempty : magic ≠ []) :
    tokens (magic ++ ':' :: rest) = magic :: tokens rest := by
  rw [tokens,splitOn_append_cons_self_of_not_mem noColon,filter_cons_of_pos (by simpa using nonempty)]
  rfl
private theorem tokens_partition (marked : isPartition name = true) :
    ∃ magic rest, tokens name = magic :: rest ∧ (magic = "MTD".toList ∨ magic = "EMMC".toList) := by
  rcases Bool.or_eq_true_iff.mp marked with mtd | emmc
  · obtain ⟨rest,rfl⟩ := List.isPrefixOf_iff_prefix.mp mtd
    exact ⟨_,_,tokens_first (by decide : ':' ∉ "MTD".toList) (by decide),Or.inl rfl⟩
  · obtain ⟨rest,rfl⟩ := List.isPrefixOf_iff_prefix.mp emmc
    exact ⟨_,_,tokens_first (by decide : ':' ∉ "EMMC".toList) (by decide),Or.inr rfl⟩

theorem loadPartition_eq
    (fields : tokens name = magic :: rest) (kind : magic = "MTD".toList ∨ magic = "EMMC".toList) :
    loadPartition L s name file =
      ⟨(fillPairs file (pairCount name) 0 (pairCount name) rest.tail >>=
          loadPairs L s file (magic = "MTD".toList) rest.head?).result,
        .token (some magic) :: (fillPairs file (pairCount name) 0 (pairCount name) rest.tail >>=
          loadPairs L s file (magic = "MTD".toList) rest.head?).trace⟩ := by
  have drop : (magic :: rest).drop 2 = rest.tail := by simp
  rw [loadPartition,fields,head?_cons,useToken_bind,if_pos kind,drop]
  rfl
private theorem sound_iff {body : Run Reading} :
    Sound name ⟨body.result,.token (some magic) :: body.trace⟩ ↔ Sound name body := by
  unfold Sound Rejected Within
  simp [Proper]
private theorem opens_of_loadPairs {mtd : Bool} {text : Path}
    {pairs : List (Nat × Option Path)} : .opens ∈ (loadPairs L s file mtd (some text) pairs).trace := by
  rw [loadPairs,useToken_bind,note_bind]
  simp

variable {L}

/-- The call is sound for a name if and only if the name is good, or one of its sizes is 0. -/
theorem load_sound_iff {name : Path} (marked : isPartition name = true) (s : Storage) (file : FileContents) :
    Sound name (loadPartition L s name file) ↔ Good name ∨ ZeroSize name := by
  obtain ⟨magic, rest, fields, kind⟩ := tokens_partition marked
  have behind : (tokens name).drop 2 = rest.tail := by
    rw [fields]
    simp
  have filled := fillPairs_filled file rest.tail (Nat.le_of_eq (Nat.zero_add (pairCount name)))
  rw [loadPartition_eq L fields kind, sound_iff, ZeroSize, behind]
  cases filled with
  | @done found result count sizes sums positive proper closed =>
    have never : ¬ ∃ k < pairCount name, ZeroAt rest.tail k := by
      rintro ⟨k, small, str, there, zero⟩
      obtain ⟨other, found, size⟩ := sizes k small
      obtain rfl := Option.some.inj (there.symm.trans found)
      exact size zero
    rw [or_iff_left never]
    constructor
    · rintro ⟨within, rejects⟩
      by_contra bad
      have opened := (rejects bad).2
      rw [bind_trace result] at opened
      -- the partition is opened, unless its name is missing
      cases named : rest.head? with
      | none =>
        rw [within_bind_ok result, named, loadPairs, within_bind, within_useToken] at within
        simp at within
      | some text =>
        rw [named] at opened
        exact opened (mem_append_right _ (opens_of_loadPairs L))
    · intro good
      obtain ⟨colons, odd, enough⟩ := good
      have pairs : 0 < pairCount name := by
        unfold pairCount
        omega
      rw [fields, length_cons] at enough
      refine ⟨(within_bind_ok result).mpr ⟨proper, ?_⟩, fun bad => absurd ⟨colons, odd, ?_⟩ bad⟩
      · rw [← count] at pairs ⊢
        refine within_loadPairs L ?_ pairs (sums (by rw [length_tail]; omega))
        cases rest with
        | nil => simp only [length_nil] at enough; omega
        | cons text rest => rfl
      · rw [fields, length_cons]
        exact enough
  | @zero k result early size proper closed =>
    refine iff_of_true ⟨?_, fun _ => ⟨⟨file, ?_⟩, ?_⟩⟩ (Or.inr ⟨k, early, size⟩)
    all_goals rw [bind_eq_error result]
    · exact proper
    · exact closed
  | @missing k early sizes none improper =>
    refine iff_of_false (fun sound => improper (within_bind.mp sound.1).1) (not_or.mpr ⟨?_, ?_⟩)
    · rintro ⟨_, _, enough⟩
      rw [fields, length_cons] at enough
      have short := List.getElem?_eq_none_iff.mp none
      rw [length_tail] at short
      omega
    · rintro ⟨j, small, str, there, zero⟩
      rcases Nat.lt_or_ge j k with before | behind
      · obtain ⟨other, found, size⟩ := sizes j before
        obtain rfl := Option.some.inj (there.symm.trans found)
        exact size zero
      · have short := List.getElem?_eq_none_iff.mp none
        rw [List.getElem?_eq_none (by omega)] at there
        cases there

/-! A name with one pair, and one without. -/

def noContents : FileContents := ⟨[], none, 0, ⟨0, 0, 0⟩, fun (_ : List UInt8) => nofun⟩
def bootStorage : Storage := ⟨fun _ => none, fun name => if name = "boot".toList then some ⟨[1, 2, 3, 4], true⟩ else none,
  fun _ => false, fun _ => true⟩
def goodName : Path := "MTD:boot:4:0000000000000000000000000000000000000000".toList
def shortName : Path := "MTD:boot:".toList

theorem goodName_sound : Sound goodName (loadPartition StoredLibs.storedLibs bootStorage goodName noContents) :=
  (load_sound_iff (by decide) bootStorage noContents).mpr (Or.inl (by unfold Good; decide))
theorem shortName_unsound : isPartition shortName = true ∧ ¬ Good shortName ∧
    .pair (-1) ∈ (loadPartition StoredLibs.storedLibs bootStorage shortName noContents).trace ∧
    .opens ∈ (loadPartition StoredLibs.storedLibs bootStorage shortName noContents).trace ∧
    ¬ Sound shortName (loadPartition StoredLibs.storedLibs bootStorage shortName noContents) := by
  have opened : .opens ∈ (loadPartition StoredLibs.storedLibs bootStorage shortName noContents).trace := by decide
  have bad : ¬ Good shortName := by
    unfold Good
    decide
  refine ⟨by decide, bad, by decide, opened, fun sound => ?_⟩
  exact (sound.2 bad).2 opened

end Recovery.PartitionNames
