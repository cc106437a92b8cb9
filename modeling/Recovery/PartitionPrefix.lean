import Recovery.PartitionNames
import Recovery.Repeats

/-!
What `LoadPartitionContents` loads. The buffer, the place of the next byte and the SHA-1 context
follow the partition, so that the call does what `loadPartitionContents` says with whole prefixes.
-/
namespace Recovery.PartitionPrefix
open Memory Load Tracing Tracing.Traced PartitionNames List Option

variable (L : Libs) {contents : Bytes} {r : Reading}

/-! ## The buffer follows the partition -/

/-- What was read is the start of the partition, in the buffer and in the SHA-1 context. -/
structure Follows (contents : Bytes) (r : Reading) : Prop where
  inside : r.size ≤ contents.length
  rest : r.rest = contents.drop r.size
  ctx : r.ctx = contents.take r.size
  data : r.data.take r.size = contents.take r.size

private theorem follows_start (contents data : Bytes) : Follows contents ⟨contents,data,0,0,[]⟩ :=
  ⟨Nat.zero_le _,rfl,rfl,rfl⟩
private theorem follows_place (follows : Follows contents r) (p : Nat) :
    Follows contents { r with p := p } := ⟨follows.inside,follows.rest,follows.ctx,follows.data⟩

variable {want : Nat} {pairs : List (Nat × Option Path)}

theorem take_append_slice (contents : Bytes) {size : Nat} (further : size ≤ want) :
    contents.take size ++ (contents.drop size).take (want - size) = contents.take want := by
  rw [← take_add,Nat.add_sub_cancel' further]
private theorem follows_next {data : Bytes} (follows : Follows contents r)
    (further : r.size ≤ want) (long : want ≤ contents.length)
    (stored : setSlice r.data r.size ((contents.drop r.size).take (want - r.size)) = some data) :
    Follows contents ⟨(contents.drop r.size).drop (want - r.size),data,r.size,r.size + (want - r.size),
      r.ctx ++ (contents.drop r.size).take (want - r.size)⟩ := by
  have total : r.size + (want - r.size) = want := Nat.add_sub_cancel' further
  refine ⟨total.trans_le long,?_,?_,?_⟩
  · simp only [drop_drop,total]
  · simp only [follows.ctx,take_append_slice contents further,total]
  simp only [total]
  unfold setSlice at stored
  split at stored
  · rename_i room
    obtain rfl := some.inj stored
    rw [Int.toNat_natCast,follows.data,take_append_slice contents further,take_append_of_le_length]
    · rw [take_take,Nat.min_self]
    · rw [length_take]
      omega
  · cases stored

inductive ReadTo (contents : Bytes) (want : Nat) (r : Reading) : Except Halt (Option (Nat × Reading)) → Prop
  | short (small : contents.length < want) : ReadTo contents want r (.ok none)
  | read {after : Reading} (long : want ≤ contents.length) (follows : Follows contents after)
      (size : after.size = want) (place : after.p = r.size) (room : after.data.length = r.data.length) :
      ReadTo contents want r (.ok (some (want - r.size, after)))

private theorem readUpTo_reads (follows : Follows contents r)
    (place : r.p = r.size) (further : r.size ≤ want) (fits : want < 2 ^ 64) (room : want ≤ r.data.length) :
    ReadTo contents want r (readUpTo want r).result := by
  have inside := follows.inside
  have next : unsigned 64 ((want : Int) - r.size) = want - r.size := by
    unfold unsigned
    omega
  simp only [readUpTo,next,follows.rest,place]
  split
  · rename_i more
    have count : ((contents.drop r.size).take (want - r.size)).length = min (want - r.size) (contents.length - r.size) := by
      rw [length_take,length_drop]
    split
    · exact .short (by omega)
    rename_i full
    have long : want ≤ contents.length := by omega
    cases stored : setSlice r.data r.size ((contents.drop r.size).take (want - r.size)) with
    | none =>
      unfold setSlice at stored
      rw [if_pos ⟨by omega,by omega⟩] at stored
      cases stored
    | some data =>
      refine .read long ?_ (Nat.add_sub_cancel' further) rfl (setSlice_length stored)
      exact follows_next follows further long stored
  · have same : r.size = want := by omega
    have none : want - r.size = 0 := by omega
    rw [← none]
    exact .read (same ▸ inside) follows same place rfl

/-! ## The whole call -/

def loaded : Except Halt Reading → Loaded
  | .ok r => some (0, ⟨L.sha1 r.ctx, some (r.data.take r.size), (r.data.take r.size).length, ⟨420, 0, 0⟩, by simp⟩)
  | .error (.returns code file) => some (code, file)
  | .error .crash => none

private theorem tryPairs_matches {file : FileContents} {pairs i : Nat}
    {entries : List ((Nat × Option Path) × Nat)} (count : i + entries.length ≤ pairs)
    (indices : ∀ entry ∈ entries, entry.2 < pairs) (fits : ∀ entry ∈ entries, entry.1.1 < 2 ^ 64)
    (sorted : entries.Pairwise fun a b => a.1.1 ≤ b.1.1) (further : ∀ entry ∈ entries, r.size ≤ entry.1.1)
    (room : ∀ entry ∈ entries, entry.1.1 ≤ r.data.length) (follows : Follows contents r) (place : r.p = r.size) :
    loaded L (tryPairs L file pairs i entries r).result =
      prefixContents L contents file (matchPrefix L contents (entries.map Prod.fst) r.size) := by
  induction entries generalizing i r with
  | nil => rfl
  | cons entry rest ih =>
    obtain ⟨⟨want,sum⟩,index⟩ := entry
    obtain ⟨first,ordered⟩ := pairwise_cons.mp sorted
    simp only [forall_mem_cons] at indices fits further room
    simp only [length_cons] at count
    rw [tryPairs,usePair_bind ⟨by omega,by omega⟩,usePair_bind ⟨by omega,by omega⟩]
    have reads := readUpTo_reads follows place further.1 fits.1 room.1
    simp only [map_cons,matchPrefix]
    generalize ended : (readUpTo want r).result = result at reads
    cases reads with
    | short small =>
      rw [bind_eq_ok ended,if_pos small]
      rfl
    | @read after long follows size place' room' =>
      rw [bind_eq_ok ended,if_neg (by omega)]
      simp only
      cases sum with
      | none => rfl
      | some str =>
        rw [useToken_bind]
        cases parsed : parseSha1 str with
        | none => simp [parsed,loaded,failed,prefixContents,stop,size]
        | some sha =>
          have data := follows.data
          have ctx := follows.ctx
          rw [size] at data ctx
          simp only [parsed,← ctx]
          by_cases same : L.sha1 after.ctx = sha
          · simp [same,loaded,prefixContents,← ctx,data,size,pure]
          simp only [same,if_false]
          rw [← size]
          refine ih (by omega) indices.2 fits.2 ordered ?_ ?_ (follows_place follows _) ?_
          · exact fun entry member => size.trans_le (first entry member)
          · exact fun entry member => (room.2 entry member).trans_eq room'.symm
          · simp only
            omega

/-- Reading the pairs, as a part of the call. -/
def halted {α : Type} (file : FileContents) : Ret α → Except Halt α
  | .ok a => .ok a
  | .err code => .error (.returns code file)
  | .stuck => .error .crash

private theorem fillPairs_reads (file : FileContents) {pairs i left : Nat} (fields : List Path) (room : i + left ≤ pairs) :
    (fillPairs file pairs i left fields).result = halted file (readPairs left fields) := by
  induction left generalizing i fields with
  | zero => rfl
  | succ left ih =>
    cases fields with
    | nil => rfl
    | cons str rest =>
      have inside : i < pairs := by omega
      simp only [readPairs]
      by_cases zero : sizeNumber str = 0
      · rw [fillPairs_zero inside zero,if_pos (by simpa [sizeNumber] using zero)]
        rfl
      · rw [fillPairs_cons inside zero,if_neg (by simpa [sizeNumber] using zero),ih rest.tail (by omega)]
        cases readPairs left rest.tail <;> rfl

theorem sortIndices_sorted (pairs : List (Nat × Option Path)) :
    (sortIndices pairs).Pairwise fun a b => a.1.1 ≤ b.1.1 := by
  exact pairwise_insertionSort _ pairs.zipIdx
private theorem sortIndices_pairs (pairs : List (Nat × Option Path)) : (sortIndices pairs).map Prod.fst = sortPairs pairs := by
  rw [sortIndices,sortPairs,map_insertionSort _ (s := fun a b : Nat × Option Path => a.1 ≤ b.1)]
  · rw [zipIdx_map_fst]
  · intro a _ b _
    rfl
private theorem readPairs_fits {n : Nat} {fields : List Path}
    (read : readPairs n fields = .ok pairs) : pairs.length = n ∧ ∀ pair ∈ pairs, pair.1 < 2 ^ 64 := by
  induction n generalizing fields pairs with
  | zero =>
    obtain rfl := Ret.ok.inj read
    simp
  | succ n ih =>
    cases fields with
    | nil => cases read
    | cons str rest =>
      simp only [readPairs] at read
      split at read
      · cases read
      cases later : readPairs n rest.tail with
      | ok found =>
        rw [later] at read
        obtain rfl := Ret.ok.inj read
        obtain ⟨count,fits⟩ := ih later
        refine ⟨by rw [length_cons,count],forall_mem_cons.mpr ⟨?_,fits⟩⟩
        unfold unsigned
        omega
      | err code => rw [later] at read; cases read
      | stuck => rw [later] at read; cases read

theorem le_largest {entry : (Nat × Option Path) × Nat}
    (member : entry ∈ sortIndices pairs) :
    entry.1.1 ≤ (((sortIndices pairs).getLast?.map fun entry => entry.1.1).getD 0) := by
  have sorted := sortIndices_sorted pairs
  rcases eq_nil_or_concat (sortIndices pairs) with empty | ⟨start,last,split⟩
  · rw [empty] at member
    cases member
  rw [concat_eq_append] at split
  rw [split] at member sorted ⊢
  rw [getLast?_concat,map_some,getD_some]
  rcases mem_append.mp member with earlier | final
  · exact (pairwise_append.mp sorted).2.2 entry earlier last (mem_singleton_self last)
  · rw [mem_singleton.mp final]

theorem loadPairs_matches {s : Storage} {file : FileContents} {mtd : Bool} {name : Path}
    (fits : ∀ pair ∈ pairs, pair.1 < 2 ^ 64) :
    loaded L (loadPairs L s file mtd (some name) pairs).result =
      match openPartition s (partitionFor mtd name) with
      | none => some (-1, file)
      | some contents =>
        if pairs = [] then none else prefixContents L contents file (matchPrefix L contents (sortPairs pairs) 0) := by
  rw [loadPairs,useToken_bind,note_bind]
  cases openPartition s (partitionFor mtd name) with
  | none => rfl
  | some contents =>
    simp only
    split
    · rename_i empty
      subst empty
      rfl
    rename_i some
    have count := length_pos_of_ne_nil some
    rw [usePair_bind ⟨by omega,by omega⟩]
    rw [← sortIndices_pairs]
    refine tryPairs_matches L (by rw [length_sortIndices]; omega) (fun entry member => (mem_sortIndices member).2)
      (fun entry member => fits _ (mem_sortIndices member).1) (sortIndices_sorted pairs) (by simp) ?_
      (follows_start contents _) rfl
    intro entry member
    rw [Libs.fresh_length]
    exact le_largest member

theorem partitionOf_magic {magic text : Path} {rest : List Path}
    (kind : magic = "MTD".toList ∨ magic = "EMMC".toList) :
    partitionOf (magic :: text :: rest) = .ok (partitionFor (magic = "MTD".toList) text) := by
  rcases kind with rfl | rfl
  · rfl
  · rfl

/-- The call with its buffer, its pointer and its SHA-1 context does what the search over whole
    prefixes says, for every name. -/
theorem loadPartition_refines (s : Storage) (name : Path) (file : FileContents) :
    loaded L (loadPartition L s name file).result = loadPartitionContents L s name file := by
  cases fields : tokens name with
  | nil =>
    rw [loadPartition,loadPartitionContents,fields]
    rfl
  | cons magic rest =>
    by_cases kind : magic = "MTD".toList ∨ magic = "EMMC".toList
    · rw [loadPartition_eq L fields kind,loadPartitionContents,fields]
      have reads := fillPairs_reads file rest.tail (Nat.le_of_eq (Nat.zero_add (pairCount name)))
      cases rest with
      | nil =>
        have stuck : partitionOf [magic] = .stuck := by rcases kind with rfl | rfl <;> rfl
        simp only [stuck]
        -- the first use of a missing token ends the call
        cases count : pairCount name with
        | zero => rfl
        | succ n => rfl
      | cons text rest =>
        simp only [partitionOf_magic kind,drop_succ_cons,drop_zero,tail_cons,head?_cons]
        simp only [tail_cons] at reads
        cases found : readPairs (pairCount name) rest with
        | ok pairs =>
          rw [found] at reads
          rw [bind_result reads]
          exact loadPairs_matches L (readPairs_fits found).2
        | err code =>
          rw [found] at reads
          rw [bind_eq_error reads]
          rfl
        | stuck =>
          rw [found] at reads
          rw [bind_eq_error reads]
          rfl
    · have bad : partitionOf (magic :: rest) = .err (-1) := by
        rw [not_or] at kind
        simp only [partitionOf,if_neg kind.1,if_neg kind.2]
      rw [loadPartition,loadPartitionContents,fields,head?_cons,useToken_bind,if_neg kind]
      simp only [bad]
      rfl

/-! ## The search -/

/-- The partition starts with as many bytes as a pair says, and they have its hash. -/
def Starts (contents : Bytes) (pair : Nat × Option Path) : Prop :=
  pair.1 ≤ contents.length ∧ pair.2.bind parseSha1 = some (L.sha1 (contents.take pair.1))

inductive Searched (contents : Bytes) (pairs : List (Nat × Option Path)) : PrefixMatch → Prop
  | found {pair : Nat × Option Path} (listed : pair ∈ pairs) (starts : Starts L contents pair)
      (smallest : ∀ other ∈ pairs, Starts L contents other → pair.1 ≤ other.1) : Searched contents pairs (.found pair.1)
  | failed {size : Nat} (none : ∀ pair ∈ pairs, ¬ Starts L contents pair) : Searched contents pairs (.failed size)

theorem matchPrefix_searched (contents : Bytes)
    (sorted : pairs.Pairwise fun a b => a.1 ≤ b.1) (parses : ∀ pair ∈ pairs, (pair.2.bind parseSha1).isSome) (size : Nat) :
    Searched L contents pairs (matchPrefix L contents pairs size) := by
  induction pairs generalizing size with
  | nil => exact .failed (by simp)
  | cons pair rest ih =>
    obtain ⟨next,sum⟩ := pair
    obtain ⟨first,ordered⟩ := pairwise_cons.mp sorted
    rw [forall_mem_cons] at parses
    simp only [matchPrefix]
    split
    · -- the sizes behind are not smaller
      rename_i short
      refine .failed (forall_mem_cons.mpr ⟨fun starts => by have := starts.1; omega,?_⟩)
      intro other member starts
      have larger := first other member
      have fits := starts.1
      omega
    · rename_i long
      obtain ⟨str,rfl⟩ : ∃ str, sum = some str := by
        cases sum with
        | none => simp at parses
        | some str => exact ⟨str,rfl⟩
      obtain ⟨parsed,known⟩ := isSome_iff_exists.mp parses.1
      simp only [bind_some] at known
      simp only [known]
      split
      · rename_i same
        refine .found (mem_cons_self : (next,some str) ∈ _) ⟨by omega,?_⟩ ?_
        · rw [same]
          exact known
        · exact forall_mem_cons.mpr ⟨fun _ => le_rfl,fun other member _ => first other member⟩
      · rename_i differs
        have here : ¬ Starts L contents (next,some str) := fun starts =>
          differs (some.inj (starts.2.symm.trans known))
        generalize ended : matchPrefix L contents rest next = result
        have searched := ih ordered parses.2 next
        rw [ended] at searched
        cases searched with
        | @found pair listed starts smallest =>
          refine .found (mem_cons_of_mem _ listed) starts (forall_mem_cons.mpr ⟨?_,smallest⟩)
          exact fun starts => absurd starts here
        | failed none => exact .failed (forall_mem_cons.mpr ⟨here,none⟩)

/-! ## Well-formed names -/

def number (digits : Path) : Nat := digits.foldl (fun n c => n * 10 + (c.toNat - '0'.toNat)) 0

/-- A positive size and a SHA-1 in a name. -/
structure SizedSum where
  size : Path
  digits : ∀ c ∈ size, c.isDigit = true
  positive : 0 < number size
  sum : Path
  forty : sum.length = 40
  hex : ∀ c ∈ sum, (hexDigit c).isSome

structure PartitionName where
  mtd : Bool
  partition : Path
  named : partition ≠ []
  noColon : ':' ∉ partition
  pairs : List SizedSum
  listed : pairs ≠ []

def PartitionName.magic (name : PartitionName) : Path := if name.mtd then "MTD".toList else "EMMC".toList
def PartitionName.fields (name : PartitionName) : List Path :=
  name.magic :: name.partition :: name.pairs.flatMap fun pair => [pair.size, pair.sum]
def PartitionName.text (name : PartitionName) : Path := [':'].intercalate name.fields

theorem digit_not_space {c : Char} (digit : c.isDigit = true) :
    ¬ (c = ' ' ∨ (9 ≤ c.toNat ∧ c.toNat ≤ 13)) ∧ c ≠ '-' ∧ c ≠ '+' ∧ c ≠ ':' := by
  have range : 48 ≤ c.toNat ∧ c.toNat ≤ 57 := by
    simpa [Char.isDigit,Char.le_def,UInt32.le_iff_toNat_le] using digit
  refine ⟨?_,?_,?_,?_⟩
  · rintro (rfl | bounds)
    · simp at range
    · omega
  all_goals
    rintro rfl
    simp at range

theorem strtol_digits {str : Path} (digits : ∀ c ∈ str, c.isDigit = true) (some : str ≠ []) :
    strtol str = min (number str : Int) (2 ^ 63 - 1) := by
  cases str with
  | nil => exact absurd rfl some
  | cons c rest =>
    obtain ⟨space,minus,plus,_⟩ := digit_not_space (digits c mem_cons_self)
    have whole : ((c :: rest) ++ []).takeWhile Char.isDigit = c :: rest ++ [].takeWhile Char.isDigit :=
      takeWhile_append_of_pos digits
    simp only [append_nil,takeWhile_nil] at whole
    simp only [strtol]
    rw [dropWhile_cons_of_neg (by simpa using space)]
    split
    · rename_i parts
      exact absurd (cons.inj parts).1 minus
    · rename_i parts
      exact absurd (cons.inj parts).1 plus
    · simp only [whole]
      rfl

theorem SizedSum.size_some (pair : SizedSum) : pair.size ≠ [] := by
  intro empty
  have positive := pair.positive
  rw [empty] at positive
  simp [number] at positive
theorem sizeNumber_digits (pair : SizedSum) : sizeNumber pair.size = min (number pair.size) (2 ^ 63 - 1) := by
  rw [sizeNumber,strtol_digits pair.digits pair.size_some,unsigned]
  omega

theorem hexBytes_some {n : Nat} {str : Path} (length : str.length = 2 * n) (hex : ∀ c ∈ str, (hexDigit c).isSome) :
    ∃ bytes, hexBytes n str = some (bytes, []) := by
  induction n generalizing str with
  | zero =>
    obtain rfl := length_eq_zero_iff.mp length
    exact ⟨[],rfl⟩
  | succ n ih =>
    obtain ⟨high,low,rest,rfl⟩ : ∃ high low rest, str = high :: low :: rest := by
      match str, length with
      | high :: low :: rest, _ => exact ⟨high,low,rest,rfl⟩
    simp only [forall_mem_cons] at hex
    obtain ⟨h,isHigh⟩ := isSome_iff_exists.mp hex.1
    obtain ⟨l,isLow⟩ := isSome_iff_exists.mp hex.2.1
    obtain ⟨bytes,later⟩ := ih (by simpa [Nat.mul_succ] using length) hex.2.2
    exact ⟨UInt8.ofNat (h <<< 4 ||| l) :: bytes,by simp [hexBytes,isHigh,isLow,later]⟩
theorem parseSha1_some (pair : SizedSum) : (parseSha1 pair.sum).isSome := by
  obtain ⟨bytes,read⟩ := hexBytes_some (n := 20) pair.forty pair.hex
  simp [parseSha1,read]

namespace PartitionName

theorem fields_length (name : PartitionName) : name.fields.length = 2 + 2 * name.pairs.length := by
  simp [fields,length_flatMap]
  omega
theorem field_proper (name : PartitionName) : ∀ field ∈ name.fields, field ≠ [] ∧ ':' ∉ field := by
  intro field member
  rcases mem_cons.mp member with rfl | member
  · unfold magic
    split <;> decide
  rcases mem_cons.mp member with rfl | member
  · exact ⟨name.named,name.noColon⟩
  · obtain ⟨pair,_,inside⟩ := mem_flatMap.mp member
    simp only [mem_cons,not_mem_nil,or_false] at inside
    rcases inside with rfl | rfl
    · exact ⟨pair.size_some,fun colon => (digit_not_space (pair.digits _ colon)).2.2.2 rfl⟩
    · refine ⟨fun empty => ?_,fun colon => ?_⟩
      · have forty := pair.forty
        rw [empty] at forty
        cases forty
      · exact absurd (pair.hex _ colon) (by decide)

theorem tokens_text (name : PartitionName) : tokens name.text = name.fields := by
  have split : name.text.splitOn ':' = name.fields :=
    splitOn_intercalate ':' (fun field member => (name.field_proper field member).2) (by simp [fields])
  rw [tokens,split,filter_eq_self]
  exact fun field member => by simpa using (name.field_proper field member).1
theorem count_intercalate {x : Char} {ls : List Path} (free : ∀ l ∈ ls, x ∉ l) (some : ls ≠ []) :
    ([x].intercalate ls).count x + 1 = ls.length := by
  induction ls with
  | nil => exact absurd rfl some
  | cons l rest ih =>
    rw [forall_mem_cons] at free
    have none : l.count x = 0 := count_eq_zero.mpr free.1
    cases rest with
    | nil => simp [none]
    | cons next rest =>
      have later := ih free.2 (by simp)
      rw [intercalate_cons_cons,count_append,count_append,none,count_singleton_self,
        length_cons]
      omega
theorem pairCount_text (name : PartitionName) : pairCount name.text = name.pairs.length := by
  have count := count_intercalate (fun field member => (name.field_proper field member).2) (by simp [fields])
  rw [fields_length] at count
  have colons : name.text.count ':' + 1 = 2 + 2 * name.pairs.length := count
  unfold pairCount
  omega

def read (name : PartitionName) : List (Nat × Option Path) :=
  name.pairs.map fun pair => (sizeNumber pair.size, some pair.sum)
theorem readPairs_fields (name : PartitionName) :
    readPairs name.pairs.length (name.pairs.flatMap fun pair => [pair.size,pair.sum]) = .ok name.read := by
  unfold read
  induction name.pairs with
  | nil => rfl
  | cons pair rest ih =>
    have positive := pair.positive
    have size := sizeNumber_digits pair
    rw [flatMap_cons,length_cons,cons_append,readPairs]
    simp only [cons_append,tail_cons,head?_cons,nil_append,ih]
    rw [if_neg]
    · rfl
    · rw [sizeNumber] at size
      omega

end PartitionName

def PartitionName.target (name : PartitionName) : Partition := partitionFor name.mtd name.partition

/-- The first bytes of the partition, as many as the pair says, have its hash. -/
def Matches (contents : Bytes) (pair : SizedSum) : Prop :=
  number pair.size ≤ contents.length ∧ parseSha1 pair.sum = some (L.sha1 (contents.take (number pair.size)))

structure Prefixed (contents : Bytes) (pair : SizedSum) (file : FileContents) : Prop where
  data : file.data = some (contents.take (number pair.size))
  size : file.size = number pair.size
  sha1 : parseSha1 pair.sum = some file.sha1


variable {L}

theorem starts_pair (addressable : contents.length < 2 ^ 63 - 1) (pair : SizedSum) :
    Starts L contents (sizeNumber pair.size, some pair.sum) ↔ Matches L contents pair := by
  have size := sizeNumber_digits pair
  unfold Starts Matches
  simp only [bind_some]
  by_cases fits : number pair.size ≤ contents.length
  · rw [show sizeNumber pair.size = number pair.size by omega]
  · exact iff_of_false (fun starts => by omega) (fun found => fits found.1)

theorem search_name (name : PartitionName) (contents : Bytes) :
    Searched L contents name.read (matchPrefix L contents (sortPairs name.read) 0) := by
  have parses : ∀ pair ∈ sortPairs name.read,
      (pair.2.bind parseSha1).isSome := by
    intro pair member
    obtain ⟨sized,_,rfl⟩ := mem_map.mp ((mem_insertionSort _).mp member)
    exact parseSha1_some sized
  have searched := matchPrefix_searched L contents (Repeats.sortPairs_sorted _) parses 0
  generalize matchPrefix L contents _ 0 = result at searched
  have same (pair : Nat × Option Path) := mem_insertionSort (x := pair) (r := fun a b => a.1 ≤ b.1)
    (l := name.read)
  cases searched with
  | found listed starts smallest =>
    exact .found ((same _).mp listed) starts fun other member => smallest other ((same _).mpr member)
  | failed none => exact .failed fun pair member => none pair ((same _).mpr member)

/-- With a well-formed name the call returns; it succeeds if and only if some pair matches the start of
    the partition, and then it gives the prefix of the smallest size that matches. -/
theorem load_smallest_prefix (name : PartitionName) {s : Storage} (file : FileContents) {contents : Bytes}
    (opened : openPartition s name.target = some contents) (addressable : contents.length < 2 ^ 63 - 1) :
    ∃ code after, loaded L (loadPartition L s name.text file).result = some (code, after) ∧
      (code = 0 ↔ ∃ pair ∈ name.pairs, Matches L contents pair) ∧
      (code = 0 → ∃ pair ∈ name.pairs, Matches L contents pair ∧
        (∀ other ∈ name.pairs, Matches L contents other → number pair.size ≤ number other.size) ∧
        Prefixed contents pair after) := by
  have kind : name.magic = "MTD".toList ∨ name.magic = "EMMC".toList := by
    unfold PartitionName.magic
    split <;> simp
  have target : partitionFor (name.magic = "MTD".toList) name.partition = name.target := by
    unfold PartitionName.magic PartitionName.target
    split <;> simp_all
  have nonempty : name.read ≠ [] := by
    simpa [PartitionName.read] using name.listed
  have value : loaded L (loadPartition L s name.text file).result = prefixContents L contents file
      (matchPrefix L contents (sortPairs name.read) 0) := by
    rw [loadPartition_refines, loadPartitionContents, name.tokens_text, PartitionName.fields, name.pairCount_text]
    simp only [partitionOf_magic kind, target, drop_succ_cons, drop_zero, name.readPairs_fields, opened,
      if_neg nonempty]
  rw [value]
  have searched := search_name (L := L) name contents
  generalize matchPrefix L contents _ 0 = result at searched
  cases searched with
  | @found entry listed starts smallest =>
    obtain ⟨pair, member, rfl⟩ := mem_map.mp listed
    have found := (starts_pair addressable pair).mp starts
    have size := sizeNumber_digits pair
    have fits := found.1
    have whole : sizeNumber pair.size = number pair.size := by omega
    refine ⟨0, _, rfl, iff_of_true rfl ⟨pair, member, found⟩, fun _ => ⟨pair, member, found, ?_, ?_⟩⟩
    · intro other listed found'
      have least := smallest _ (mem_map_of_mem listed) ((starts_pair addressable other).mpr found')
      have size' := sizeNumber_digits other
      omega
    · constructor
      · simp only [whole]
      · simp only [whole, length_take, Nat.min_eq_left fits]
      · simp only [whole]
        exact found.2
  | @failed size none =>
    have never : ¬ ∃ pair ∈ name.pairs, Matches L contents pair := by
      rintro ⟨pair, member, found⟩
      exact none _ (mem_map_of_mem member) ((starts_pair addressable pair).mpr found)
    exact ⟨-1, _, rfl, iff_of_false (by decide) never, fun zero => absurd zero (by decide)⟩

def bootName : PartitionName where
  mtd := true
  partition := "boot".toList
  named := by decide
  noColon := by decide
  pairs :=
    [⟨"6".toList, all_eq_true.mp (by decide), by decide,
        "12dada1fff4d4787ade3333147202c3b443e376f".toList, by decide, all_eq_true.mp (by decide)⟩,
      ⟨"4".toList, all_eq_true.mp (by decide), by decide,
        "12dada1fff4d4787ade3333147202c3b443e376f".toList, by decide, all_eq_true.mp (by decide)⟩]
  listed := by decide

theorem bootName_loads : ∃ after, loaded StoredLibs.storedLibs
      (loadPartition StoredLibs.storedLibs bootStorage bootName.text noContents).result = some (0, after) ∧
    after.data = some [1, 2, 3, 4] := by
  obtain ⟨code, after, result, succeeds, smallest⟩ := load_smallest_prefix (L := StoredLibs.storedLibs) bootName
    noContents (by decide : openPartition bootStorage bootName.target = some [1, 2, 3, 4]) (by decide)
  have sum : parseSha1 "12dada1fff4d4787ade3333147202c3b443e376f".toList = some (StoredLibs.storedLibs.sha1 [1, 2, 3, 4]) := by
    decide +kernel
  obtain rfl := succeeds.mpr ⟨_, mem_cons_of_mem _ mem_cons_self, by decide, sum⟩
  obtain ⟨pair, listed, found, _, prefixed⟩ := smallest rfl
  refine ⟨after, result, prefixed.data.trans ?_⟩
  simp only [bootName, mem_cons, not_mem_nil, or_false] at listed
  rcases listed with rfl | rfl
  · exact absurd found.1 (by decide)
  · rfl

end Recovery.PartitionPrefix
