import Recovery.ZipArchive
import Recovery.Bisection
import Mathlib.Data.List.Lex
import Mathlib.Data.List.GetD

/-!
What `parseZipArchive` makes of the records of the central directory: the entries are
sorted by name, and of the records with one name the first one in the file is the first
one in the list.
-/
namespace Recovery.ZipOrder
open Memory Numbers Minzip Hash Tracing Tracing.Traced List
open ZipArchive Bisection

/-! ## Reads -/

section
variable (abi : Abi) (mem : Mem)

def peek (a : Nat) : Nat := (mem (abi.ptr a)).toNat
def peek2 (a : Nat) : Nat := peek abi mem a + (peek abi mem (a + 1) <<< 8)
def peek4 (a : Nat) : Nat :=
  peek abi mem a + (peek abi mem (a + 1) <<< 8) + (peek abi mem (a + 2) <<< 16) + (peek abi mem (a + 3) <<< 24)
def bytesAt (a n : Nat) : Bytes := (List.range n).map fun i => mem (abi.ptr (a + i))

theorem load_result (a : Nat) : (load abi mem a).result = .ok (peek abi mem a) := rfl
theorem load2LE_result (a : Nat) : (load2LE abi mem a).result = .ok (peek2 abi mem a) := rfl
theorem load4LE_result (a : Nat) : (load4LE abi mem a).result = .ok (peek4 abi mem a) := rfl
theorem load_trace (a : Nat) : (load abi mem a).trace = [abi.ptr a] := rfl
theorem load2LE_trace (a : Nat) : (load2LE abi mem a).trace = [abi.ptr a,abi.ptr (a + 1)] := rfl
theorem load4LE_trace (a : Nat) :
    (load4LE abi mem a).trace = [abi.ptr a,abi.ptr (a + 1),abi.ptr (a + 2),abi.ptr (a + 3)] := rfl

theorem bytesAt_succ (a n : Nat) : bytesAt abi mem a (n + 1) = mem (abi.ptr a) :: bytesAt abi mem (a + 1) n := by
  simp only [bytesAt,range_succ_eq_map,map_cons,map_map,Nat.add_zero]
  congr 2
  funext i
  simp only [Function.comp,Nat.succ_eq_add_one]
  congr 2
  omega
theorem length_bytesAt (a n : Nat) : (bytesAt abi mem a n).length = n := by simp [bytesAt]
theorem take_bytesAt {a k n : Nat} (less : k ≤ n) : (bytesAt abi mem a n).take k = bytesAt abi mem a k := by
  rw [bytesAt,← map_take,take_range,Nat.min_eq_left less,bytesAt]

private theorem strncmp_result (s1 s2 n : Nat) (text : ∀ b ∈ bytesAt abi mem s1 n, b ≠ 0) :
    (strncmp abi mem s1 s2 n).result = .ok (memcmp (bytesAt abi mem s1 n) (bytesAt abi mem s2 n)) := by
  induction n generalizing s1 s2 with
  | zero => rfl
  | succ n ih =>
    rw [bytesAt_succ] at text ⊢
    rw [bytesAt_succ,strncmp,bind_result (load_result abi mem s1),bind_result (load_result abi mem s2),memcmp]
    have some : peek abi mem s1 ≠ 0 := fun zero => text _ mem_cons_self (UInt8.toNat.inj zero)
    by_cases same : mem (abi.ptr s1) = mem (abi.ptr s2)
    · have equal : peek abi mem s1 = peek abi mem s2 := congrArg UInt8.toNat same
      rw [if_neg (not_not.mpr equal),if_neg some,if_neg (not_not.mpr same)]
      exact ih _ _ fun b member => text b (mem_cons_of_mem _ member)
    · have differ : peek abi mem s1 ≠ peek abi mem s2 := fun equal => same (UInt8.toNat.inj equal)
      rw [if_pos differ,if_pos same]
      rfl

/-! ## The order of names -/

def rank (name : Bytes) : List Nat := name.map UInt8.toNat

theorem rank_inj {x y : Bytes} (same : rank x = rank y) : x = y :=
  map_injective_iff.mpr (fun _ _ => UInt8.toNat.inj) same

/-- The comparison of the source: the bytes, and then the lengths. -/
def nameDifference (x y : Bytes) : Int := if memcmp x y = 0 then (x.length : Int) - y.length else memcmp x y

theorem nameDifference_sign (x y : Bytes) :
    (nameDifference x y < 0 ↔ rank x < rank y) ∧ (nameDifference x y > 0 ↔ rank y < rank x) := by
  induction x generalizing y with
  | nil =>
    cases y with
    | nil => simp [nameDifference,memcmp,rank]
    | cons b bs => simp [nameDifference,memcmp,rank]; omega
  | cons a as ih =>
    cases y with
    | nil => simp [nameDifference,memcmp,rank]; omega
    | cons b bs =>
      by_cases same : a = b
      · have shift : nameDifference (a :: as) (b :: bs) = nameDifference as bs := by
          simp [nameDifference,memcmp,same]
        rw [shift]
        simpa [rank,same,cons_lt_cons_iff] using ih bs
      · have differ : a.toNat ≠ b.toNat := fun equal => same (UInt8.toNat.inj equal)
        have first : nameDifference (a :: as) (b :: bs) = (a.toNat : Int) - b.toNat := by
          rw [nameDifference,memcmp,if_pos same,if_neg (by omega)]
        simp only [rank,map_cons,cons_lt_cons_iff]
        constructor <;> omega

private theorem memcmp_take {x y : Bytes} {k : Nat} (short : k = min x.length y.length) :
    memcmp (x.take k) (y.take k) = memcmp x y := by
  induction x generalizing y k with
  | nil => cases y <;> simp [short,memcmp]
  | cons a as ih =>
    cases y with
    | nil => simp [short,memcmp]
    | cons b bs =>
      obtain ⟨k,rfl⟩ : ∃ n, k = n + 1 := ⟨min as.length bs.length,by simp [short]⟩
      have short : k = min as.length bs.length := by simpa using short
      simp only [take_succ_cons,memcmp,ih short]

def Valid (fileName fileNameLen : Nat) : Prop :=
  fileNameLen < PATH_MAX ∧ ∀ b ∈ bytesAt abi mem fileName fileNameLen, 32 ≤ abi.char b.toNat ∧ abi.char b.toNat < 127

private theorem validChars_result (fileName n : Nat) : (validChars abi mem fileName n).result =
    .ok ((bytesAt abi mem fileName n).all fun b => 32 ≤ abi.char b.toNat ∧ abi.char b.toNat < 127) := by
  induction n generalizing fileName with
  | zero => rfl
  | succ n ih =>
    rw [validChars,bind_result (load_result abi mem fileName),bytesAt_succ,all_cons]
    dsimp only
    split
    · rename_i wrong
      simp only [peek] at wrong
      rw [pure_result,decide_eq_false (by omega),Bool.false_and]
    · rename_i right
      simp only [peek] at right
      rw [ih,decide_eq_true (by omega),Bool.true_and]
theorem validFilename_result (fileName fileNameLen : Nat) :
    ∃ valid, (validFilename abi mem fileName fileNameLen).result = .ok valid ∧
      (valid = true ↔ Valid abi mem fileName fileNameLen) := by
  unfold validFilename Valid
  split
  · exact ⟨false,rfl,by simp; omega⟩
  · rename_i short
    exact ⟨_,validChars_result abi mem fileName fileNameLen,by simp; omega⟩

private theorem char_zero : abi.char 0 = 0 := by
  unfold Abi.char
  split <;> rfl

variable {fileName fileNameLen : Nat} {es : List ZipEntry}

theorem Valid.text (valid : Valid abi mem fileName fileNameLen) :
    ∀ b ∈ bytesAt abi mem fileName fileNameLen, b ≠ 0 := by
  rintro b member rfl
  have := valid.2 0 member
  rw [show (0 : UInt8).toNat = 0 from rfl,char_zero] at this
  omega

/-! ## The place of an entry -/

def Named (e : ZipEntry) : Prop := Valid abi mem e.fileName e.fileNameLen

theorem compareNames_result {e : ZipEntry} (named : Named abi mem e) (short : fileNameLen < PATH_MAX) :
    (compareNames abi mem e fileName fileNameLen).result =
      .ok (nameDifference (e.name abi mem) (bytesAt abi mem fileName fileNameLen)) := by
  unfold compareNames
  have least : (if e.fileNameLen < fileNameLen then e.fileNameLen else fileNameLen) = min e.fileNameLen fileNameLen := by
    split <;> omega
  have whole : e.name abi mem = bytesAt abi mem e.fileName e.fileNameLen := rfl
  have text : ∀ b ∈ bytesAt abi mem e.fileName (min e.fileNameLen fileNameLen), b ≠ 0 := by
    intro b member
    rw [← take_bytesAt abi mem (Nat.min_le_left _ fileNameLen)] at member
    exact named.text abi mem b (mem_of_mem_take member)
  rw [least,bind_result (strncmp_result abi mem _ _ _ text),
    ← take_bytesAt abi mem (Nat.min_le_left e.fileNameLen fileNameLen),
    ← take_bytesAt abi mem (Nat.min_le_right e.fileNameLen fileNameLen),
    memcmp_take (by simp only [length_bytesAt]),whole,nameDifference,length_bytesAt,length_bytesAt]
  have exact : wrap 32 ((e.fileNameLen : Int) - fileNameLen) = (e.fileNameLen : Int) - fileNameLen := by
    have := named.1
    unfold PATH_MAX at *
    exact wrap_small (by omega) (by omega)
  rw [exact]
  split <;> rfl

private theorem searchEntry_result (named : ∀ e ∈ es, Named abi mem e)
    (short : fileNameLen < PATH_MAX) {steps : Nat} {low high : Int} (start : 0 ≤ low) (stop : high < es.length) :
    (searchEntry abi mem es fileName fileNameLen steps low high).result =
      .ok (bisect (fun i => nameDifference ((es.getD i noEntry).name abi mem) (bytesAt abi mem fileName fileNameLen))
        steps low high) := by
  induction steps generalizing low high with
  | zero => rfl
  | succ steps ih =>
    unfold searchEntry bisect
    split
    · rename_i more
      have inside : (low + (high - low) / 2).toNat < es.length := by omega
      have listed : es.getD (low + (high - low) / 2).toNat noEntry ∈ es := by
        rw [getD_eq_getElem _ _ inside]
        exact getElem_mem inside
      dsimp only
      rw [bind_result (compareNames_result abi mem (named _ listed) short)]
      split
      · exact ih (by omega) stop
      · split
        · exact ih start (by omega)
        · rfl
    · rfl

def nameRank (e : ZipEntry) : List Nat := rank (e.name abi mem)

theorem targetFor_result (named : ∀ e ∈ es, Named abi mem e) (sorted : Sorted (nameRank abi mem) es)
    (fileName : Nat) (short : fileNameLen < PATH_MAX) (few : es.length < 2 ^ 31) :
    ∃ target, (targetFor abi mem es es.length fileName fileNameLen).result = .ok target ∧
      Placed (nameRank abi mem) es (rank (bytesAt abi mem fileName fileNameLen)) target := by
  unfold targetFor
  split
  · let diff i := nameDifference ((es.getD i noEntry).name abi mem) (bytesAt abi mem fileName fileNameLen)
    have signs i (inside : i < es.length) : (diff i < 0 ↔ nameRank abi mem es[i] < rank (bytesAt abi mem fileName fileNameLen)) ∧
        (diff i > 0 ↔ rank (bytesAt abi mem fileName fileNameLen) < nameRank abi mem es[i]) := by
      simp only [diff,getD_eq_getElem _ _ inside]
      exact nameDifference_sign _ _
    obtain ⟨low,placed⟩ : -1 ≤ bisect diff es.length 0 ((es.length : Int) - 1) ∧ Placed (nameRank abi mem) es
        (rank (bytesAt abi mem fileName fileNameLen)) (bisect diff es.length 0 ((es.length : Int) - 1) + 1).toNat :=
      bisect_placed sorted signs (by omega) (by omega) (by omega) (by omega) (fun i inside negative => by omega)
        (fun i inside beyond => by omega)
    rw [bind_result (searchEntry_result abi mem named short (by omega) (by omega))]
    set high := bisect diff es.length 0 ((es.length : Int) - 1)
    have inside := placed.inside
    have exact : unsigned 32 (high + 1) = (high + 1).toNat := by
      obtain ⟨n,equal⟩ : ∃ n : Nat, high + 1 = n := ⟨(high + 1).toNat,by omega⟩
      rw [equal,Int.toNat_natCast]
      exact unsigned_small (by omega)
    rw [exact,if_pos inside]
    exact ⟨_,rfl,placed⟩
  · rename_i none
    have empty : es = [] := length_eq_zero_iff.mp (by omega)
    subst empty
    exact ⟨0,rfl,by simp,by simp,by simp,by simp⟩

/-! ## Records -/

variable (S : SafeIop abi) (map : MemMapping)

def recordNameLen (ptr : Nat) : Nat := peek2 abi mem (ptr + CENNAM)
def recordName (ptr : Nat) : Bytes := bytesAt abi mem (abi.ptr (ptr + CENHDR)) (recordNameLen abi mem ptr)
def nextRecord (ptr : Nat) : Nat :=
  abi.ptr (ptr + (CENHDR + recordNameLen abi mem ptr + peek2 abi mem (ptr + CENEXT) + peek2 abi mem (ptr + CENCOM)))
/-- The local header of a record, and where the data starts in the file. -/
def localHdrOf (ptr : Nat) : Nat := map.addr + peek4 abi mem (ptr + CENOFF)
def dataOffset (ptr : Nat) : Nat :=
  unsigned 32 (peek4 abi mem (ptr + CENOFF) + LOCHDR + peek2 abi mem (localHdrOf abi mem map ptr + LOCNAM) +
    peek2 abi mem (localHdrOf abi mem map ptr + LOCEXT) : Nat)
def entryOf (ptr : Nat) : ZipEntry where
  fileNameLen := recordNameLen abi mem ptr
  fileName := abi.ptr (ptr + CENHDR)
  offset := abi.long (dataOffset abi mem map ptr)
  compLen := abi.long (peek4 abi mem (ptr + CENSIZ))
  uncompLen := abi.long (peek4 abi mem (ptr + CENLEN))
  compression := peek2 abi mem (ptr + CENHOW)
  modTime := abi.long (peek4 abi mem (ptr + CENTIM))
  crc32 := abi.long (peek4 abi mem (ptr + CENCRC))
  versionMadeBy := peek2 abi mem (ptr + CENVEM)
  externalFileAttributes := abi.long (peek4 abi mem (ptr + CENATX))

def Compatible (ptr : Nat) : Prop :=
  ¬ (peek2 abi mem (ptr + CENVEM) &&& 0xff00 ≠ 0 ∧ peek2 abi mem (ptr + CENVEM) &&& 0xff00 ≠ CENVEM_UNIX)
/-- The sums of the last two checks. -/
def DataFits (ptr : Nat) : Prop :=
  S.addLong (entryOf abi mem map ptr).offset (entryOf abi mem map ptr).compLen = true ∧
    ¬ abi.ptr (unsigned abi.bits (entryOf abi mem map ptr).offset + unsigned abi.bits (entryOf abi mem map ptr).compLen) > map.length

/-- What is asked of the local header of a record, and of its data. -/
structure LocalChecked (ptr : Nat) : Prop where
  compatible : Compatible abi mem ptr
  pointer : localHdrOf abi mem map ptr < 2 ^ abi.bits
  header : ¬ abi.ptr (localHdrOf abi mem map ptr + LOCHDR) > map.limit abi
  signature : peek4 abi mem (localHdrOf abi mem map ptr) = LOCSIG
  data : DataFits abi mem S map ptr
structure Checked (ptr : Nat) : Prop where
  header : ¬ abi.ptr (ptr + CENHDR) > map.limit abi
  signature : peek4 abi mem ptr = CENSIG
  name : ¬ abi.ptr (abi.ptr (ptr + CENHDR) + recordNameLen abi mem ptr) > map.limit abi
  valid : Valid abi mem (abi.ptr (ptr + CENHDR)) (recordNameLen abi mem ptr)
  rest : LocalChecked abi mem S map ptr

theorem readEntry_returns {ptr : Nat} {e : ZipEntry} :
    (readEntry abi mem S map ptr (abi.ptr (ptr + CENHDR)) (recordNameLen abi mem ptr) (peek4 abi mem (ptr + CENOFF))).result =
      .ok e ↔ LocalChecked abi mem S map ptr ∧ e = entryOf abi mem map ptr := by
  unfold readEntry
  simp only [bind_result (load4LE_result abi mem _),bind_result (load2LE_result abi mem _)]
  by_cases compatible : Compatible abi mem ptr
  · rw [if_neg compatible,bind_result (load4LE_result abi mem _),S.addPtr_eq]
    by_cases pointer : localHdrOf abi mem map ptr < 2 ^ abi.bits
    · have pointed : map.addr + peek4 abi mem (ptr + CENOFF) < 2 ^ abi.bits := pointer
      rw [if_pos pointed]
      dsimp only
      by_cases header : abi.ptr (map.addr + peek4 abi mem (ptr + CENOFF) + LOCHDR) > map.limit abi
      · rw [if_pos header]
        exact ⟨nofun,fun ⟨checked,_⟩ => absurd header checked.header⟩
      rw [if_neg header,bind_result (load4LE_result abi mem _)]
      by_cases signature : peek4 abi mem (localHdrOf abi mem map ptr) = LOCSIG
      · have signed : peek4 abi mem (map.addr + peek4 abi mem (ptr + CENOFF)) = LOCSIG := signature
        rw [if_neg (not_not.mpr signed),bind_result (load2LE_result abi mem _),bind_result (load2LE_result abi mem _)]
        change (if ¬ S.addLong (entryOf abi mem map ptr).offset (entryOf abi mem map ptr).compLen then bail
          else if abi.ptr (unsigned abi.bits (entryOf abi mem map ptr).offset +
            unsigned abi.bits (entryOf abi mem map ptr).compLen) > map.length then bail
          else pure (entryOf abi mem map ptr) : Parser ZipEntry).result = .ok e ↔ _
        by_cases data : DataFits abi mem S map ptr
        · obtain ⟨sum,fits⟩ := data
          rw [if_neg (not_not.mpr sum),if_neg fits]
          constructor
          · intro done
            cases done
            exact ⟨⟨compatible,pointer,header,signature,sum,fits⟩,rfl⟩
          · rintro ⟨-,rfl⟩
            rfl
        · refine ⟨fun done => ?_,fun ⟨checked,_⟩ => absurd checked.data data⟩
          split at done
          · cases done
          rename_i sum
          split at done
          · cases done
          · rename_i fits
            exact absurd ⟨not_not.mp sum,fits⟩ data
      · have signed : peek4 abi mem (map.addr + peek4 abi mem (ptr + CENOFF)) ≠ LOCSIG := signature
        rw [if_pos signed]
        exact ⟨nofun,fun ⟨checked,_⟩ => absurd checked.signature signature⟩
    · have pointed : ¬ map.addr + peek4 abi mem (ptr + CENOFF) < 2 ^ abi.bits := pointer
      rw [if_neg pointed]
      exact ⟨nofun,fun ⟨checked,_⟩ => absurd checked.pointer pointer⟩
  · rw [if_pos (not_not.mp compatible)]
    exact ⟨nofun,fun ⟨checked,_⟩ => absurd checked.compatible compatible⟩

theorem parseRecord_returns {i ptr : Nat} {r : Nat × List ZipEntry} :
    (parseRecord abi mem S map i ptr es).result = .ok r ↔ Checked abi mem S map ptr ∧
      ∃ target, (targetFor abi mem es i (abi.ptr (ptr + CENHDR)) (recordNameLen abi mem ptr)).result = .ok target ∧
        r = (nextRecord abi mem ptr, es.insertIdx target (entryOf abi mem map ptr)) := by
  unfold parseRecord
  by_cases header : abi.ptr (ptr + CENHDR) > map.limit abi
  · rw [if_pos header]
    exact ⟨nofun,fun ⟨checked,_⟩ => absurd header checked.header⟩
  rw [if_neg header,bind_result (load4LE_result abi mem _)]
  by_cases signature : peek4 abi mem ptr = CENSIG
  · rw [if_neg (not_not.mpr signature)]
    simp only [bind_result (load4LE_result abi mem _),bind_result (load2LE_result abi mem _)]
    by_cases name : abi.ptr (abi.ptr (ptr + CENHDR) + recordNameLen abi mem ptr) > map.limit abi
    · have long : abi.ptr (abi.ptr (ptr + CENHDR) + peek2 abi mem (ptr + CENNAM)) > map.limit abi := name
      rw [if_pos long]
      exact ⟨nofun,fun ⟨checked,_⟩ => absurd name checked.name⟩
    have fits : ¬ abi.ptr (abi.ptr (ptr + CENHDR) + peek2 abi mem (ptr + CENNAM)) > map.limit abi := name
    obtain ⟨valid,checks,means⟩ := validFilename_result abi mem (abi.ptr (ptr + CENHDR)) (recordNameLen abi mem ptr)
    have checks : (validFilename abi mem (abi.ptr (ptr + CENHDR)) (peek2 abi mem (ptr + CENNAM))).result = .ok valid := checks
    rw [if_neg fits,bind_result checks]
    cases valid with
    | false =>
      refine ⟨nofun,fun ⟨checked,_⟩ => ?_⟩
      exact absurd (means.mpr checked.valid) (by simp)
    | true =>
      rw [if_neg (by simp),bind_returns]
      constructor
      · rintro ⟨target,found,read⟩
        obtain ⟨e,done,last⟩ := bind_returns.mp read
        cases last
        obtain ⟨rest,rfl⟩ := (readEntry_returns abi mem S map).mp done
        exact ⟨⟨header,signature,name,means.mp rfl,rest⟩,target,found,rfl⟩
      · rintro ⟨checked,target,found,rfl⟩
        exact ⟨target,found,bind_returns.mpr
          ⟨_,(readEntry_returns abi mem S map).mpr ⟨checked.rest,rfl⟩,rfl⟩⟩
  · rw [if_pos signature]
    exact ⟨nofun,fun ⟨checked,_⟩ => absurd checked.signature signature⟩

/-- The records that are looked at, in the order of the file. -/
def records : Nat → Nat → List Nat
  | 0, _ => []
  | left + 1, ptr => ptr :: records left (nextRecord abi mem ptr)

theorem length_records (left ptr : Nat) : (records abi mem left ptr).length = left := by
  induction left generalizing ptr with
  | zero => rfl
  | succ left ih => rw [records,length_cons,ih]

/-- What is kept while the records are read: the entries are sorted, and for each name the
    first one is from the first record with it. -/
structure Listed (ptrs : List Nat) (es : List ZipEntry) : Prop where
  count : es.length = ptrs.length
  named : ∀ e ∈ es, Named abi mem e
  sorted : Sorted (nameRank abi mem) es
  first : ∀ name, es.find? (fun e => nameRank abi mem e = name) =
    (ptrs.find? fun ptr => rank (recordName abi mem ptr) = name).map (entryOf abi mem map)

theorem Listed.add {ptrs : List Nat} (listed : Listed abi mem map ptrs es) {ptr target : Nat}
    (valid : Valid abi mem (abi.ptr (ptr + CENHDR)) (recordNameLen abi mem ptr))
    (placed : Placed (nameRank abi mem) es (rank (recordName abi mem ptr)) target) :
    Listed abi mem map (ptrs ++ [ptr]) (es.insertIdx target (entryOf abi mem map ptr)) := by
  have place : Placed (nameRank abi mem) es (nameRank abi mem (entryOf abi mem map ptr)) target := placed
  refine ⟨?_,fun e member => ?_,listed.sorted.insert place,fun name => ?_⟩
  · rw [length_insertIdx_of_le_length placed.inside,listed.count,length_append,length_singleton]
  · rcases eq_or_mem_of_mem_insertIdx member with rfl | known
    · exact valid
    · exact listed.named e known
  rw [find_insert place,listed.first,find?_append]
  have own : nameRank abi mem (entryOf abi mem map ptr) = rank (recordName abi mem ptr) := rfl
  cases ptrs.find? fun ptr => rank (recordName abi mem ptr) = name with
  | some earlier => simp
  | none =>
    by_cases same : rank (recordName abi mem ptr) = name
    · simp [own,same]
    · simp [own,same]

theorem parseRecords_returns {left ptr : Nat} {ptrs : List Nat} {fs : List ZipEntry} (listed : Listed abi mem map ptrs es)
    (few : ptrs.length + left ≤ 2 ^ 31)
    (done : (parseRecords abi mem S map left ptrs.length ptr es).result = .ok fs) :
    (∀ p ∈ records abi mem left ptr, Checked abi mem S map p) ∧ Listed abi mem map (ptrs ++ records abi mem left ptr) fs := by
  induction left generalizing ptr ptrs es with
  | zero =>
    cases done
    exact ⟨by simp [records],by simpa [records] using listed⟩
  | succ left ih =>
    obtain ⟨r,one,rest⟩ := bind_returns.mp done
    obtain ⟨checked,target,found,rfl⟩ := (parseRecord_returns abi mem S map).mp one
    obtain ⟨target',found',placed⟩ := targetFor_result abi mem listed.named listed.sorted (abi.ptr (ptr + CENHDR))
      checked.valid.1 (by rw [listed.count]; omega)
    rw [listed.count,found] at found'
    cases found'
    have rest : (parseRecords abi mem S map left (ptrs ++ [ptr]).length (nextRecord abi mem ptr)
        (es.insertIdx target (entryOf abi mem map ptr))).result = .ok fs := by
      rw [length_append,length_singleton]
      exact rest
    obtain ⟨all,listed'⟩ := ih (listed.add abi mem map checked.valid placed)
      (by rw [length_append,length_singleton]; omega) rest
    refine ⟨fun p member => ?_,?_⟩
    · rcases mem_cons.mp member with rfl | later
      · exact checked
      · exact all p later
    · rwa [append_assoc] at listed'

theorem parseRecords_entries {left i ptr : Nat} {fs : List ZipEntry}
    (done : (parseRecords abi mem S map left i ptr es).result = .ok fs) :
    ∀ e ∈ fs, e ∈ es ∨ ∃ p, e = entryOf abi mem map p := by
  induction left generalizing i ptr es with
  | zero =>
    cases done
    exact fun e member => .inl member
  | succ left ih =>
    obtain ⟨r,one,rest⟩ := bind_returns.mp done
    obtain ⟨-,target,-,rfl⟩ := (parseRecord_returns abi mem S map).mp one
    intro e member
    rcases ih rest e member with known | built
    · rcases eq_or_mem_of_mem_insertIdx known with rfl | earlier
      · exact .inr ⟨ptr,rfl⟩
      · exact .inl earlier
    · exact .inr built

end

end Recovery.ZipOrder
