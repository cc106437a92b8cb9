import Recovery.ZipOrder
import Recovery.HashCalls

/-!
How `mzFindZipEntry` finds a name: the table holds, for each name, the first entry of
the sorted list with it, which is the one built from the first record with it.
-/
namespace Recovery.ZipNames
open Memory Numbers Minzip Probing Hash HashCalls List
open Tracing Tracing.Traced ZipArchive ZipOrder Bisection

theorem peek2_lt (abi : Abi) (mem : Mem) (a : Nat) : peek2 abi mem a < 2 ^ 16 := by
  have low : peek abi mem a < 256 := UInt8.toNat_lt _
  have high : peek abi mem (a + 1) < 256 := UInt8.toNat_lt _
  unfold peek2
  omega

section
variable (abi : Abi) (mem : Mem)

/-! ## Comparisons -/

private theorem loadName_result (a n : Nat) : (loadName abi mem a n).result = .ok (bytesAt abi mem a n) := by
  induction n generalizing a with
  | zero => rfl
  | succ n ih =>
    rw [loadName,bind_result (load_result abi mem a),bind_result (ih (a + 1)),bytesAt_succ]
    simp [peek]

theorem memcmp_eq_zero {x y : Bytes} (size : x.length = y.length) : memcmp x y = 0 ↔ x = y := by
  have sign := nameDifference_sign x y
  rw [nameDifference,size] at sign
  constructor
  · intro zero
    refine rank_inj (le_antisymm (not_lt.mp fun less => ?_) (not_lt.mp fun less => ?_))
    · have := sign.2.mpr less
      omega
    · have := sign.1.mpr less
      omega
  · rintro rfl
    by_contra differ
    rw [if_neg differ] at sign
    rcases lt_or_gt_of_ne differ with less | more
    · exact lt_irrefl _ (sign.1.mp less)
    · exact lt_irrefl _ (sign.2.mp more)

theorem length_name (e : ZipEntry) : (e.name abi mem).length = e.fileNameLen := length_bytesAt abi mem _ _

private theorem hashcmpZipEntry_zero {e f : ZipEntry} (named : Named abi mem e) (named' : Named abi mem f) :
    hashcmpZipEntry abi mem e f = 0 ↔ e.name abi mem = f.name abi mem := by
  have short : e.fileNameLen < 4096 := named.1
  have short' : f.fileNameLen < 4096 := named'.1
  unfold hashcmpZipEntry
  split
  · rename_i differ
    rw [wrap_small (by omega) (by omega)]
    refine ⟨fun zero => by omega,fun same => ?_⟩
    have := congrArg length same
    rw [length_name,length_name] at this
    exact absurd this differ
  · rename_i same
    exact memcmp_eq_zero (by rw [length_name,length_name]; exact not_not.mp same)
private theorem hashcmpZipName_zero {e : ZipEntry} (named : Named abi mem e) {name : Bytes} (short' : name.length < 2 ^ 31) :
    hashcmpZipName abi mem e name = 0 ↔ e.name abi mem = name := by
  have short : e.fileNameLen < 4096 := named.1
  unfold hashcmpZipName
  dsimp only
  rw [unsigned_small (by omega),take_length]
  split
  · rename_i differ
    rw [wrap_small (by omega) (by omega)]
    refine ⟨fun zero => by omega,fun same => ?_⟩
    rw [← same,length_name] at differ
    exact absurd rfl differ
  · rename_i same
    exact memcmp_eq_zero (by rw [length_name]; exact not_not.mp same)

/-! ## The table of names -/

variable (es : List ZipEntry)

def nameAt (i : Nat) : Bytes := (es.getD i noEntry).name abi mem

/-- The first entries of each name among the first ones are in the table. -/
structure Indexed (m : Nat) (t : HashTable Nat) (k : Nat) : Prop where
  kept : Kept (nameAt abi mem es) (computeHash abi) t k
  fresh : tombstones t.pEntries = 0
  few : (items t.pEntries).length ≤ m
  firsts : ∀ i, i ∈ items t.pEntries ↔ i < m ∧ ∀ j < i, nameAt abi mem es j ≠ nameAt abi mem es i

variable {abi mem es} {calloc : Nat → Bool} {t : HashTable Nat} {m k : Nat}

theorem Indexed.first (indexed : Indexed abi mem es m t k) {name : Bytes} (known : ∃ j < m, nameAt abi mem es j = name) :
    ∃ i ∈ items t.pEntries, nameAt abi mem es i = name ∧ ∀ j < i, nameAt abi mem es j ≠ name := by
  classical
  have spec := Nat.find_spec known
  have before j (less : j < Nat.find known) : nameAt abi mem es j ≠ name :=
    fun same => Nat.find_min known less ⟨by omega,same⟩
  refine ⟨Nat.find known,(indexed.firsts _).mpr ⟨spec.1,fun j less => ?_⟩,spec.2,before⟩
  rw [spec.2]
  exact before j less

private theorem addEntry_indexed (calloc : Nat → Bool) (named : ∀ e ∈ es, Named abi mem e) (indexed : Indexed abi mem es m t k) (inside : m < es.length)
    (small : k ≤ 28) (room : 8 * es.length ≤ 5 * 2 ^ k) :
    ∃ u, (addEntryToHashTable abi mem calloc es t m).result = .ok u ∧ Indexed abi mem es (m + 1) u k := by
  have namedAt {j : Nat} (less : j < es.length) : Named abi mem (es.getD j noEntry) := by
    rw [getD_eq_getElem _ _ less]
    exact named _ (getElem_mem less)
  have compares a (member : a ∈ items t.pEntries) :
      hashcmpZipEntry abi mem (es.getD a noEntry) (es.getD m noEntry) = 0 ↔ nameAt abi mem es a = nameAt abi mem es m :=
    hashcmpZipEntry_zero abi mem (namedAt (by have := ((indexed.firsts a).mp member).1; omega)) (namedAt inside)
  have steps {found : Option Nat} {u : HashTable Nat}
      (looked : mzHashTableLookup calloc t (computeHash abi (nameAt abi mem es m)) m
        (fun j k => hashcmpZipEntry abi mem (es.getD j noEntry) (es.getD k noEntry)) (some m) = .ok (found,u)) :
      (addEntryToHashTable abi mem calloc es t m).result = .ok u := by
    unfold addEntryToHashTable
    rw [bind_result (loadName_result abi mem _ _)]
    change (ofRet (mzHashTableLookup calloc t (computeHash abi (nameAt abi mem es m)) m _ (some m)) >>= _).result = _
    rw [looked]
    rfl
  by_cases known : ∃ j < m, nameAt abi mem es j = nameAt abi mem es m
  · obtain ⟨i,member,same,-⟩ := indexed.first known
    refine ⟨t,steps (lookup_known indexed.kept compares member same (some m)),indexed.kept,indexed.fresh,?_,fun i => ?_⟩
    · exact Nat.le_succ_of_le indexed.few
    rw [indexed.firsts]
    refine ⟨fun ⟨less,first⟩ => ⟨by omega,first⟩,fun ⟨less,first⟩ => ⟨?_,first⟩⟩
    by_contra last
    obtain rfl : i = m := by omega
    obtain ⟨j,earlier,same⟩ := known
    exact first j earlier same
  · have unknown a (member : a ∈ items t.pEntries) : nameAt abi mem es a ≠ nameAt abi mem es m :=
      fun same => known ⟨a,((indexed.firsts a).mp member).1,same⟩
    have few := indexed.few
    have fresh := indexed.fresh
    obtain ⟨u,looked,kept,added,marks⟩ := lookup_adds_light indexed.kept small compares unknown (by omega)
    refine ⟨u,steps looked,kept,by omega,?_,fun i => ?_⟩
    · rw [added.length_eq,length_cons]
      omega
    rw [added.mem_iff,mem_cons,indexed.firsts]
    constructor
    · rintro (rfl | ⟨less,first⟩)
      · exact ⟨by omega,fun j less same => known ⟨j,less,same⟩⟩
      · exact ⟨by omega,first⟩
    · rintro ⟨less,first⟩
      by_cases last : i = m
      · exact .inl last
      · exact .inr ⟨by omega,first⟩

private theorem addEntries_indexed (calloc : Nat → Bool) (named : ∀ e ∈ es, Named abi mem e) (small : k ≤ 28)
    (room : 8 * es.length ≤ 5 * 2 ^ k) {left : Nat} (indexed : Indexed abi mem es m t k) (total : m + left = es.length) :
    ∃ u, (addEntries abi mem calloc es (List.range' m left) t).result = .ok u ∧ Indexed abi mem es es.length u k := by
  induction left generalizing m t with
  | zero => exact ⟨t,rfl,by rwa [← total]⟩
  | succ left ih =>
    obtain ⟨u,done,indexed'⟩ := addEntry_indexed calloc named indexed (by omega) small room
    obtain ⟨v,rest,indexed''⟩ := ih indexed' (by omega)
    refine ⟨v,?_,indexed''⟩
    rw [range'_succ,addEntries,bind_result done,rest]

/-! ## Finding -/

private theorem mzFindZipEntry_indexed (named : ∀ e ∈ es, Named abi mem e) (indexed : Indexed abi mem es es.length t k) (n : Nat)
    {name : Bytes} (short : name.length < 2 ^ 31) :
    ∃ found, mzFindZipEntry abi mem calloc ⟨n,es,t⟩ name = .ok found ∧ (∀ i, found = some i → i < es.length) ∧
      (found.map fun i => es.getD i noEntry) = es.find? fun e => nameRank abi mem e = rank name := by
  have compares a (member : a ∈ items t.pEntries) :
      hashcmpZipName abi mem (es.getD a noEntry) name = 0 ↔ nameAt abi mem es a = name := by
    have less := ((indexed.firsts a).mp member).1
    refine hashcmpZipName_zero abi mem ?_ short
    rw [getD_eq_getElem _ _ less]
    exact named _ (getElem_mem less)
  have steps {found : Option Nat} (looked : mzHashTableLookup calloc t (computeHash abi name) name
      (fun j name => hashcmpZipName abi mem (es.getD j noEntry) name) none = .ok (found,t)) :
      mzFindZipEntry abi mem calloc ⟨n,es,t⟩ name = .ok found := by
    unfold mzFindZipEntry
    rw [looked]
    rfl
  have ranked {j : Nat} (less : j < es.length) : nameRank abi mem es[j] = rank name ↔ nameAt abi mem es j = name := by
    rw [nameRank,nameAt,getD_eq_getElem _ _ less]
    exact ⟨rank_inj,fun same => by rw [same]⟩
  by_cases known : ∃ j < es.length, nameAt abi mem es j = name
  · obtain ⟨i,member,same,before⟩ := indexed.first known
    have less := ((indexed.firsts i).mp member).1
    refine ⟨some i,steps (lookup_known indexed.kept compares member same none),by rintro _ ⟨⟩; exact less,?_⟩
    rw [Option.map_some,getD_eq_getElem _ _ less,eq_comm,find?_eq_some_iff_getElem]
    refine ⟨by simpa using (ranked less).mpr same,i,less,rfl,fun j earlier => ?_⟩
    simpa using (ranked (show j < es.length by omega)).not.mpr (before j earlier)
  · have unknown a (member : a ∈ items t.pEntries) : nameAt abi mem es a ≠ name :=
      fun same => known ⟨a,((indexed.firsts a).mp member).1,same⟩
    refine ⟨none,steps (lookup_unknown indexed.kept compares unknown),nofun,?_⟩
    rw [Option.map_none,eq_comm,find?_eq_none]
    intro e member
    obtain ⟨j,less,rfl⟩ := getElem_of_mem member
    simpa using (ranked less).not.mpr fun same => known ⟨j,less,same⟩

variable {map : MemMapping}

theorem findDirectory_few {n cdOffset : Nat} (found : (findDirectory abi mem map).result = .ok (n, cdOffset)) : 0 < n ∧ n < 2 ^ 16 := by
  unfold findDirectory at found
  rw [bind_result (load4LE_result abi mem _)] at found
  split at found
  · cases found
  split at found
  · cases found
  obtain ⟨ptr,-,found⟩ := bind_returns.mp found
  rw [bind_result (load2LE_result abi mem _),bind_result (load4LE_result abi mem _)] at found
  split at found
  · cases found
  · rename_i good
    cases found
    have := peek2_lt abi mem (ptr + ENDSUB)
    omega

theorem addEntries_returns (named : ∀ e ∈ es, Named abi mem e) (few : es.length < 2 ^ 16)
    (created : mzHashTableCreate calloc (mzHashSize es.length) false = some t) :
    ∃ u, (addEntries abi mem calloc es (List.range es.length) t).result = .ok u ∧ ∃ k, Indexed abi mem es es.length u k := by
  have size : mzHashSize es.length * 5 ≤ es.length * 8 + 5 ∧ es.length * 8 < mzHashSize es.length * 5 := by
    unfold mzHashSize LOAD_DENOM LOAD_NUMER
    omega
  obtain ⟨k,least,enough,kept,none,fresh⟩ := create_kept (nameAt abi mem es) (computeHash abi)
    (by omega) (by omega) created
  have small : k ≤ 26 := least 26 (by omega)
  have indexed : Indexed abi mem es 0 t k := ⟨kept,fresh,by simp [none],by simp [none]⟩
  obtain ⟨u,done,indexed'⟩ := addEntries_indexed calloc named (by omega) (by omega) indexed (Nat.zero_add es.length)
  rw [range_eq_range']
  exact ⟨u,done,k,indexed'⟩

/-- What an accepted archive is: its directory, its records and the table of names. -/
theorem parseZipArchive_returns {S : SafeIop abi} {room : Bool} {archive : Archive}
    (parsed : (parseZipArchive abi mem S map room calloc).result = .ok archive) :
    ∃ cdOffset, (findDirectory abi mem map).result = .ok (archive.numEntries, cdOffset) ∧
      (∀ p ∈ records abi mem archive.numEntries (map.addr + cdOffset), Checked abi mem S map p) ∧
      Listed abi mem map (records abi mem archive.numEntries (map.addr + cdOffset)) archive.pEntries ∧
      ∃ k, Indexed abi mem archive.pEntries archive.pEntries.length archive.pHash k := by
  unfold parseZipArchive at parsed
  -- the search is kept closed, or the unifier runs it
  generalize searched : findDirectory abi mem map = search at parsed
  obtain ⟨⟨n,cdOffset⟩,directory,rest⟩ := bind_returns.mp parsed
  subst searched
  obtain ⟨some,few⟩ := findDirectory_few directory
  dsimp only [readEntries] at rest
  split at rest
  · rename_i pHash created
    obtain ⟨es,read,rest⟩ := bind_returns.mp rest
    obtain ⟨t,added,last⟩ := bind_returns.mp rest
    cases last
    have nothing : Listed abi mem map [] [] := ⟨rfl,by simp,List.Pairwise.nil,fun _ => rfl⟩
    obtain ⟨checked,listed⟩ := parseRecords_returns abi mem S map nothing
      (show ([] : List Nat).length + n ≤ 2 ^ 31 by simp; omega) read
    rw [nil_append] at listed
    obtain rfl : es.length = n := by rw [listed.count,length_records]
    obtain ⟨u,done,indexed⟩ := addEntries_returns listed.named few created
    rw [done] at added
    cases added
    exact ⟨cdOffset,directory,checked,listed,indexed⟩
  · cases rest

theorem parseZipArchive_entries {S : SafeIop abi} {room : Bool} {archive : Archive}
    (parsed : (parseZipArchive abi mem S map room calloc).result = .ok archive) :
    ∀ e ∈ archive.pEntries, ∃ p, e = entryOf abi mem map p := by
  unfold parseZipArchive at parsed
  generalize findDirectory abi mem map = search at parsed
  obtain ⟨⟨n,cdOffset⟩,-,rest⟩ := bind_returns.mp parsed
  dsimp only [readEntries] at rest
  split at rest
  · obtain ⟨es,read,rest⟩ := bind_returns.mp rest
    obtain ⟨t,-,last⟩ := bind_returns.mp rest
    cases last
    exact fun e member => (parseRecords_entries abi mem S map read e member).resolve_left not_mem_nil
  · cases rest

/-- `mzFindZipEntry` on an accepted archive: the entry built from the first record with the
    name, or NULL when no record has it. -/
theorem find_returns_first_record (abi : Abi) (mem : Mem) (S : SafeIop abi) (map : MemMapping) (room : Bool)
    (calloc : Nat → Bool) (archive : Archive) (parsed : (parseZipArchive abi mem S map room calloc).result = .ok archive)
    (name : Bytes) (short : name.length < 2 ^ 31) :
    ∃ cdOffset found, (findDirectory abi mem map).result = .ok (archive.numEntries, cdOffset) ∧
      mzFindZipEntry abi mem calloc archive name = .ok found ∧ (∀ i, found = some i → i < archive.pEntries.length) ∧
      (found.map fun i => archive.pEntries.getD i noEntry) =
        ((records abi mem archive.numEntries (map.addr + cdOffset)).find? fun ptr => recordName abi mem ptr = name).map
          (entryOf abi mem map) := by
  obtain ⟨cdOffset, directory, -, listed, k, indexed⟩ := parseZipArchive_returns parsed
  obtain ⟨found, looked, inside, same⟩ := mzFindZipEntry_indexed listed.named indexed archive.numEntries short
  refine ⟨cdOffset, found, directory, looked, inside, ?_⟩
  rw [same, listed.first]
  have ranks (ptr : Nat) : rank (recordName abi mem ptr) = rank name ↔ recordName abi mem ptr = name :=
    ⟨rank_inj, fun same => by rw [same]⟩
  simp only [ranks]

end

/-! ## An archive of twins -/

/-- `safe_add` as it is documented. -/
def safeIop (abi : Abi) : SafeIop abi where
  addPtr a b := if a + b < 2 ^ abi.bits then some (a + b) else none
  addLong a b := decide (-(2 ^ (abi.bits - 1)) ≤ a + b ∧ a + b < 2 ^ (abi.bits - 1))
  addPtr_eq _ _ := rfl
  addLong_eq _ _ := rfl

def memoryAt (addr : Nat) (bytes : Bytes) : Mem := fun a => if addr ≤ a then bytes.getD (a - addr) 0 else 0

def zeros (n : Nat) : Bytes := List.replicate n 0
def localHeader : Bytes := [0x50, 0x4b, 3, 4] ++ zeros 22 ++ [1, 0, 0, 0, 97]
def centralHeader (compLen localHdrOffset : Nat) : Bytes :=
  [0x50, 0x4b, 1, 2] ++ zeros 16 ++ leBytes 4 compLen ++ zeros 4 ++ [1, 0] ++ zeros 12 ++ leBytes 4 localHdrOffset ++ [97]
def endHeader (numEntries cdOffset : Nat) : Bytes :=
  [0x50, 0x4b, 5, 6] ++ zeros 4 ++ leBytes 2 numEntries ++ zeros 6 ++ leBytes 4 cdOffset ++ [0, 0]

def twins : Bytes := localHeader ++ localHeader ++ centralHeader 0 0 ++ centralHeader 0 31 ++ endHeader 2 62
def twinsMem : Mem := memoryAt 4096 twins
def twinsMap : MemMapping := ⟨4096, 178⟩
def twinsParsed : Except Stop Archive :=
  (parseZipArchive lp64 twinsMem (safeIop lp64) twinsMap true fun n => n * 32 < 2 ^ 64).result

theorem find_returns_first_record_of_twins : ∃ archive found, twinsParsed = .ok archive ∧
    mzFindZipEntry lp64 twinsMem (fun n => n * 32 < 2 ^ 64) archive [97] = .ok found ∧
    (found.map fun i => (archive.pEntries.getD i noEntry).offset) = some 31 := by
  have accepted : twinsParsed.isOk = true := by decide +kernel
  cases parsed : twinsParsed with
  | error stop => simp [parsed, Except.isOk, Except.toBool] at accepted
  | ok archive =>
    obtain ⟨cdOffset, found, directory, looked, -, same⟩ := find_returns_first_record lp64 twinsMem (safeIop lp64) twinsMap true
      (fun n => n * 32 < 2 ^ 64) archive parsed [97] (by decide)
    refine ⟨archive, found, rfl, looked, ?_⟩
    have located : (findDirectory lp64 twinsMem twinsMap).result = .ok (2, 62) := by decide +kernel
    rw [located] at directory
    have first : ((records lp64 twinsMem 2 (4096 + 62)).find? fun ptr => recordName lp64 twinsMem ptr = [97]) = some 4158 := by
      decide +kernel
    have offset : (entryOf lp64 twinsMem twinsMap 4158).offset = 31 := by decide +kernel
    obtain ⟨count, start⟩ : 2 = archive.numEntries ∧ 62 = cdOffset := by simpa using directory
    rw [← count, ← start, show twinsMap.addr = 4096 from rfl, first] at same
    have shape := congrArg (Option.map ZipEntry.offset) same
    rw [Option.map_map] at shape
    exact shape.trans (by rw [Option.map_some, Option.map_some, offset])

end Recovery.ZipNames
