import Recovery.Numbers

/-!
How `parseZipArchive` finds the central directory: it looks for the last
end-of-central-directory record, from the end of the file backwards.
-/
namespace Recovery.Minzip
open Memory Numbers

def ENDSIG : Nat := 0x06054b50
def ENDHDR : Nat := 22
def ENDSUB : Nat := 8
def ENDOFF : Nat := 16
def LOCSIG : Nat := 0x04034b50

def get2LE (b : Bytes) (off : Nat) : Nat := byteAt b off + (byteAt b (off + 1) <<< 8)
def get4LE (b : Bytes) (off : Nat) : Nat :=
  byteAt b off + (byteAt b (off + 1) <<< 8) + (byteAt b (off + 2) <<< 16) + (byteAt b (off + 3) <<< 24)

def scanBack (file : Bytes) : Nat → Option Nat
  | 0 => none
  | ptr + 1 => if byteAt file ptr = ENDSIG &&& 0xff ∧ get4LE file ptr = ENDSIG then some ptr else scanBack file ptr
/-- Where the record is that `parseZipArchive` uses. -/
def findEocd (file : Bytes) : Option Nat := scanBack file (file.length + 1 - ENDHDR)

/-- The part of `parseZipArchive` before the entries are read: the number of entries and
    the offset of the central directory. -/
def locateDirectory (file : Bytes) : Option (Nat × Nat) :=
  let val := get4LE file 0
  if val = ENDSIG then none
  else if val ≠ LOCSIG then none
  else match findEocd file with
    | none => none
    | some ptr =>
      let numEntries := get2LE file (ptr + ENDSUB)
      let cdOffset := get4LE file (ptr + ENDOFF)
      if numEntries = 0 ∨ cdOffset ≥ file.length then none else some (numEntries, cdOffset)

def EndsAt (file : Bytes) (ptr : Nat) : Prop :=
  byteAt file ptr = 0x50 ∧ byteAt file (ptr + 1) = 0x4b ∧ byteAt file (ptr + 2) = 0x05 ∧ byteAt file (ptr + 3) = 0x06

theorem byteAt_lt (b : Bytes) (i : Nat) : byteAt b i < 256 := (b.getD i 0).toNat_lt
theorem scan_iff_endsAt (file : Bytes) (ptr : Nat) :
    (byteAt file ptr = ENDSIG &&& 0xff ∧ get4LE file ptr = ENDSIG) ↔ EndsAt file ptr := by
  have first := byteAt_lt file ptr
  have second := byteAt_lt file (ptr + 1)
  have third := byteAt_lt file (ptr + 2)
  have fourth := byteAt_lt file (ptr + 3)
  have low : ENDSIG &&& 0xff = 0x50 := by decide
  rw [low]
  unfold EndsAt get4LE ENDSIG
  rw [Nat.shiftLeft_eq,Nat.shiftLeft_eq,Nat.shiftLeft_eq]
  generalize byteAt file (ptr + 1) = b1 at *
  generalize byteAt file (ptr + 2) = b2 at *
  generalize byteAt file (ptr + 3) = b3 at *
  constructor
  · rintro ⟨start,whole⟩
    rw [start] at whole
    have last : b3 = 6 := by omega
    have next : b2 = 5 := by omega
    exact ⟨start,by omega,next,last⟩
  · rintro ⟨start,rfl,rfl,rfl⟩
    exact ⟨start,by omega⟩

theorem scanBack_last {file : Bytes} {ptr : Nat} (here : EndsAt file ptr) {n : Nat} (below : ptr < n)
    (last : ∀ i, ptr < i → i < n → ¬ EndsAt file i) : scanBack file n = some ptr := by
  induction n with
  | zero => omega
  | succ n ih =>
    unfold scanBack
    by_cases same : n = ptr
    · rw [if_pos ((scan_iff_endsAt file n).mpr (same ▸ here)),same]
    · rw [if_neg ((scan_iff_endsAt file n).not.mpr (last n (by omega) (by omega)))]
      exact ih (by omega) fun i low high => last i low (by omega)

theorem locateDirectory_at {file : Bytes} {ptr numEntries cdOffset : Nat} (found : findEocd file = some ptr)
    (located : locateDirectory file = some (numEntries, cdOffset)) :
    numEntries = get2LE file (ptr + ENDSUB) ∧ cdOffset = get4LE file (ptr + ENDOFF) := by
  simp only [locateDirectory,found] at located
  split at located
  · cases located
  split at located
  · cases located
  · split at located
    · cases located
    · obtain ⟨rfl,rfl⟩ := Prod.mk.inj (Option.some.inj located)
      exact ⟨rfl,rfl⟩

end Recovery.Minzip
