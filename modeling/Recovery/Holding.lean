import Recovery.Applypatch

/-!
What it means that a name holds usable data: it loads, what it loads has a listed SHA-1, and a
reboot will not change it.
-/
namespace Recovery.Holding
open Memory Program Program.Prog Storage Load FreeCache Option
open Retouch Applypatch

variable {L : Libs}

/-! ## Loads -/

def blank : FileContents := ⟨[], none, 0, ⟨0, 0, 0⟩, by simp⟩

def loadCode (L : Libs) (s : Storage) (name : Path) : Option Int := (loadFileContents L s name blank).map Prod.fst

def loadedData (L : Libs) (s : Storage) (name : Path) : Option Bytes :=
  (loadFileContents L s name blank).bind fun (_, file) => file.data

def matchedBinary : Option Masked → Option Bytes
  | some masked => if masked.code = .matched then some masked.binary else none
  | none => none
/-- The data that is left when the retouched words of a file are masked. -/
def maskOf (data : Bytes) : Option Bytes := matchedBinary (retouchMaskData data (wrap 32 data.length) (some 0))

/-- How two loads of one name compare: the same code, and the same contents when it
    is 0; otherwise there is no data. -/
structure Alike (L : Libs) (first second : Loaded) : Prop where
  code : first.map Prod.fst = second.map Prod.fst
  success : ∀ out, first = some (0, out) → second = some (0, out) ∧ ∃ d, out.data = some d ∧ out.sha1 = L.sha1 d
  failure : ∀ code out, first = some (code, out) → code ≠ 0 → code < 0 ∧ out.data = none

variable {code : Int} {out : FileContents} {t : Storage} {a b : FileContents} {s : Storage}

theorem alike_fail (bad : code < 0) (nothing : a.data = none) :
    Alike L (some (code, a)) (some (code, b)) := by
  refine ⟨rfl,?_,?_⟩
  · intro out equal
    simp only [some.injEq,Prod.mk.injEq] at equal
    omega
  · intro code' out equal _
    obtain ⟨rfl,rfl⟩ := equal
    exact ⟨bad,nothing⟩
theorem alike_stuck : Alike L none none := ⟨rfl,by simp,by simp⟩
theorem alike_ok {d : Bytes} (data : out.data = some d) (hash : out.sha1 = L.sha1 d) :
    Alike L (some (0, out)) (some (0, out)) := by
  refine ⟨rfl,?_,?_⟩
  · intro out' equal
    simp only [some.injEq,Prod.mk.injEq,true_and] at equal
    subst equal
    exact ⟨rfl,d,data,hash⟩
  · intro code' out' equal bad
    simp only [some.injEq,Prod.mk.injEq] at equal
    exact absurd equal.1.symm bad

private theorem prefixContents_alike (contents : Bytes) (result : PrefixMatch) :
    Alike L (prefixContents L contents a result) (prefixContents L contents b result) := by
  cases result with
  | stuck => exact alike_stuck
  | failed size => exact alike_fail (by decide) rfl
  | found size => exact alike_ok rfl rfl
private theorem readPairs_err {n : Nat} {fields : List Path} (failed : readPairs n fields = .err code) :
    code = -1 := by
  induction n generalizing fields with
  | zero => cases failed
  | succ n ih =>
    cases fields with
    | nil => cases failed
    | cons sizeStr rest =>
      simp only [readPairs] at failed
      split at failed
      · cases failed; rfl
      · cases pairs : readPairs n rest.tail with
        | ok list => rw [pairs] at failed; cases failed
        | stuck => rw [pairs] at failed; cases failed
        | err code' => rw [pairs] at failed; cases failed; exact ih pairs
private theorem partitionOf_err {fields : List Path} (failed : partitionOf fields = .err code) : code = -1 := by
  unfold partitionOf at failed
  split at failed
  · cases failed
  split at failed
  · split at failed <;> cases failed
  · split at failed
    · split at failed <;> cases failed
    · cases failed; rfl
private theorem loadPartitionContents_alike (s : Storage) (name : Path) (nothing : a.data = none) :
    Alike L (loadPartitionContents L s name a) (loadPartitionContents L s name b) := by
  unfold loadPartitionContents
  dsimp only
  cases partition : partitionOf (tokens name) with
  | stuck => exact alike_stuck
  | err code => exact alike_fail (by rw [partitionOf_err partition]; decide) nothing
  | ok spot =>
    cases pairs : readPairs (pairCount name) ((tokens name).drop 2) with
    | stuck => exact alike_stuck
    | err code => exact alike_fail (by rw [readPairs_err pairs]; decide) nothing
    | ok list =>
      dsimp only
      split
      · exact alike_fail (by decide) nothing
      · split
        · exact alike_stuck
        · exact prefixContents_alike _ _
private theorem maskedContents_alike (size : Nat) (stat : Stat) (a b : FileContents) (masked : Option Masked) :
    Alike L (maskedContents L size stat a masked) (maskedContents L size stat b masked) := by
  cases masked with
  | none => exact alike_stuck
  | some masked =>
    by_cases matched : masked.code = .matched
    · simp only [maskedContents,matched,↓reduceIte]
      exact alike_ok rfl rfl
    · simp only [maskedContents,matched,↓reduceIte]
      exact alike_fail (by decide) rfl

theorem loadFileContents_alike (s : Storage) (name : Path) (a b : FileContents) :
    Alike L (loadFileContents L s name a) (loadFileContents L s name b) := by
  unfold loadFileContents
  split
  · exact loadPartitionContents_alike s name rfl
  cases s.files name with
  | none => exact alike_fail (by decide) rfl
  | some node =>
    dsimp only
    split
    · exact alike_fail (by decide) rfl
    · exact alike_fail (by decide) rfl
    · exact maskedContents_alike _ _ _ _ _

theorem load_zero {name : Path} {file : FileContents}
    (loaded : loadFileContents L s name file = some (0, out)) :
    ∃ d, loadedData L s name = some d ∧ out.data = some d ∧ out.sha1 = L.sha1 d := by
  obtain ⟨same,d,data,hash⟩ := (loadFileContents_alike s name file blank).success out loaded
  exact ⟨d,by simp [loadedData,same,data],data,hash⟩
theorem load_nonzero {name : Path} {file : FileContents}
    (loaded : loadFileContents L s name file = some (code, out)) (bad : code ≠ 0) :
    code < 0 ∧ out.data = none ∧ loadedData L s name = none := by
  have alike := loadFileContents_alike (L := L) s name file blank
  obtain ⟨negative,nothing⟩ := alike.failure code out loaded bad
  refine ⟨negative,nothing,?_⟩
  have codes := alike.code
  rw [loaded] at codes
  cases other : loadFileContents L s name blank with
  | none => simp [loadedData,other]
  | some pair =>
    obtain ⟨code',out'⟩ := pair
    rw [other] at codes
    simp only [map_some,some.injEq] at codes
    subst codes
    obtain ⟨-,none'⟩ := (loadFileContents_alike s name blank file).failure code out' other bad
    simp [loadedData,other,none']
theorem load_data {name : Path} {d : Bytes} (loaded : loadedData L s name = some d) (file : FileContents) :
    ∃ out, loadFileContents L s name file = some (0, out) ∧ out.data = some d ∧ out.sha1 = L.sha1 d := by
  obtain ⟨⟨code,out⟩,found,data⟩ := bind_eq_some_iff.mp loaded
  have zero : code = 0 := by
    by_contra bad
    have nothing := (load_nonzero found bad).2.1
    rw [show out.data = some d from data] at nothing
    cases nothing
  subst zero
  obtain ⟨same,d',data',hash⟩ := (loadFileContents_alike s name blank file).success out found
  obtain rfl : d = d' := some.inj (data.symm.trans data')
  exact ⟨out,same,data,hash⟩
theorem load_code (s : Storage) (name : Path) (file : FileContents) :
    (loadFileContents L s name file).map Prod.fst = loadCode L s name :=
  (loadFileContents_alike s name file blank).code

theorem loadedData_file {name : Path} (plain : isPartition name = false) {node : Node}
    (found : s.files name = some node) (fault : node.fault = none) :
    loadedData L s name = maskOf (node.data.take (Node.size node)) := by
  have run : loadFileContents L s name blank =
      maskContents L (node.data.take (Node.size node)) node.stat blank.freed := by
    simp only [loadFileContents,plain,Bool.false_eq_true,↓reduceIte,found,fault]
  rw [loadedData,run]
  unfold maskContents maskOf
  generalize retouchMaskData _ _ _ = masked
  cases masked with
  | none => rfl
  | some masked =>
    by_cases matched : masked.code = .matched
    · simp [maskedContents,matchedBinary,matched]
    · simp [maskedContents,matchedBinary,matched]
theorem loadedData_ready {name : Path} (plain : isPartition name = false) {node : Node}
    (found : s.files name = some node) (regular : node.regular = true) (fault : node.fault = none) :
    loadedData L s name = maskOf node.data := by
  rw [loadedData_file plain found fault,Node.size,if_pos regular,List.take_length]
theorem loadedData_masked {name : Path} (plain : isPartition name = false) {d : Bytes}
    (loaded : loadedData L s name = some d) : ∃ node, s.files name = some node ∧ node.fault = none ∧
      maskOf (node.data.take (Node.size node)) = some d := by
  cases found : s.files name with
  | none => simp [loadedData,loadFileContents,plain,found,FileContents.freed] at loaded
  | some node =>
    cases fault : node.fault with
    | none => exact ⟨node,rfl,fault,by rw [← loadedData_file plain found fault,loaded]⟩
    | some call =>
      have nothing : loadedData L s name = none := by
        cases call <;> simp [loadedData,loadFileContents,plain,found,fault,FileContents.freed]
      rw [nothing] at loaded
      cases loaded

/-! ## Places -/

inductive Place where
  | file (path : Path)
  | mtd (name : Path)
  deriving DecidableEq, Repr

def place (name : Path) : Option Place :=
  if isPartition name then
    match partitionOf (tokens name) with
    | .ok (.mtd mtd) => some (.mtd mtd)
    | .ok (.emmc device) => some (.file device)
    | _ => none
  else some (.file name)

theorem place_plain {name : Path} (plain : isPartition name = false) : place name = some (.file name) := by
  simp [place,plain]

def SameAt (s t : Storage) : Place → Prop
  | .file path => t.files path = s.files path
  | .mtd name => t.mtd name = s.mtd name

def Synced (s : Storage) : Place → Prop
  | .file path => ∀ node, s.files path = some node → node.dirty = false
  | .mtd _ => True

def Outside (paths names : Path → Prop) : Place → Prop
  | .file path => ¬ paths path
  | .mtd name => ¬ names name

theorem frame_sameAt {paths names : Path → Prop} (frame : Frame paths names s t) {spot : Place}
    (out : Outside paths names spot) : SameAt s t spot := by
  cases spot with
  | file path => exact frame.files path out
  | mtd name => exact frame.mtd name out
theorem reboot_sameAt (reboot : Reboot s t) {spot : Place} (synced : Synced s spot) : SameAt s t spot := by
  cases spot with
  | file path =>
    obtain ⟨node,there,dirty,-⟩ | ⟨-,same⟩ := reboot.files path
    · exact absurd (synced node there) (by simp [dirty])
    · exact same
  | mtd name => exact congrFun reboot.mtd name

private theorem load_congr {name : Path} (same : ∀ spot, place name = some spot → SameAt s t spot)
    (file : FileContents) : loadFileContents L t name file = loadFileContents L s name file := by
  unfold loadFileContents
  by_cases partition : isPartition name = true
  · simp only [partition,↓reduceIte,loadPartitionContents]
    cases found : partitionOf (tokens name) with
    | stuck => rfl
    | err code => rfl
    | ok spot =>
      have opened : openPartition t spot = openPartition s spot := by
        cases spot with
        | mtd mtd =>
          have here : t.mtd mtd = s.mtd mtd := same (.mtd mtd) (by simp [place,partition,found])
          simp [openPartition,here]
        | emmc device =>
          have here : t.files device = s.files device := same (.file device) (by simp [place,partition,found])
          simp [openPartition,here]
      simp only [opened]
  · have here : t.files name = s.files name := same (.file name) (by simp [place,partition])
    simp only [partition,Bool.false_eq_true,↓reduceIte,here]
theorem loadedData_congr {name : Path} (same : ∀ spot, place name = some spot → SameAt s t spot) :
    loadedData L t name = loadedData L s name := by
  simp only [loadedData,load_congr same]

/-! ## Data that is held -/

def Listed (L : Libs) (sums : List Path) (data : Bytes) : Prop := (findMatchingPatch (L.sha1 data) sums).isSome

instance (sums : List Path) (data : Bytes) : Decidable (Listed L sums data) :=
  inferInstanceAs (Decidable (_ = true))

theorem listed_iff {sums : List Path} {data : Bytes} :
    Listed L sums data ↔ ∃ str ∈ sums, parseSha1 str = some (L.sha1 data) := by
  simp [Listed,findMatchingPatch,List.findIdx?_isSome]

def Holds (L : Libs) (sums : List Path) (s : Storage) (name : Path) : Prop :=
  ∃ d, loadedData L s name = some d ∧ Listed L sums d

instance (sums : List Path) (s : Storage) (name : Path) : Decidable (Holds L sums s name) :=
  decidable_of_iff ((loadedData L s name).any fun d => decide (Listed L sums d)) (by simp [Holds, Option.any_eq_true])

/-- A name holds listed data, and a reboot leaves it. -/
structure Held (L : Libs) (sums : List Path) (name : Path) (s : Storage) : Prop where
  holds : Holds L sums s name
  synced : ∀ spot, place name = some spot → Synced s spot

variable {sums : List Path} {name : Path}

theorem held_same (held : Held L sums name s) (same : ∀ spot, place name = some spot → SameAt s t spot) :
    Held L sums name t := by
  obtain ⟨⟨d,loaded,listed⟩,synced⟩ := held
  refine ⟨⟨d,by rw [loadedData_congr same,loaded],listed⟩,fun spot here => ?_⟩
  have equal := same spot here
  have clean := synced spot here
  cases spot with
  | file path => intro node found; exact clean node (by rw [← equal]; exact found)
  | mtd mtd => trivial
theorem held_frame {paths names : Path → Prop} (frame : Frame paths names s t)
    (out : ∀ spot, place name = some spot → Outside paths names spot) (held : Held L sums name s) : Held L sums name t :=
  held_same held fun spot here => frame_sameAt frame (out spot here)
theorem held_reboot (reboot : Reboot s t) (held : Held L sums name s) : Held L sums name t :=
  held_same held fun spot here => reboot_sameAt reboot (held.synced spot here)
theorem held_setFile {path : Path} (elsewhere : place name ≠ some (.file path)) (node : Option Node)
    (held : Held L sums name s) : Held L sums name (s.setFile path node) := by
  have frame : Frame (Eq path) (fun _ => False) s (s.setFile path node) := setFile_frame rfl s node
  refine held_frame frame ?_ held
  intro spot here
  cases spot with
  | file p => rintro rfl; exact elsewhere here
  | mtd mtd => exact id

end Recovery.Holding
