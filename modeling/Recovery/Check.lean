import Recovery.FileTargets

/-!
`applypatch_check` and the states that interrupted runs leave.
-/
namespace Recovery.Check
open Memory Program Program.Prog Storage Load FreeCache Option
open Imgpatch PatchStreams PatchHash Applypatch Holding
open Saving Rounds Plans FileTargets StoredLibs

variable {L : Libs} {r : Request} {sums : List Path} {s : Storage} {name : Path} {file : FileContents}

/-! ## The check -/

/-- The load of a name returns, and does not say that the file is missing. -/
def Reaches (L : Libs) (s : Storage) (name : Path) : Prop := ∃ code, loadCode L s name = some code ∧ code ≠ -enoent

theorem holds_reaches (holds : Holds L sums s name) : Reaches L s name := by
  obtain ⟨d,loaded,-⟩ := holds
  obtain ⟨out,found,-⟩ := load_data loaded blank
  exact ⟨0,by simp [loadCode,found],by decide⟩
theorem find_iff_holds {out : FileContents}
    (loaded : loadFileContents L s name file = some (0, out)) :
    findMatchingPatch out.sha1 sums ≠ none ↔ Holds L sums s name := by
  obtain ⟨d,data,-,hash⟩ := load_zero loaded
  rw [hash]
  constructor
  · intro found
    exact ⟨d,data,isSome_iff_ne_none.mpr found⟩
  · rintro ⟨d',data',listed⟩
    obtain rfl : d = d' := some.inj (data.symm.trans data')
    exact isSome_iff_ne_none.mp listed
theorem not_holds_of_nonzero {out : FileContents} {code : Int}
    (loaded : loadFileContents L s name file = some (code, out)) (bad : code ≠ 0) : ¬ Holds L sums s name := by
  rintro ⟨d,data,-⟩
  rw [(load_nonzero loaded bad).2.2] at data
  cases data
theorem not_holds_of_stuck
    (stuck : loadFileContents L s name file = none) : ¬ Holds L sums s name := by
  rintro ⟨d,data,-⟩
  obtain ⟨out,found,-⟩ := load_data data file
  rw [stuck] at found
  cases found

theorem check_copy (file : FileContents) :
    ((loadFileContents L s cacheTempSource file).bind fun x =>
      if x.1 ≠ 0 then some 1 else if findMatchingPatch x.2.sha1 sums = none then some 1 else some (0 : Int)) = some 0 ↔
    Holds L sums s cacheTempSource := by
  cases loaded : loadFileContents L s cacheTempSource file with
  | none => simpa using not_holds_of_stuck loaded
  | some pair =>
    obtain ⟨code,out⟩ := pair
    by_cases zero : code = 0
    · subst zero
      rw [← find_iff_holds loaded]
      by_cases found : findMatchingPatch out.sha1 sums = none <;> simp [found]
    · simpa [zero] using not_holds_of_nonzero loaded zero

theorem check_zero_iff (nonempty : sums ≠ []) (s : Storage) (name : Path) (junk : FileContents) :
    applypatchCheck L s name sums junk = some 0 ↔
      Holds L sums s name ∨ (Reaches L s name ∧ Holds L sums s cacheTempSource) := by
  have told := load_code (L := L) s name junk.freed
  cases loaded : loadFileContents L s name junk.freed with
  | none =>
    simpa [applypatchCheck,loaded,Reaches,← told] using not_holds_of_stuck loaded
  | some pair =>
    obtain ⟨code,out⟩ := pair
    rw [loaded] at told
    have reaches : Reaches L s name ↔ code ≠ -enoent := by simp [Reaches,← told]
    have run : applypatchCheck L s name sums junk =
        if code = -enoent then some (-enoent)
        else if code ≠ 0 ∨ (sums ≠ [] ∧ findMatchingPatch out.sha1 sums = none) then
          (loadFileContents L s cacheTempSource out.freed).bind fun x =>
            if x.1 ≠ 0 then some 1 else if findMatchingPatch x.2.sha1 sums = none then some 1 else some (0 : Int)
        else some 0 := by
      simp only [applypatchCheck,loaded]
      rfl
    rw [run]
    by_cases missing : code = -enoent
    · have bad : code ≠ 0 := by rw [missing]; decide
      simpa [missing,reaches,enoent] using not_holds_of_nonzero loaded bad
    by_cases zero : code = 0
    · subst zero
      rw [← find_iff_holds loaded]
      by_cases found : findMatchingPatch out.sha1 sums = none
      · simp only [found,nonempty,ne_eq,not_true_eq_false,not_false_eq_true,and_self,or_true,↓reduceIte,
          false_or,reaches,missing,true_and]
        exact check_copy out.freed
      · simp [found]
    · have bad : ¬ Holds L sums s name := not_holds_of_nonzero loaded zero
      simp only [zero,ne_eq,not_false_eq_true,true_or,↓reduceIte,bad,false_or,reaches,missing,true_and]
      exact check_copy out.freed

/-! ## Interrupted runs -/

/-- A request for a file target whose files are all different from the copy, and whose
    output is not written over the source. -/
structure ApartPaths (r : Request) : Prop where
  source : isPartition r.sourceFilename = false
  target : isPartition r.target = false
  sourceCache : r.sourceFilename ≠ cacheTempSource
  targetCache : r.target ≠ cacheTempSource
  outCache : outname r.target ≠ cacheTempSource
  apart : outname r.target ≠ r.sourceFilename

/-- The source is missing, or it or the copy holds listed data. -/
structure Kept (L : Libs) (r : Request) (s : Storage) : Prop where
  synced : Synced s (.file r.sourceFilename)
  either : s.files r.sourceFilename = none ∨ Held L r.sums r.sourceFilename s ∨ Held L r.sums cacheTempSource s

def SourceKept (L : Libs) (r : Request) (s : Storage) : Prop :=
  Synced s (.file r.sourceFilename) ∧ (s.files r.sourceFilename = none ∨ Held L r.sums r.sourceFilename s)
def CopyKept (L : Libs) (r : Request) (s : Storage) : Prop :=
  Synced s (.file r.sourceFilename) ∧ Held L r.sums cacheTempSource s

theorem sourceKept_kept (kept : SourceKept L r s) : Kept L r s :=
  ⟨kept.1,kept.2.elim .inl fun held => .inr (.inl held)⟩
theorem copyKept_kept (kept : CopyKept L r s) : Kept L r s := ⟨kept.1,.inr (.inr kept.2)⟩

private theorem stableAt_missing {path : Path} (apart : path ≠ name) : StableAt path (fun s => s.files name = none) := by
  intro s t frame missing
  rw [frame.files name apart,missing]

section
variable (paths : ApartPaths r)
include paths

theorem stableAt_sourceKept {path : Path} (apart : path ≠ r.sourceFilename) : StableAt path (SourceKept L r) := by
  rintro s t frame ⟨synced,either⟩
  refine ⟨stableAt_synced apart s t frame synced,either.imp (stableAt_missing apart s t frame) ?_⟩
  exact stableAt_held (place_ne paths.source apart.symm) s t frame
omit paths in
theorem stableAt_copyKept {path : Path} (apart : path ≠ r.sourceFilename) (cache : path ≠ cacheTempSource) :
    StableAt path (CopyKept L r) := by
  rintro s t frame ⟨synced,held⟩
  exact ⟨stableAt_synced apart s t frame synced,stableAt_held (place_cache_ne cache) s t frame held⟩
private theorem stableAt_kept : StableAt (outname r.target) (Kept L r) := by
  rintro s t frame ⟨synced,missing | source | copy⟩
  · exact sourceKept_kept (stableAt_sourceKept paths paths.apart s t frame ⟨synced,.inl missing⟩)
  · exact sourceKept_kept (stableAt_sourceKept paths paths.apart s t frame ⟨synced,.inr source⟩)
  · exact copyKept_kept (stableAt_copyKept paths.apart paths.outCache s t frame ⟨synced,copy⟩)

private theorem kept_setting (choice : Choice) {d : Bytes} (loaded : choice.file.data = some d) (masked : maskOf d = some d)
    (listed : Listed L r.sums d) : Setting r choice true d (SourceKept L r) (CopyKept L r) where
  loaded := loaded
  baseOut := stableAt_sourceKept paths paths.apart
  copiedOut := stableAt_copyKept paths.apart paths.outCache
  baseCache := fun _ => stableAt_sourceKept paths paths.sourceCache.symm
  baseDeletes := by
    intro _ s path _ _ kept
    by_cases same : path = r.sourceFilename
    · subst same
      exact ⟨by simp [Synced],.inl (by simp)⟩
    · exact stableAt_setFile (stableAt_sourceKept paths same) none kept
  moved := by
    intro _ _ s kept saved
    have copy := saved_held saved masked listed
    split
    · exact ⟨by simp [Synced],held_setFile (place_cache_ne paths.sourceCache) none copy⟩
    · exact ⟨kept.1,copy⟩

private theorem kept_ending {choice : Choice} {sha : Bytes} :
    Ending L r sha choice (SourceKept L r) (CopyKept L r) (fun moved s => moved = true → CopyKept L r s)
      (fun _ _ => True) where
  renamed := by
    rintro moved s node ctx before found made hash rfl
    obtain ⟨synced,held⟩ : CopyKept L r s := before
    have copy := held_setFile (place_cache_ne paths.targetCache) (some node)
      (held_setFile (place_cache_ne paths.outCache) none held)
    refine ⟨?_,copy⟩
    intro node' found'
    by_cases same : r.sourceFilename = r.target
    · rw [same,setFile_same] at found'
      obtain rfl := some.inj found'
      exact made.2.2.1
    · rw [setFile_other _ _ same,setFile_other _ _ paths.apart.symm] at found'
      exact synced node' found'
  finished := fun _ _ => trivial
  unlinked := fun _ _ => trivial

private theorem kept_run (masking : MaskStable L r.sums) (junk : FileContents) (s : Storage) (as : List Answer)
    (first : Kept L r s) (unfinished : (applypatch L r junk s as).value ≠ some 0) :
    Kept L r (applypatch L r junk s as).state := by
  obtain ⟨value,run,-⟩ | ⟨fs,sha,file,choice,fromSource,planned,run,-⟩ :=
    applypatch_file (L := L) junk s as paths.target
  · rw [run]
    exact first
  rw [run] at unfinished ⊢
  cases plan_spec planned with
  | @source _ d file patch parsed loaded data listed =>
    have inList : Listed L r.sums d := patchOf_listed.mp (by rw [listed]; rfl)
    obtain ⟨node,-,-,maskedOnce⟩ := loadedData_masked paths.source loaded
    have setting := kept_setting paths ⟨file,patch⟩ data (masking _ d maskedOnce inList) inList
    have held : SourceKept L r s := by
      refine ⟨first.synced,.inr ⟨⟨d,loaded,inList⟩,fun spot here => ?_⟩⟩
      rw [place_plain paths.source] at here
      cases here
      exact first.synced
    rcases fileLoop_unfinished setting (kept_ending paths) as held unfinished with base | copied | after
    · exact sourceKept_kept base
    · exact copyKept_kept copied
    · exact copyKept_kept (after rfl)
  | @copy _ d file copyFile patch parsed loaded data listed gone bad =>
    have setting : Setting r ⟨copyFile,patch⟩ false d (Kept L r) (fun _ => False) :=
      ⟨data,stableAt_kept paths,fun _ _ _ h => h,by simp,by simp,by simp⟩
    have ending : Ending L r sha ⟨copyFile,patch⟩ (Kept L r) (fun _ => False) (fun moved _ => moved = false)
        (fun _ _ => True) := by
      refine ⟨?_,fun _ _ => trivial,fun _ _ => trivial⟩
      intro moved s node ctx before _ _ _
      cases moved with
      | false => rfl
      | true => exact before.elim
    rcases fileLoop_unfinished setting ending as first unfinished with base | copied | after
    · exact base
    · exact copied.elim
    · cases after

end

private theorem kept_reboot (s t : Storage) (first : Kept L r s) (reboot : Reboot s t) : Kept L r t := by
  obtain ⟨synced,either⟩ := first
  have same : t.files r.sourceFilename = s.files r.sourceFilename := reboot_sameAt reboot synced
  refine ⟨fun node found => synced node (by rw [← same]; exact found),?_⟩
  rcases either with missing | source | copy
  · exact .inl (by rw [same,missing])
  · exact .inr (.inl (held_reboot reboot source))
  · exact .inr (.inr (held_reboot reboot copy))

/-- The check passes exactly when the file or else the copy holds listed data, unless the load of the
    file says that it is missing while the copy holds the data. Whatever unfinished runs and reboots do,
    it then passes exactly while the file is there. -/
theorem check_passes_while_file_is_there (L : Libs) :
    (∀ s name sums junk, sums ≠ [] →
      ((applypatchCheck L s name sums junk = some 0 ↔ Holds L sums s name ∨ Holds L sums s cacheTempSource) ↔
        (Reaches L s name ∨ ¬ Holds L sums s cacheTempSource))) ∧
    (∀ r, ApartPaths r → MaskStable L r.sums → r.sums ≠ [] → ∀ s t junk, (∀ spot, Synced s spot) →
      applypatchCheck L s r.sourceFilename r.sums junk = some 0 →
      Chain (applypatch L r) (fun _ => True) (fun value => value ≠ some 0) Reboot s t →
      ∀ junk, applypatchCheck L t r.sourceFilename r.sums junk = some 0 ↔ Reaches L t r.sourceFilename) := by
  refine ⟨?_, ?_⟩
  · intro s name sums junk nonempty
    rw [check_zero_iff nonempty]
    have reaches : Holds L sums s name → Reaches L s name := holds_reaches
    tauto
  · intro r paths masking nonempty s t junk synced passes chain junk'
    have start : Kept L r s := by
      refine ⟨synced _, .inr ?_⟩
      rcases (check_zero_iff nonempty s _ junk).mp passes with source | ⟨-, copy⟩
      · exact .inl ⟨source, fun spot _ => synced spot⟩
      · exact .inr ⟨copy, fun spot _ => synced spot⟩
    have kept : Kept L r t := chain_invariant
      (fun junk u as holds _ unfinished => kept_run paths masking junk u as holds unfinished) kept_reboot chain start
    rw [check_zero_iff nonempty]
    constructor
    · rintro (source | ⟨reaches, -⟩)
      · exact holds_reaches source
      · exact reaches
    intro reaches
    rcases kept.either with missing | source | copy
    · obtain ⟨code, told, other⟩ := reaches
      simp [loadCode, loadFileContents, paths.source, missing] at told
      exact absurd told.symm other
    · exact .inl source.holds
    · exact .inr ⟨reaches, copy.holds⟩

/-! ## Concrete runs -/

private theorem inPlace_apart (L : Libs) (patch : Bytes) : ApartPaths (inPlace L patch) where
  source := show isPartition "/system/a".toList = false by decide
  target := show isPartition "/system/a".toList = false by decide
  sourceCache := show "/system/a".toList ≠ cacheTempSource by decide
  targetCache := show "/system/a".toList ≠ cacheTempSource by decide
  outCache := show outname "/system/a".toList ≠ cacheTempSource by decide
  apart := show outname "/system/a".toList ≠ "/system/a".toList by decide

/-- What a run leaves that is cut off after the copy was made, before the source is
    deleted. -/
def copiedEnd : Outcome Storage Answer Int :=
  applypatch twoLabels (inPlace twoLabels (freshPatch (ascii "T"))) blank inPlaceStart (movedAnswers.take 7)

theorem check_passes_while_file_is_there_when_copied :
    let r := inPlace twoLabels (freshPatch (ascii "T"))
    copiedEnd.value = none ∧ applypatchCheck twoLabels copiedEnd.state r.sourceFilename r.sums blank = some 0 := by
  have cut : copiedEnd.value = none := by decide +kernel
  refine ⟨cut, ?_⟩
  have passes := (check_passes_while_file_is_there twoLabels).2 (inPlace twoLabels (freshPatch (ascii "T")))
    (inPlace_apart _ _) (twoLabels_maskStable _) (by decide +kernel) inPlaceStart copiedEnd.state blank
    inPlaceStart_synced (by decide +kernel)
    (Chain.run blank (movedAnswers.take 7) (Chain.refl _) trivial (by rw [← copiedEnd, cut]; simp)) blank
  exact passes.mpr ⟨0, by decide +kernel, by decide⟩

/-- The output for `/system/a` is written to the source, and the run is cut off when that is opened. -/
def overSource : Request :=
  { inPlace storedLibs (freshPatch (ascii "T")) with
    sourceFilename := "/system/a.patch".toList
    targetFilename := "/system/a".toList }
def overStart : Storage := filesOnly [("/system/a.patch".toList, cleanFile (ascii "S"))]
def overEnd : Outcome Storage Answer Int :=
  applypatch storedLibs overSource blank overStart [{ blockSize := 4096, count := 1000 }, {}]

/-- The copy holds the source that an interrupted run moved away, and the check fails. It also fails, with the file
    there and no copy, when the output is written over the source. -/
theorem check_fails_when_moved :
    let r := inPlace storedLibs (freshPatch (ascii "T"))
    let t := (movedEnd storedLibs).state
    (applypatchCheck storedLibs inPlaceStart r.sourceFilename r.sums blank = some 0 ∧
      Chain (applypatch storedLibs r) (fun _ => True) (fun value => value ≠ some 0) Reboot inPlaceStart t ∧
      Holds storedLibs r.sums t cacheTempSource ∧
      applypatchCheck storedLibs t r.sourceFilename r.sums blank = some (-enoent)) ∧
    applypatchCheck storedLibs overStart overSource.sourceFilename overSource.sums blank = some 0 ∧
      Chain (applypatch storedLibs overSource) (fun _ => True) (fun value => value ≠ some 0) Reboot overStart overEnd.state ∧
      loadCode storedLibs overEnd.state overSource.sourceFilename = some 0 ∧
      applypatchCheck storedLibs overEnd.state overSource.sourceFilename overSource.sums blank = some 1 := by
  have cut : (movedEnd storedLibs).value = none := by decide +kernel
  have opened : overEnd.value = none := by decide +kernel
  refine ⟨⟨by decide +kernel, ?_, by decide +kernel, by decide +kernel⟩, by decide +kernel, ?_, by decide +kernel,
    by decide +kernel⟩
  · exact Chain.run blank movedAnswers (Chain.refl _) trivial (by rw [← movedEnd, cut]; simp)
  · exact Chain.run blank _ (Chain.refl _) trivial (by rw [← overEnd, opened]; simp)

end Recovery.Check
