import Recovery.Plans

/-!
File targets over chains of runs.
-/
namespace Recovery.FileTargets
open Memory Program Program.Prog Storage Load FreeCache List Option
open Imgpatch PatchStreams PatchHash Applypatch Holding
open Saving Rounds Plans StoredLibs

variable {L : Libs} {r : Request} {path name : Path} {d : Bytes} {s : Storage}

/-! ## Runs -/

theorem applypatch_file (junk : FileContents) (s : Storage) (as : List Answer) (plain : isPartition r.target = false) :
    (∃ value, applypatch L r junk s as = ⟨value,s,as⟩ ∧ (value = some 0 → plan L s r junk = some (.finished 0))) ∨
    ∃ fs sha file choice fromSource, plan L s r junk = some (.generate sha file choice fromSource) ∧
      applypatch L r junk s as = fileLoop L r fs sha choice fromSource 1 false s as ∧ targetFs r.target = some fs := by
  refine (applypatch_runs (L := L) junk s as).imp_right ?_
  rintro ⟨fs,sha,file,choice,fromSource,planned,top,run⟩
  exact ⟨fs,sha,file,choice,fromSource,planned,by simpa [plain] using run,top⟩

/-! ## The invariant -/

/-- The file names of a request are plain ones outside `/cache`, and the output is not
    written over the source. -/
structure PlainPaths (r : Request) : Prop where
  source : isPartition r.sourceFilename = false
  target : isPartition r.target = false
  sourceOutside : ¬ "/cache/".toList <+: r.sourceFilename
  targetOutside : ¬ "/cache/".toList <+: r.target
  apart : outname r.target ≠ r.sourceFilename

private theorem outname_outside {target : Path} (outside : ¬ "/cache/".toList <+: target) :
    ¬ "/cache/".toList <+: outname target := by
  rintro ⟨rest,equal⟩
  obtain ⟨more,longer,-⟩ | ⟨more,shorter,ends⟩ := append_eq_append_iff.mp equal
  · exact outside ⟨more,longer.symm⟩
  cases more with
  | nil => exact outside ⟨[],by simpa using shorter⟩
  | cons c more =>
    have dot : c = '.' := (cons.inj (show '.' :: _ = c :: (more ++ rest) from ends)).1.symm
    have inside : '.' ∈ "/cache/".toList := by
      rw [shorter,dot]
      simp
    exact absurd inside (by decide)

theorem cacheTempSource_inside : "/cache/".toList <+: cacheTempSource := by decide
theorem deletable_inside (deletable : Deletable path) : "/cache/".toList <+: path := by
  obtain ⟨-,dir,member,name,rfl⟩ := deletable
  simp only [deletableDirs,mem_cons,not_mem_nil,or_false] at member
  rcases member with rfl | rfl
  · exact ⟨name,by simp⟩
  · exact ⟨"recovery/otatest/".toList ++ name,by simp⟩

namespace PlainPaths

private theorem source_ne_cache (paths : PlainPaths r) : r.sourceFilename ≠ cacheTempSource := fun equal =>
  paths.sourceOutside (equal ▸ cacheTempSource_inside)
private theorem target_ne_cache (paths : PlainPaths r) : r.target ≠ cacheTempSource := fun equal =>
  paths.targetOutside (equal ▸ cacheTempSource_inside)
private theorem out_ne_cache (paths : PlainPaths r) : outname r.target ≠ cacheTempSource := fun equal =>
  outname_outside paths.targetOutside (equal ▸ cacheTempSource_inside)
private theorem source_ne_deletable (paths : PlainPaths r) {path : Path} (deletable : Deletable path) :
    r.sourceFilename ≠ path := fun equal => paths.sourceOutside (equal ▸ deletable_inside deletable)

end PlainPaths

private theorem outname_ne (target : Path) : outname target ≠ target := by
  intro equal
  have := congrArg length equal
  simp [outname] at this

/-- Masking leaves listed data alone once it is masked. -/
def MaskStable (L : Libs) (sums : List Path) : Prop := ∀ data d, maskOf data = some d → Listed L sums d → maskOf d = some d

theorem saved_held {sums : List Path} (saved : Saved cacheTempSource d s)
    (masked : maskOf d = some d) (listed : Listed L sums d) : Held L sums cacheTempSource s := by
  obtain ⟨node,found,⟨regular,fault,rfl⟩,clean⟩ := saved
  have plain : isPartition cacheTempSource = false := by decide
  refine ⟨⟨node.data,?_,listed⟩,?_⟩
  · rw [loadedData_ready plain found regular fault,masked]
  intro spot here
  cases here
  intro node' found'
  obtain rfl : node = node' := some.inj (found.symm.trans found')
  exact clean

/-- However normal chunks are cut short, an output whose context gets the target's hash
    has that hash. -/
def Untorn (L : Libs) (r : Request) : Prop := ∀ sha, parseSha1 r.targetSha1Str = some sha →
  ∀ data patch, patchOf L r data = some patch → ∀ format, patchFormat patch.data = some format →
  ∀ outputs, formatOutputs L format data patch.data r.bonusData = some outputs →
  ∀ codes ctx new, Feeds Torn outputs codes ctx new → L.sha1 ctx = sha → L.sha1 new = sha

def TargetMade (L : Libs) (r : Request) (s : Storage) : Prop := ∃ sha, parseSha1 r.targetSha1Str = some sha ∧
  FileIs r.target (fun node => L.sha1 node.data = sha ∧ node.dirty = false) s

/-- The source waits for no sync, and there is the target, the source or the copy. -/
structure Recoverable (L : Libs) (r : Request) (s : Storage) : Prop where
  synced : Synced s (.file r.sourceFilename)
  either : TargetMade L r s ∨ Held L r.sums r.sourceFilename s ∨ Held L r.sums cacheTempSource s

/-! ## Frames -/

theorem stableAt_held {sums : List Path} (elsewhere : place name ≠ some (.file path)) :
    StableAt path (Held L sums name) := by
  intro s t frame held
  refine held_frame frame ?_ held
  intro spot here
  cases spot with
  | file p => rintro rfl; exact elsewhere here
  | mtd mtd => exact id
theorem stableAt_fileIs {good : Node → Prop} (apart : path ≠ name) :
    StableAt path (FileIs name good) := by
  rintro s t frame ⟨node,found,fine⟩
  exact ⟨node,by rw [frame.files name apart,found],fine⟩
theorem stableAt_synced (apart : path ≠ name) : StableAt path (fun s => Synced s (.file name)) := by
  intro s t frame synced node found
  exact synced node (by rw [← frame.files name apart,found])
theorem stableAt_targetMade (apart : path ≠ r.target) : StableAt path (TargetMade L r) := by
  rintro s t frame ⟨sha,parsed,made⟩
  exact ⟨sha,parsed,stableAt_fileIs apart s t frame made⟩
theorem place_ne (plain : isPartition name = false) (apart : name ≠ path) :
    place name ≠ some (.file path) := by
  rw [place_plain plain]
  simpa using apart
theorem place_cache_ne (apart : path ≠ cacheTempSource) : place cacheTempSource ≠ some (.file path) :=
  place_ne (by decide) apart.symm

theorem fileLoop_unfinished {choice : Choice} {fs : Path} {fromSource : Bool} {sha : Bytes}
    {Base Copied : Storage → Prop} {After Final : Bool → Storage → Prop}
    (setting : Setting r choice fromSource d Base Copied) (ending : Ending L r sha choice Base Copied After Final)
    (as : List Answer) (base : Base s)
    (unfinished : (fileLoop L r fs sha choice fromSource 1 false s as).value ≠ some 0) :
    let t := (fileLoop L r fs sha choice fromSource 1 false s as).state
    Base t ∨ Copied t ∨ After true t := by
  obtain ⟨returns,stops⟩ := fileLoop_spec (L := L) setting ending 1 s as base
  cases value : (fileLoop L r fs sha choice fromSource 1 false s as).value with
  | none =>
    rcases stops value with (base | copied) | after
    · exact .inl base
    · exact .inr (.inl copied)
    · exact .inr (.inr after)
  | some code =>
    have bad : code ≠ 0 := by rintro rfl; exact unfinished value
    have post := returns code value
    simp only [bad,↓reduceIte] at post
    rcases post with base | copied
    · exact .inl base
    · exact .inr (.inl copied)

theorem fileLoop_ends {choice : Choice} {fs : Path} {fromSource : Bool} {sha : Bytes} {Base Copied : Storage → Prop}
    {After Final : Bool → Storage → Prop} (setting : Setting r choice fromSource d Base Copied)
    (ending : Ending L r sha choice Base Copied After Final) (as : List Answer) (base : Base s) :
    let t := (fileLoop L r fs sha choice fromSource 1 false s as).state
    Base t ∨ Copied t ∨ After true t ∨ Final false t ∨ Final true t := by
  by_cases finished : (fileLoop L r fs sha choice fromSource 1 false s as).value = some 0
  · have post := (fileLoop_spec (L := L) setting ending 1 s as base).1 0 finished
    obtain ⟨moved,final⟩ := post
    cases moved with
    | false => exact .inr (.inr (.inr (.inl final)))
    | true => exact .inr (.inr (.inr (.inr final)))
  · rcases fileLoop_unfinished setting ending as base finished with base | copied | after
    · exact .inl base
    · exact .inr (.inl copied)
    · exact .inr (.inr (.inl after))

section
variable (paths : PlainPaths r)
include paths

private theorem stableAt_recoverable : StableAt (outname r.target) (Recoverable L r) := by
  intro s t frame ⟨synced,either⟩
  refine ⟨stableAt_synced paths.apart s t frame synced,?_⟩
  rcases either with made | source | copy
  · exact .inl (stableAt_targetMade (outname_ne _) s t frame made)
  · exact .inr (.inl (stableAt_held (place_ne paths.source paths.apart.symm) s t frame source))
  · exact .inr (.inr (stableAt_held (place_cache_ne paths.out_ne_cache) s t frame copy))

private theorem source_setting (choice : Choice) {d : Bytes} (loaded : choice.file.data = some d) (masked : maskOf d = some d)
    (listed : Listed L r.sums d) : Setting r choice true d (Held L r.sums r.sourceFilename)
      (fun s => Synced s (.file r.sourceFilename) ∧ Held L r.sums cacheTempSource s) where
  loaded := loaded
  baseOut := stableAt_held (place_ne paths.source paths.apart.symm)
  copiedOut := fun s t frame both => ⟨stableAt_synced paths.apart s t frame both.1,
    stableAt_held (place_cache_ne paths.out_ne_cache) s t frame both.2⟩
  baseCache := fun _ => stableAt_held (place_ne paths.source paths.source_ne_cache)
  baseDeletes := fun _ s path deletable _ held =>
    held_setFile (place_ne paths.source (paths.source_ne_deletable deletable)) none held
  moved := by
    intro _ _ s held saved
    have copy := saved_held saved masked listed
    split
    · refine ⟨by simp [Synced],?_⟩
      exact held_setFile (place_cache_ne paths.source_ne_cache) none copy
    · exact ⟨held.synced _ (place_plain paths.source),copy⟩

theorem target_renamed {choice : Choice} {sha d ctx : Bytes} {s : Storage} {node : Node}
    (parsed : parseSha1 r.targetSha1Str = some sha) (untorn : Untorn L r) (loaded : choice.file.data = some d)
    (listed : patchOf L r d = some choice.patch) (made : Made L choice r.bonusData ctx node) (hash : L.sha1 ctx = sha)
    (synced : Synced s (.file r.sourceFilename)) :
    let t := (s.setFile (outname r.target) none).setFile r.target (some node)
    TargetMade L r t ∧ Synced t (.file r.sourceFilename) := by
  obtain ⟨regular,fault,clean,data,format,outputs,codes,loaded',known,outs,feeds⟩ := made
  obtain rfl : d = data := some.inj (loaded.symm.trans loaded')
  have good := untorn sha parsed d choice.patch listed format known outputs outs codes ctx node.data feeds hash
  refine ⟨⟨sha,parsed,fileIs_setFile ⟨good,clean⟩⟩,?_⟩
  intro node' found
  by_cases same : r.sourceFilename = r.target
  · rw [same,setFile_same] at found
    obtain rfl := some.inj found
    exact clean
  · rw [setFile_other _ _ same,setFile_other _ _ paths.apart.symm] at found
    exact synced node' found

theorem target_ending {choice : Choice} {sha d : Bytes} {Base Copied : Storage → Prop}
    (parsed : parseSha1 r.targetSha1Str = some sha) (untorn : Untorn L r) (loaded : choice.file.data = some d)
    (listed : patchOf L r d = some choice.patch) (base : ∀ s, Base s → Synced s (.file r.sourceFilename))
    (copied : ∀ s, Copied s → Synced s (.file r.sourceFilename)) :
    Ending L r sha choice Base Copied (fun _ s => TargetMade L r s ∧ Synced s (.file r.sourceFilename))
      (fun _ s => TargetMade L r s ∧ Synced s (.file r.sourceFilename)) where
  renamed := by
    intro moved s node ctx before _ made hash
    refine target_renamed paths parsed untorn loaded listed made hash ?_
    cases moved with
    | false => exact base s before
    | true => exact copied s before
  finished := fun _ both => both
  unlinked := by
    rintro s ⟨made,synced⟩
    split
    · have frame : Frame (Eq cacheTempSource) (fun _ => False) s (s.setFile cacheTempSource none) := setFile_frame rfl s none
      exact ⟨stableAt_targetMade paths.target_ne_cache.symm _ _ frame made,
        stableAt_synced paths.source_ne_cache.symm _ _ frame synced⟩
    · exact ⟨made,synced⟩

theorem recoverable_run (masking : MaskStable L r.sums) (untorn : Untorn L r) (junk : FileContents) (s : Storage)
    (as : List Answer) (first : Recoverable L r s) : Recoverable L r (applypatch L r junk s as).state := by
  obtain ⟨value,run,-⟩ | ⟨fs,sha,file,choice,fromSource,planned,run,-⟩ :=
    applypatch_file (L := L) junk s as paths.target
  · rw [run]
    exact first
  rw [run]
  have made {t : Storage} (both : TargetMade L r t ∧ Synced t (.file r.sourceFilename)) : Recoverable L r t :=
    ⟨both.2,.inl both.1⟩
  cases plan_spec planned with
  | @source _ d file patch parsed loaded data listed =>
    have inList : Listed L r.sums d := patchOf_listed.mp (by rw [listed]; rfl)
    obtain ⟨node,-,-,maskedOnce⟩ := loadedData_masked paths.source loaded
    have setting := source_setting paths ⟨file,patch⟩ data (masking _ d maskedOnce inList) inList
    have ending : Ending L r sha ⟨file,patch⟩ _ _ _ _ := target_ending paths parsed untorn data listed
      (fun t (held : Held L r.sums r.sourceFilename t) => held.synced _ (place_plain paths.source))
      (fun t (both : _ ∧ Held L r.sums cacheTempSource t) => both.1)
    have held : Held L r.sums r.sourceFilename s := by
      refine ⟨⟨d,loaded,inList⟩,fun spot here => ?_⟩
      rw [place_plain paths.source] at here
      cases here
      exact first.synced
    rcases fileLoop_ends setting ending as held with base | copied | after | final | final
    · exact ⟨base.synced _ (place_plain paths.source),.inr (.inl base)⟩
    · exact ⟨copied.1,.inr (.inr copied.2)⟩
    · exact made after
    · exact made final
    · exact made final
  | @copy _ d file copyFile patch parsed loaded data listed gone bad =>
    have setting : Setting r ⟨copyFile,patch⟩ false d (Recoverable L r) (fun _ => False) :=
      ⟨data,stableAt_recoverable paths,fun _ _ _ h => h,by simp,by simp,by simp⟩
    have ending : Ending L r sha ⟨copyFile,patch⟩ _ _ _ _ := target_ending paths parsed untorn data listed
      (fun t (held : Recoverable L r t) => held.synced) (fun t (h : False) => h.elim)
    rcases fileLoop_ends setting ending as first with base | copied | after | final | final
    · exact base
    · exact copied.elim
    · exact made after
    · exact made final
    · exact made final

end

theorem recoverable_reboot (s t : Storage) (first : Recoverable L r s) (reboot : Reboot s t) : Recoverable L r t := by
  obtain ⟨synced,either⟩ := first
  have same := reboot_sameAt reboot synced
  refine ⟨fun node found => synced node (by rw [← show t.files r.sourceFilename = _ from same]; exact found),?_⟩
  rcases either with ⟨sha,parsed,node,found,good,clean⟩ | source | copy
  · have targetSynced : Synced s (.file r.target) := by
      intro node' found'
      obtain rfl : node = node' := some.inj (found.symm.trans found')
      exact clean
    have kept : t.files r.target = s.files r.target := reboot_sameAt reboot targetSynced
    exact .inl ⟨sha,parsed,node,by rw [kept,found],good,clean⟩
  · exact .inr (.inl (held_reboot reboot source))
  · exact .inr (.inr (held_reboot reboot copy))

/-! ## Chains of runs -/

def TargetHas (L : Libs) (r : Request) (s : Storage) : Prop :=
  match parseSha1 r.targetSha1Str, s.files r.target with
  | some sha, some node => L.sha1 node.data = sha
  | _, _ => False

instance (s : Storage) : Decidable (TargetHas L r s) := by
  unfold TargetHas
  split <;> infer_instance

theorem targetMade_has (made : TargetMade L r s) : TargetHas L r s := by
  obtain ⟨sha,parsed,node,found,good,-⟩ := made
  simpa [TargetHas,parsed,found] using good

/-- However often the update is run, cut off, fails or is interrupted by a reboot, the target has the
    wanted hash or the source or its copy still holds listed data, if no torn output can have the hash
    of the target. -/
theorem file_update_recoverable (L : Libs) (r : Request) (paths : PlainPaths r) (masking : MaskStable L r.sums)
    (untorn : Untorn L r) {s t : Storage} (synced : ∀ spot, Synced s spot)
    (first : Holds L r.sums s r.sourceFilename ∨ Holds L r.sums s cacheTempSource)
    (chain : Chain (applypatch L r) (fun _ => True) (fun _ => True) Reboot s t) :
    TargetHas L r t ∨ Holds L r.sums t r.sourceFilename ∨ Holds L r.sums t cacheTempSource := by
  have start : Recoverable L r s := by
    refine ⟨synced _, .inr ?_⟩
    rcases first with source | copy
    · exact .inl ⟨source, fun spot _ => synced spot⟩
    · exact .inr ⟨copy, fun spot _ => synced spot⟩
  have kept : Recoverable L r t := chain_invariant
    (fun junk u as holds _ _ => recoverable_run paths masking untorn junk u as holds) recoverable_reboot chain start
  rcases kept.either with made | source | copy
  · exact .inl (targetMade_has made)
  · exact .inr (.inl source.holds)
  · exact .inr (.inr copy.holds)

theorem untorn_of_bsdiff (bsdiff : ∀ entry ∈ r.patches, patchFormat entry.2.data ≠ some .imgdiff) : Untorn L r := by
  intro sha parsed data patch listed format known outputs outs codes ctx new feeds hash
  obtain ⟨i,-,found⟩ := bind_eq_some_iff.mp listed
  obtain ⟨entry,member,rfl⟩ := map_eq_some_iff.mp found
  cases format with
  | imgdiff => exact absurd known (bsdiff entry (mem_of_getElem? member))
  | bsdiff =>
    simp only [formatOutputs] at outs
    split at outs
    · obtain rfl := some.inj outs
      cases feeds with
      | whole rest => cases rest; exact hash
    · cases outs

/-! ## Concrete requests -/

def hexText (sha : Bytes) : Path :=
  let digit (n : Nat) : Char := if n < 10 then Char.ofNat (n + 48) else Char.ofNat (n + 87)
  sha.flatMap fun b => [digit (b.toNat / 16), digit (b.toNat % 16)]

def cleanFile (data : Bytes) : Node := ⟨true, ⟨420, 0, 0⟩, data, none, false⟩
def filesOnly (files : List (Path × Node)) : Storage := ⟨fun p => files.lookup p, fun _ => none, fun _ => true,
  fun _ => true⟩

theorem filesOnly_synced {files : List (Path × Node)} (clean : ∀ entry ∈ files, entry.2.dirty = false) :
    ∀ spot, Synced (filesOnly files) spot := by
  rintro (path | name)
  · intro node found
    induction files with
    | nil => cases found
    | cons entry files ih =>
      obtain ⟨name,here⟩ := entry
      simp only [filesOnly,lookup_cons] at found ih
      split at found
      · obtain rfl := some.inj found
        exact clean (name,here) mem_cons_self
      · exact ih (fun e member => clean e (mem_cons_of_mem _ member)) found
  · trivial

def inPlace (L : Libs) (patch : Bytes) : Request :=
  ⟨"/system/a".toList, ['-'], hexText (L.sha1 (ascii "T")), 1, [(hexText (L.sha1 (ascii "S")), ⟨.blob, patch⟩)], none⟩
def inPlaceStart : Storage := filesOnly [("/system/a".toList, cleanFile (ascii "S"))]

theorem inPlace_plain (L : Libs) (patch : Bytes) : PlainPaths (inPlace L patch) where
  source := show isPartition "/system/a".toList = false by decide
  target := show isPartition "/system/a".toList = false by decide
  sourceOutside := show ¬ "/cache/".toList <+: "/system/a".toList by decide
  targetOutside := show ¬ "/cache/".toList <+: "/system/a".toList by decide
  apart := show outname "/system/a".toList ≠ "/system/a".toList by decide
theorem inPlaceStart_synced : ∀ spot, Synced inPlaceStart spot := filesOnly_synced (by simp [cleanFile])

/-- The old and the new contents have hashes of their own. -/
def twoLabels : Libs := labelledLibs [ascii "S", ascii "T"]

theorem twoLabels_listed {patch : Bytes} (listed : Listed twoLabels (inPlace twoLabels patch).sums d) :
    d = ascii "S" := by
  have parsed : parseSha1 (hexText (twoLabels.sha1 (ascii "S"))) = some (twoLabels.sha1 (ascii "S")) := by decide +kernel
  obtain ⟨str,member,same⟩ := listed_iff.mp listed
  rw [mem_singleton.mp member] at same
  have hash : labelHash [ascii "S",ascii "T"] (ascii "S") = labelHash [ascii "S",ascii "T"] d :=
    some.inj (parsed.symm.trans same)
  by_contra other
  by_cases target : d = ascii "T"
  · rw [target] at hash
    exact absurd hash (by decide)
  · have index : [ascii "S",ascii "T"].idxOf d = 2 := by
      simp [Ne.symm other,Ne.symm target]
    rw [labelHash,labelHash,index] at hash
    exact absurd hash (by decide)
theorem twoLabels_maskStable (patch : Bytes) : MaskStable twoLabels (inPlace twoLabels patch).sums := by
  intro data d _ listed
  rw [twoLabels_listed listed]
  decide +kernel

/-- Answers for a run without room that is cut off once the source was moved. -/
def movedAnswers : List Answer := [{}, { blockSize := 4096, count := 1000 }, {}, { count := 1 }, {}, {}, {}, {}]
def movedEnd (L : Libs) : Outcome Storage Answer Int :=
  applypatch L (inPlace L (freshPatch (ascii "T"))) blank inPlaceStart movedAnswers

theorem file_update_recoverable_when_moved :
    let r := inPlace twoLabels (freshPatch (ascii "T"))
    Holds twoLabels r.sums inPlaceStart r.sourceFilename ∧ (movedEnd twoLabels).value = none ∧
      (movedEnd twoLabels).state.files r.sourceFilename = none ∧
      (TargetHas twoLabels r (movedEnd twoLabels).state ∨ Holds twoLabels r.sums (movedEnd twoLabels).state r.sourceFilename ∨
        Holds twoLabels r.sums (movedEnd twoLabels).state cacheTempSource) := by
  have first : Holds twoLabels (inPlace twoLabels (freshPatch (ascii "T"))).sums inPlaceStart "/system/a".toList := by
    decide +kernel
  refine ⟨first, by decide +kernel, by decide +kernel, ?_⟩
  exact file_update_recoverable twoLabels (inPlace twoLabels (freshPatch (ascii "T"))) (inPlace_plain _ _)
    (twoLabels_maskStable _) (untorn_of_bsdiff (by decide +kernel)) inPlaceStart_synced (.inl first)
    (Chain.run blank movedAnswers (Chain.refl _) trivial trivial)

/-- Answers for a run in which the write of a normal chunk stops half way. -/
def tornAnswers : List Answer :=
  [{ blockSize := 4096, count := 1000 }, {}, { count := 1 }, { count := 1 }, { ok := false }, {}, {}, {}, {}]
def tornEnd : Outcome Storage Answer Int :=
  applypatch storedLibs (inPlace storedLibs (tornPatch (ascii "T") (ascii "xy"))) blank inPlaceStart tornAnswers

/-- The torn output has the hash of neither; it replaced the only copy of the source. -/
theorem torn_update_loses_file :
    let r := inPlace storedLibs (tornPatch (ascii "T") (ascii "xy"))
    (∀ spot, Synced inPlaceStart spot) ∧ PlainPaths r ∧ maskOf (ascii "S") = some (ascii "S") ∧
      Holds storedLibs r.sums inPlaceStart r.sourceFilename ∧
      Chain (applypatch storedLibs r) (fun _ => True) (fun _ => True) Reboot inPlaceStart tornEnd.state ∧
      ¬ (TargetHas storedLibs r tornEnd.state ∨ Holds storedLibs r.sums tornEnd.state r.sourceFilename ∨
        Holds storedLibs r.sums tornEnd.state cacheTempSource) := by
  refine ⟨inPlaceStart_synced, inPlace_plain _ _, by decide +kernel, by decide +kernel, ?_, by decide +kernel⟩
  exact Chain.run blank tornAnswers (Chain.refl _) trivial trivial

end Recovery.FileTargets
