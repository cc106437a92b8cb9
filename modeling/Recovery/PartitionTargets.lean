import Recovery.FileTargets

/-!
Partition targets over chains of runs. The source is copied to `/cache` before the partition is
written, and a write that is cut off leaves anything.
-/
namespace Recovery.PartitionTargets
open Memory Program Program.Prog Storage Load FreeCache Option
open Imgpatch PatchStreams PatchHash Applypatch Recovery.Partition Holding
open Saving Rounds Plans FileTargets StoredLibs

variable {L : Libs} {r : Request}

/-! ## Runs -/

private theorem applypatch_partition (junk : FileContents) (s : Storage) (as : List Answer)
    (partition : isPartition r.target = true) :
    (∃ value, applypatch L r junk s as = ⟨value,s,as⟩ ∧ (value = some 0 → plan L s r junk = some (.finished 0))) ∨
    ∃ sha file choice fromSource, plan L s r junk = some (.generate sha file choice fromSource) ∧
      applypatch L r junk s as = partitionTarget L r sha file choice s as := by
  refine (applypatch_runs (L := L) junk s as).imp_right ?_
  rintro ⟨fs,sha,file,choice,fromSource,planned,-,run⟩
  exact ⟨sha,file,choice,fromSource,planned,by simpa [partition] using run⟩

private theorem applyInMemory_buffer {choice : Choice} {format : PatchFormat} {bonus : Option Value} {size : Nat}
    {ctx : ShaCtx} {buffer : Bytes} (applied : applyInMemory L choice format bonus size = some (0, ctx, buffer)) :
    buffer = ctx := by
  obtain ⟨data,loaded,applied⟩ := bind_eq_some_iff.mp applied
  obtain ⟨⟨code,ctx'⟩,returned,result⟩ := bind_eq_some_iff.mp applied
  obtain ⟨rfl,rfl,rfl⟩ : code = 0 ∧ ctx' = ctx ∧ _ = buffer := by simpa using result
  obtain ⟨outputs,new,-,feeds,store⟩ := applyFormat_feeds returned
  have same : new = ctx' := feeds_whole feeds fun _ _ => memorySink_cut
  rw [← same]
  simpa [memorySink] using store

/-- What the write of a partition and the end of the run leave. `Base` holds until the
    copy is saved, `Copied` until the run is over, and `Final` after a run that returns 0. -/
structure Writing (L : Libs) (r : Request) (sha : Bytes) (file : FileContents) (choice : Choice)
    (Base Copied Final : Storage → Prop) : Prop where
  backsUp : Triple Base (backUp file) (fun ok s => if ok then Copied s else Base s) Base
  lossless : ∀ s, Copied s → Lossless r.target s
  writes : ∀ s t, OnlyPartition r.target s t → Copied s → Copied t
  written : ∀ s format ctx partition, Copied s → patchFormat choice.patch.data = some format →
    applyInMemory L choice format r.bonusData r.targetSize = some (0, ctx, ctx) → L.sha1 ctx = sha →
    partitionOf (tokens r.target) = .ok partition → Written partition ctx s →
    Final (if s.removable cacheTempSource then s.setFile cacheTempSource none else s)

theorem partitionTarget_spec {sha : Bytes} {file : FileContents} {choice : Choice}
    {Base Copied Final : Storage → Prop} (writing : Writing L r sha file choice Base Copied Final) :
    Triple Base (partitionTarget L r sha file choice)
      (fun code s => if code = 0 then Final s else Base s ∨ Copied s) fun s => Base s ∨ Copied s := by
  have failed : ∀ {B : Storage → Prop}, (∀ s, B s → Base s ∨ Copied s) → Triple B (pure 1 : Op Int)
      (fun code s => if code = 0 then Final s else Base s ∨ Copied s) fun s => Base s ∨ Copied s :=
    fun weaken => triple_pure _ fun s holds => by simpa using weaken s holds
  refine triple_bind (triple_conseq writing.backsUp (fun _ h => h) (fun _ _ h => h) fun _ base => .inl base) fun ok =>
    triple_ite (fun bad => failed fun s kept => .inl (by simpa [bad] using kept)) fun saved => ?_
  refine triple_pre (B := Copied) ?_ fun s kept => by simpa [not_not.mp saved] using kept
  refine triple_ite (fun _ => failed fun _ => .inr) fun _ => triple_ite (fun _ => failed fun _ => .inr) fun _ => ?_
  cases known : patchFormat choice.patch.data with
  | none => exact failed fun _ => .inr
  | some format =>
    dsimp only
    cases applied : applyInMemory L choice format r.bonusData r.targetSize with
    | none => exact triple_stuck fun _ => .inr
    | some result =>
      obtain ⟨code,ctx,buffer⟩ := result
      refine triple_ite (fun _ => failed fun _ => .inr) fun zero => triple_ite (fun _ => failed fun _ => .inr) fun hash => ?_
      rw [not_not] at zero hash
      subst zero
      obtain rfl := applyInMemory_buffer applied
      have write : Triple Copied (writeToPartition buffer r.target) (fun code s => Copied s ∧ (code = 0 →
          ∃ partition, partitionOf (tokens r.target) = .ok partition ∧ Written partition buffer s))
          fun s => Base s ∨ Copied s := by
        intro s as copied
        have kept := writing.writes _ _ (writeToPartition_only buffer r.target s as) copied
        have wrote := writeToPartition_written buffer r.target s as (writing.lossless s copied)
        exact ⟨fun code returned => ⟨kept,wrote.1 code returned⟩,fun _ => .inr kept⟩
      refine triple_bind write fun code => triple_ite (fun _ => failed fun _ both => .inr both.1) fun zero => ?_
      rw [not_not] at zero
      refine triple_bind (triple_ask_bind (fun _ both => .inr both.1) fun _ =>
        triple_modify (Q := fun _ => Final) ?_) fun _ => triple_pure _ fun s final => by simpa using final
      rintro s ⟨copied,wrote⟩
      obtain ⟨partition,found,starts⟩ := wrote zero
      exact writing.written s format buffer partition copied known applied hash found starts

/-! ## The invariant -/

/-- The target is a partition, not the copy, and the source is neither the copy nor a
    file that may be deleted to make room for it. -/
structure PartitionPaths (r : Request) : Prop where
  target : isPartition r.target = true
  targetCache : place r.target ≠ some (.file cacheTempSource)
  sourceCache : place r.sourceFilename ≠ some (.file cacheTempSource)
  sourceStays : ∀ path, Deletable path → place r.sourceFilename ≠ some (.file path)

/-- The target partition starts with data that has the wanted hash. -/
def PartitionHas (L : Libs) (r : Request) (s : Storage) : Prop :=
  ∃ sha partition contents n, parseSha1 r.targetSha1Str = some sha ∧ partitionOf (tokens r.target) = .ok partition ∧
    openPartition s partition = some contents ∧ L.sha1 (contents.take n) = sha

/-- The copy has listed data, as it is or as it is loaded. -/
def CopyHolds (L : Libs) (r : Request) (s : Storage) : Prop :=
  (∃ node, s.files cacheTempSource = some node ∧ Listed L r.sums node.data) ∨ Holds L r.sums s cacheTempSource

/-- Nothing but the copy waits for a sync, and the target gives back what is written. -/
structure Clean (r : Request) (s : Storage) : Prop where
  lossless : Lossless r.target s
  synced : ∀ spot, spot ≠ .file cacheTempSource → Synced s spot

structure Usable (L : Libs) (r : Request) (s : Storage) : Prop where
  clean : Clean r s
  either : PartitionHas L r s ∨ Holds L r.sums s r.sourceFilename ∨
    (CopyHolds L r s ∧ Synced s (.file cacheTempSource))

def SourceThere (L : Libs) (r : Request) (s : Storage) : Prop := Clean r s ∧ Holds L r.sums s r.sourceFilename
def CopyThere (L : Libs) (r : Request) (s : Storage) : Prop :=
  Clean r s ∧ ∃ node, s.files cacheTempSource = some node ∧ Listed L r.sums node.data ∧ node.dirty = false

variable {t : Storage}

theorem clean_of_files {s : Storage} (same : t.lossless = s.lossless) (kept : ∀ path, path ≠ cacheTempSource →
    (s.files path).map Node.dirty ≠ some true → (t.files path).map Node.dirty ≠ some true) (clean : Clean r s) :
    Clean r t := by
  refine ⟨by simpa [Lossless,same] using clean.lossless,?_⟩
  rintro (path | name) other
  · have apart : path ≠ cacheTempSource := fun same => other (by rw [same])
    intro node found
    by_contra dirty
    refine kept path apart (fun was => ?_) (by simpa [found] using dirty)
    obtain ⟨node',found',dirty'⟩ := map_eq_some_iff.mp was
    have clean' := clean.synced (.file path) other node' found'
    rw [dirty'] at clean'
    cases clean'
  · trivial
private theorem stableAt_clean : StableAt cacheTempSource (Clean r) := by
  intro s t frame
  refine clean_of_files frame.lossless fun path apart => ?_
  rw [frame.files path (Ne.symm apart)]
  exact id
theorem clean_setFile_none {s : Storage} (path : Path) (clean : Clean r s) : Clean r (s.setFile path none) := by
  refine clean_of_files (s := s) rfl (fun other _ => ?_) clean
  by_cases same : other = path
  · simp [same]
  · rw [setFile_other _ _ same]
    exact id
theorem holds_same {sums : List Path} {name : Path} {s : Storage}
    (same : ∀ spot, place name = some spot → SameAt s t spot) (holds : Holds L sums s name) : Holds L sums t name := by
  obtain ⟨d,loaded,listed⟩ := holds
  exact ⟨d,by rw [loadedData_congr same,loaded],listed⟩
theorem partitionHas_same {s : Storage} (partition : isPartition r.target = true)
    (same : ∀ spot, place r.target = some spot → SameAt s t spot) (has : PartitionHas L r s) : PartitionHas L r t := by
  obtain ⟨sha,spot,contents,n,parsed,found,opened,hash⟩ := has
  refine ⟨sha,spot,contents,n,parsed,found,?_,hash⟩
  cases spot with
  | mtd name =>
    have here : t.mtd name = s.mtd name := same (.mtd name) (by simp [place,partition,found])
    simpa [openPartition,here] using opened
  | emmc device =>
    have here : t.files device = s.files device := same (.file device) (by simp [place,partition,found])
    simpa [openPartition,here] using opened

section
variable (paths : PartitionPaths r)
include paths

private theorem usable_writing {sha d : Bytes} {file : FileContents} {choice : Choice}
    (parsed : parseSha1 r.targetSha1Str = some sha) (loaded : file.data = some d) (listed : Listed L r.sums d) :
    Writing L r sha file choice (SourceThere L r) (CopyThere L r) fun s => Clean r s ∧ PartitionHas L r s where
  backsUp := by
    have elsewhere {path : Path} {s t : Storage} (apart : place r.sourceFilename ≠ some (.file path))
        (frame : Frame (Eq path) (fun _ => False) s t) (holds : Holds L r.sums s r.sourceFilename) :
        Holds L r.sums t r.sourceFilename := by
      refine holds_same (fun spot here => frame_sameAt frame ?_) holds
      cases spot with
      | file other => rintro rfl; exact apart here
      | mtd name => exact id
    refine triple_conseq (backUp_spec (P := SourceThere L r) ?_ ?_ file) (fun _ h => h) ?_ fun _ h => h
    · rintro s t frame ⟨clean,holds⟩
      exact ⟨stableAt_clean s t frame clean,elsewhere paths.sourceCache frame holds⟩
    · rintro s path deletable - ⟨clean,holds⟩
      exact ⟨clean_setFile_none path clean,elsewhere (paths.sourceStays path deletable) (setFile_frame rfl s none) holds⟩
    rintro ok s ⟨there,saved⟩
    cases ok with
    | false => simpa using there
    | true =>
      rw [loaded] at saved
      obtain ⟨node,found,⟨-,-,rfl⟩,synced⟩ := saved rfl
      exact ⟨there.1,node,found,listed,synced⟩
  lossless := fun _ copied => copied.1.lossless
  writes := by
    rintro s t only ⟨clean,node,found,rest⟩
    refine ⟨clean_of_files only.frame.lossless (fun path _ => only.clean path) clean,node,?_,rest⟩
    rw [only.frame.files cacheTempSource,found]
    exact fun touched => paths.targetCache (by simp [place,paths.target,touched])
  written := by
    rintro s format ctx partition ⟨clean,-⟩ - - hash found ⟨contents,opened,starts⟩
    have has : PartitionHas L r s := by
      refine ⟨sha,partition,contents,ctx.length,parsed,found,opened,?_⟩
      rw [← List.prefix_iff_eq_take.mp starts,hash]
    split
    · have frame : Frame (Eq cacheTempSource) (fun _ => False) s (s.setFile cacheTempSource none) := setFile_frame rfl s none
      refine ⟨clean_setFile_none _ clean,partitionHas_same paths.target (fun spot here => frame_sameAt frame ?_) has⟩
      cases spot with
      | file path => rintro rfl; exact paths.targetCache here
      | mtd name => exact id
    · exact ⟨clean,has⟩

private theorem usable_run (junk : FileContents) (s : Storage) (as : List Answer) (first : Usable L r s)
    (direct : ∀ sha file choice, plan L s r junk ≠ some (.generate sha file choice false)) :
    Usable L r (applypatch L r junk s as).state := by
  obtain ⟨value,run,-⟩ | ⟨sha,file,choice,fromSource,planned,run⟩ :=
    applypatch_partition (L := L) junk s as paths.target
  · rw [run]
    exact first
  rw [run]
  cases plan_spec planned with
  | @copy _ d file copyFile patch parsed loaded data listed gone bad => exact absurd planned (direct _ _ _)
  | @source _ d file patch parsed loaded data listed =>
    have inList : Listed L r.sums d := patchOf_listed.mp (by rw [listed]; rfl)
    have kept {t : Storage} (either : SourceThere L r t ∨ CopyThere L r t) : Usable L r t := by
      rcases either with ⟨clean,holds⟩ | ⟨clean,node,found,inList,synced⟩
      · exact ⟨clean,.inr (.inl holds)⟩
      · refine ⟨clean,.inr (.inr ⟨.inl ⟨node,found,inList⟩,fun node' found' => ?_⟩)⟩
        obtain rfl : node = node' := some.inj (found.symm.trans found')
        exact synced
    obtain ⟨returns,stops⟩ := partitionTarget_spec (usable_writing paths parsed data inList) s as
      ⟨first.clean,d,loaded,inList⟩
    cases value : (partitionTarget L r sha file ⟨file,patch⟩ s as).value with
    | none => exact kept (stops value)
    | some code =>
      have post := returns code value
      dsimp only at post
      split at post
      · exact ⟨post.1,.inl post.2⟩
      · exact kept post

private theorem usable_reboot (s t : Storage) (first : Usable L r s) (reboot : Reboot s t) : Usable L r t := by
  obtain ⟨clean,either⟩ := first
  have synced (spot : Place) : Synced t spot := by
    cases spot with
    | mtd name => trivial
    | file path =>
      obtain ⟨-,-,-,washed⟩ | ⟨was,same⟩ := reboot.files path
      · exact washed
      · intro node found
        exact was node (by rw [← same,found])
  refine ⟨⟨by simpa [Lossless,reboot.lossless] using clean.lossless,fun spot _ => synced spot⟩,?_⟩
  rcases either with has | holds | ⟨copy,kept⟩
  · refine .inl (partitionHas_same paths.target (fun spot here => reboot_sameAt reboot (clean.synced spot ?_)) has)
    exact fun same => paths.targetCache (same ▸ here)
  · refine .inr (.inl (holds_same (fun spot here => reboot_sameAt reboot (clean.synced spot ?_)) holds))
    exact fun same => paths.sourceCache (same ▸ here)
  have same : t.files cacheTempSource = s.files cacheTempSource := reboot_sameAt reboot kept
  refine .inr (.inr ⟨copy.imp ?_ (holds_same fun spot here => ?_),synced _⟩)
  · rintro ⟨node,found,listed⟩
    exact ⟨node,by rw [same,found],listed⟩
  · cases here
    exact same

end

/-- No run that starts here works from the copy. -/
def Direct (L : Libs) (r : Request) (s : Storage) : Prop :=
  ∀ junk sha file choice, plan L s r junk ≠ some (.generate sha file choice false)

private theorem direct_of_holds {s : Storage} (holds : Holds L r.sums s r.sourceFilename) : Direct L r s := by
  intro junk sha file choice planned
  cases plan_spec planned with
  | copy _ _ _ _ _ bad => exact bad holds

/-- However often the update is run, cut off, fails or is interrupted by a reboot, the partition has the
    wanted hash or the source or its copy still has listed data, as long as no run works from the copy
    and an MTD target gives back what is written to it. -/
theorem partition_update_recoverable (L : Libs) (r : Request) (paths : PartitionPaths r) {s t : Storage}
    (synced : ∀ spot, Synced s spot) (lossless : Lossless r.target s)
    (first : Holds L r.sums s r.sourceFilename ∨ CopyHolds L r s)
    (chain : Chain (applypatch L r) (Direct L r) (fun _ => True) Reboot s t) :
    PartitionHas L r t ∨ Holds L r.sums t r.sourceFilename ∨ CopyHolds L r t := by
  have start : Usable L r s := by
    refine ⟨⟨lossless, fun spot _ => synced spot⟩, .inr ?_⟩
    rcases first with source | copy
    · exact .inl source
    · exact .inr ⟨copy, synced _⟩
  have kept : Usable L r t := chain_invariant
    (fun junk u as holds direct _ => usable_run paths junk u as holds fun sha file choice => direct junk sha file choice)
    (usable_reboot paths) chain start
  rcases kept.either with has | source | ⟨copy, -⟩
  · exact .inl has
  · exact .inr (.inl source)
  · exact .inr (.inr copy)

/-! ## Concrete requests -/

def device (data : Bytes) : Node := ⟨false, ⟨384, 0, 0⟩, data, none, false⟩
/-- The update of a partition in place from "S" to "T", with both sizes and hashes in its
    name. -/
def onPartition (name : String) (L : Libs) : Request :=
  ⟨name.toList ++ ":1:".toList ++ hexText (L.sha1 (ascii "S")) ++ ":1:".toList ++ hexText (L.sha1 (ascii "T")), ['-'],
    hexText (L.sha1 (ascii "T")), 1, [(hexText (L.sha1 (ascii "S")), ⟨.blob, freshPatch (ascii "T")⟩)], none⟩
def onDevice (L : Libs) : Request := onPartition "EMMC:/dev/b" L
def onDeviceStart : Storage := filesOnly [("/dev/b".toList, device (ascii "S"))]
/-- Answers while the copy is made, and for a run that is cut off while the device is written. -/
def copyAnswers : List Answer := [{ blockSize := 4096, count := 1000 }, {}, { count := 1 }, {}, {}, {}]
def cutAnswers : List Answer := copyAnswers ++ ([{}, { bytes := ascii "X" }] : List Answer)
def cutEnd : Outcome Storage Answer Int := applypatch storedLibs (onDevice storedLibs) blank onDeviceStart cutAnswers
def lostEnd : Outcome Storage Answer Int :=
  applypatch storedLibs (onDevice storedLibs) blank cutEnd.state [{ blockSize := 4096, count := 1000 }, {}, {}]

/-- A partition of a flash chip in which a block is given up. -/
def inFlash : Request := onPartition "MTD:boot" storedLibs
def inFlashStart : Storage :=
  { filesOnly [] with
    mtd := fun name => if name = "boot".toList then some ⟨ascii "S", true⟩ else none
    lossless := fun _ => false }
def givenUpAnswers : List Answer := copyAnswers ++ ([{}, {}, {}, { bytes := ascii "X" }, {}] : List Answer)
def givenUpEnd : Outcome Storage Answer Int := applypatch storedLibs inFlash blank inFlashStart givenUpAnswers

theorem onDevice_paths : PartitionPaths (onDevice storedLibs) := by
  refine ⟨by decide +kernel,by decide +kernel,by decide +kernel,fun path deletable same => ?_⟩
  cases same
  exact absurd (deletable_inside deletable) (by decide)
private theorem inFlash_paths : PartitionPaths inFlash := by
  refine ⟨by decide +kernel,by decide +kernel,by decide +kernel,fun path _ same => ?_⟩
  cases same
theorem onDevice_lossless : Lossless (onDevice storedLibs).target onDeviceStart := fun _ _ => rfl
theorem onDeviceStart_synced : ∀ spot, Synced onDeviceStart spot := filesOnly_synced (by simp [device])
theorem inFlashStart_synced : ∀ spot, Synced inFlashStart spot
  | .mtd _ => trivial
  | .file _ => fun _ found => by cases found

theorem partition_update_recoverable_when_cut :
    let r := onDevice storedLibs
    Holds storedLibs r.sums onDeviceStart r.sourceFilename ∧ cutEnd.value = none ∧
      (PartitionHas storedLibs r cutEnd.state ∨ Holds storedLibs r.sums cutEnd.state r.sourceFilename ∨
        CopyHolds storedLibs r cutEnd.state) := by
  have first : Holds storedLibs (onDevice storedLibs).sums onDeviceStart (onDevice storedLibs).sourceFilename := by
    decide +kernel
  refine ⟨first, by decide +kernel, ?_⟩
  exact partition_update_recoverable storedLibs (onDevice storedLibs) onDevice_paths onDeviceStart_synced onDevice_lossless
    (.inl first) (Chain.run blank cutAnswers (Chain.refl _) (direct_of_holds first) trivial)

/-- Neither the partition has the wanted hash, nor has the source or its copy listed data. -/
def NothingLeft (r : Request) (s : Storage) : Prop :=
  ¬ (PartitionHas storedLibs r s ∨ Holds storedLibs r.sums s r.sourceFilename ∨ CopyHolds storedLibs r s)

theorem nothingLeft_of_garbage {name : String} (partition : Partition) {s : Storage}
    (named : partitionOf (tokens (onPartition name storedLibs).target) = .ok partition)
    (garbage : openPartition s partition = some (ascii "X"))
    (source : ¬ Holds storedLibs (onPartition name storedLibs).sums s (onPartition name storedLibs).sourceFilename)
    (copy : ¬ CopyHolds storedLibs (onPartition name storedLibs) s) : NothingLeft (onPartition name storedLibs) s := by
  rintro (⟨sha,partition',contents,n,parsed,found,opened,hash⟩ | holds | held)
  · have wanted : parseSha1 (hexText (storedLibs.sha1 (ascii "T"))) = some (storedLibs.sha1 (ascii "T")) := by
      decide +kernel
    obtain rfl := Option.some.inj (parsed.symm.trans wanted)
    obtain rfl : partition' = partition := by rw [named] at found; cases found; rfl
    obtain rfl := Option.some.inj (opened.symm.trans garbage)
    rcases Nat.eq_zero_or_pos n with none | some
    · rw [none] at hash
      exact absurd hash (by decide +kernel)
    · rw [List.take_of_length_le (show (ascii "X").length ≤ n from some)] at hash
      exact absurd hash (by decide +kernel)
  · exact source holds
  · exact copy held

/-- The device is half written and the second run truncates the copy that the first one made; or a block
    of flash was given up, and one run that returns 0 deletes the copy. -/
theorem partition_update_loses_copy :
    ((∀ spot, Synced onDeviceStart spot) ∧ PartitionPaths (onDevice storedLibs) ∧
      Holds storedLibs (onDevice storedLibs).sums onDeviceStart (onDevice storedLibs).sourceFilename ∧
      Chain (applypatch storedLibs (onDevice storedLibs)) (fun _ => True) (fun _ => True) Reboot onDeviceStart
        lostEnd.state ∧ NothingLeft (onDevice storedLibs) lostEnd.state) ∧
    (∀ spot, Synced inFlashStart spot) ∧ PartitionPaths inFlash ∧
      Holds storedLibs inFlash.sums inFlashStart inFlash.sourceFilename ∧
      givenUpEnd.value = some 0 ∧ NothingLeft inFlash givenUpEnd.state := by
  refine ⟨⟨onDeviceStart_synced, onDevice_paths, by decide +kernel, ?_, ?_⟩, inFlashStart_synced, inFlash_paths,
    by decide +kernel, by decide +kernel, ?_⟩
  · exact Chain.run blank _ (Chain.run blank cutAnswers (Chain.refl _) trivial trivial) trivial trivial
  · refine nothingLeft_of_garbage (.emmc "/dev/b".toList) (by decide +kernel) (by decide +kernel)
      (by decide +kernel) ?_
    rintro (⟨node, found, listed⟩ | holds)
    · have emptied : (lostEnd.state.files cacheTempSource).map Node.data = some [] := by decide +kernel
      rw [found] at emptied
      rw [show node.data = [] from Option.some.inj emptied] at listed
      exact absurd listed (by decide +kernel)
    · exact absurd holds (by decide +kernel)
  · refine nothingLeft_of_garbage (.mtd "boot".toList) (by decide +kernel) (by decide +kernel)
      (by decide +kernel) ?_
    rintro (⟨node, found, -⟩ | holds)
    · have gone : (givenUpEnd.state.files cacheTempSource).isNone = true := by decide +kernel
      rw [found] at gone
      cases gone
    · exact absurd holds (by decide +kernel)

end Recovery.PartitionTargets
