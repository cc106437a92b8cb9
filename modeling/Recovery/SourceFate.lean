import Recovery.FileTargets

/-!
What becomes of the source of a file target with another name.
-/
namespace Recovery.SourceFate
open Memory Program Program.Prog Storage Load FreeCache
open Imgpatch PatchStreams PatchHash Applypatch Holding
open Saving Rounds Plans FileTargets StoredLibs

variable {L : Libs} {r : Request}

/-! ## The first try -/

/-- The target is there already, as far as it can be loaded. -/
def Already (L : Libs) (r : Request) (s : Storage) : Prop :=
  ∃ sha d, parseSha1 r.targetSha1Str = some sha ∧ loadedData L s r.target = some d ∧ L.sha1 d = sha
private theorem plan_finished_iff (junk : FileContents) {s : Storage} : plan L s r junk = some (.finished 0) ↔ Already L r s := by
  constructor
  · intro planned
    cases plan_spec planned with
    | already parsed loaded hash => exact ⟨_,_,parsed,loaded,hash⟩
    | refused _ bad => exact absurd rfl bad
  · rintro ⟨sha,d,parsed,loaded,hash⟩
    exact plan_already parsed loaded hash

/-- The free space that an answer of `statfs` tells is enough for a target. -/
def room (targetSize : Nat) (answer : Answer) : Bool :=
  let free := if answer.ok then unsigned 64 (answer.blockSize * answer.count) else unsigned 64 (-1)
  decide (free > 256 <<< 10) && decide (free > unsigned 64 (targetSize * 3) / 2)
/-- There is room, the output file can be opened, and a patch can be applied to the data and written. -/
def writesOutput (L : Libs) (r : Request) (d : Bytes) (patch : Value) (s : Storage) : List Answer → Bool
  | [] => false
  | space :: rest =>
    let opened := openTrunc (outname r.target) s rest
    room r.targetSize space && patch.type == .blob && opened.value == some true &&
      (patchFormat patch.data).any fun format =>
        (applyFormat L format d patch.data r.bonusData (fileSink (outname r.target)) opened.state opened.rest).value.any
          (·.1 == 0)
/-- The patch for the source is applied and written at the first try. -/
def firstTry (L : Libs) (r : Request) (s : Storage) (as : List Answer) : Bool :=
  (loadedData L s r.sourceFilename).any fun d => (patchOf L r d).any fun patch => writesOutput L r d patch s as

private theorem applyRound_madeCopy {choice : Choice} {target : Path} {bonus : Option Value} {retry : Nat} {madeCopy copied : Bool}
    {s : Storage} {as : List Answer} {ctx : ShaCtx}
    (returned : (applyRound L choice target bonus retry madeCopy s as).value = some (.done copied ctx)) : copied = madeCopy := by
  unfold applyRound at returned
  split at returned
  · cases returned
  obtain ⟨ok,_,rest⟩ := bind_returns returned
  rw [rest] at returned
  split at returned
  · cases returned
  cases format : patchFormat choice.patch.data with
  | none =>
    rw [format] at returned
    cases returned
  | some format =>
    simp only [format] at returned
    obtain ⟨d,_,rest⟩ := bind_returns returned
    rw [rest] at returned
    obtain ⟨⟨code,out⟩,_,rest⟩ := bind_returns returned
    rw [rest] at returned
    obtain ⟨_,_,rest⟩ := bind_returns returned
    rw [rest] at returned
    split at returned
    · split at returned
      · cases returned
      · obtain ⟨_,_,rest⟩ := bind_returns returned
        rw [rest] at returned
        cases returned
    · cases returned
      rfl

private theorem applyRound_first {choice : Choice} {d : Bytes} (loaded : choice.file.data = some d) {space : Answer}
    (full : room r.targetSize space = true) {s : Storage} {rest : List Answer} {e : RoundEnd}
    (returned : (applyRound L choice r.target r.bonusData 1 false s rest).value = some e) :
    (∃ ctx, e = .done false ctx) ↔ writesOutput L r d choice.patch s (space :: rest) = true := by
  unfold applyRound at returned
  simp only [writesOutput,full,Bool.true_and]
  by_cases blob : choice.patch.type = .blob
  · simp only [blob,ne_eq,not_true_eq_false,if_false] at returned
    obtain ⟨ok,opened,later⟩ := bind_returns returned
    rw [later] at returned
    cases ok with
    | false =>
      cases returned
      simp [opened]
    | true =>
      simp only [not_true_eq_false,if_false] at returned
      cases format : patchFormat choice.patch.data with
      | none =>
        simp only [format] at returned
        cases returned
        simp
      | some format =>
        simp only [format,loaded] at returned
        obtain ⟨_,⟨⟩,later⟩ := bind_returns returned
        rw [later] at returned
        obtain ⟨⟨code,ctx⟩,applied,later⟩ := bind_returns returned
        rw [later] at returned
        obtain ⟨_,_,later⟩ := bind_returns returned
        rw [later] at returned
        simp only [need,pure_run] at applied
        simp only [blob,opened,applied,Option.any_some,beq_self_eq_true,Bool.true_and,beq_iff_eq]
        by_cases zero : code = 0
        · simp only [zero,not_true_eq_false,if_false] at returned
          cases returned
          simp [zero]
        · simp only [zero,not_false_eq_true,if_true,one_ne_zero,if_false] at returned
          obtain ⟨_,_,later⟩ := bind_returns returned
          rw [later] at returned
          cases returned
          simp [zero]
  · simp only [blob,ne_eq,not_false_eq_true,if_true] at returned
    cases returned
    simp [blob]

private theorem fileRound_first {choice : Choice} {d : Bytes} (loaded : choice.file.data = some d) {fs : Path} {s : Storage}
    {as : List Answer} {e : RoundEnd} (returned : (fileRound L r fs choice true 1 false s as).value = some e) :
    (∃ ctx, e = .done false ctx) ↔ writesOutput L r d choice.patch s as = true := by
  cases as with
  | nil => cases returned
  | cons space rest =>
    have enough : enoughSpace fs r.targetSize 1 s (space :: rest) = ⟨some (room r.targetSize space),s,rest⟩ := rfl
    unfold fileRound at returned
    rw [bind_run,enough,next_some rfl] at returned
    cases full : room r.targetSize space with
    | false =>
      simp only [full,Bool.false_eq_true,not_false_eq_true,and_self,if_true] at returned
      simp only [writesOutput,full,Bool.false_and,Bool.false_eq_true,iff_false]
      rintro ⟨ctx,rfl⟩
      split at returned
      · cases returned
      obtain ⟨saved,_,later⟩ := bind_returns returned
      rw [later] at returned
      split at returned
      · cases returned
      obtain ⟨_,_,later⟩ := bind_returns returned
      rw [later] at returned
      obtain ⟨_,_,later⟩ := bind_returns returned
      rw [later] at returned
      cases applyRound_madeCopy returned
    | true =>
      simp only [full,not_true_eq_false,false_and,if_false,if_true] at returned
      exact applyRound_first loaded full returned

/-! ## Moved sources -/

/-- What is left of a source that was moved: nothing, or when it cannot be deleted the
    file itself, with the copy's data if it is the copy. -/
structure Moved (r : Request) (removable : Bool) (node : Node) (d : Bytes) (t : Storage) : Prop where
  stays : t.removable r.sourceFilename = removable
  gone : removable = true → t.files r.sourceFilename = none
  kept : removable = false → r.sourceFilename ≠ cacheTempSource → t.files r.sourceFilename = some node
  copy : removable = false → r.sourceFilename = cacheTempSource → (t.files r.sourceFilename).map Node.data = some d

variable {node : Node} {removable : Bool}

theorem moved_gone {d : Bytes} {t : Storage}
    (stays : t.removable r.sourceFilename = removable) (yes : removable = true)
    (missing : t.files r.sourceFilename = none) : Moved r removable node d t := by
  refine ⟨stays,fun _ => missing,fun no => ?_,fun no => ?_⟩
  · rw [yes] at no; cases no
  · rw [yes] at no; cases no
theorem moved_setFile {d : Bytes} {t : Storage} {path : Path}
    (moved : Moved r removable node d t) (other : r.sourceFilename ≠ path) (new : Option Node) :
    Moved r removable node d (t.setFile path new) := by
  have same : (t.setFile path new).files r.sourceFilename = t.files r.sourceFilename := setFile_other t new other
  exact ⟨moved.stays,fun h => same.trans (moved.gone h),fun h h' => same.trans (moved.kept h h'),
    fun h h' => by rw [same]; exact moved.copy h h'⟩
private theorem moved_frame {d : Bytes} {path : Path} (other : path ≠ r.sourceFilename) :
    StableAt path (Moved r removable node d) := by
  intro s t frame moved
  have same := frame.files r.sourceFilename other
  exact ⟨by rw [frame.removable]; exact moved.stays,fun h => same.trans (moved.gone h),
    fun h h' => same.trans (moved.kept h h'),fun h h' => by rw [same]; exact moved.copy h h'⟩

section
variable (different : r.target ≠ r.sourceFilename) {node : Node} {choice : Choice} {d sha : Bytes} {fs : Path}
  {s : Storage} {as : List Answer}
include different

private theorem overwritten {fromSource : Bool} (replaced : outname r.target = r.sourceFilename) (loaded : choice.file.data = some d)
    (returned : (fileLoop L r fs sha choice fromSource 1 false s as).value = some 0) :
    (fileLoop L r fs sha choice fromSource 1 false s as).state.files r.sourceFilename = none := by
  have setting : Setting r choice fromSource d (fun _ => True) (fun _ => True) :=
    ⟨loaded,fun _ _ _ _ => trivial,fun _ _ _ _ => trivial,fun _ _ _ _ _ => trivial,fun _ _ _ _ _ _ => trivial,
      fun _ _ _ _ _ => trivial⟩
  have ending : Ending L r sha choice (fun _ => True) (fun _ => True)
      (fun _ t => t.files r.sourceFilename = none) (fun _ t => t.files r.sourceFilename = none) := by
    refine ⟨?_,fun _ gone => gone,?_⟩
    · intro moved t new ctx _ _ _ _
      rw [setFile_other _ _ different.symm,← replaced,setFile_same]
    intro t gone
    split
    · by_cases cache : r.sourceFilename = cacheTempSource
      · rw [cache,setFile_same]
      · rw [setFile_other _ _ cache,gone]
    · exact gone
  have post := (fileLoop_spec setting ending 1 s as trivial).1 0 returned
  simpa using post

variable (apart : outname r.target ≠ r.sourceFilename)
include apart

omit different in
theorem source_stable : StableAt (outname r.target) (fun t => t.files r.sourceFilename = some node) :=
  fun _ _ frame same => (frame.files r.sourceFilename apart).trans same
theorem source_ending : Ending L r sha choice (fun t => t.files r.sourceFilename = some node) (fun _ => False)
    (fun moved t => moved = false ∧ t.files r.sourceFilename = some node)
    (fun _ t => t.files r.sourceFilename = some node) := by
  refine ⟨?_,fun _ both => both.2,by simp⟩
  intro moved t new ctx before _ _ _
  cases moved with
  | true => exact before.elim
  | false => exact ⟨rfl,by rw [setFile_other _ _ different.symm,setFile_other _ _ apart.symm]; exact before⟩

theorem untouched (found : s.files r.sourceFilename = some node) (loaded : choice.file.data = some d)
    (returned : (fileLoop L r fs sha choice false 1 false s as).value = some 0) :
    (fileLoop L r fs sha choice false 1 false s as).state.files r.sourceFilename = some node := by
  have setting : Setting r choice false d (fun t => t.files r.sourceFilename = some node) (fun _ => False) :=
    ⟨loaded,source_stable apart,fun _ _ _ h => h,by simp,by simp,by simp⟩
  have post := (fileLoop_spec setting (source_ending different apart) 1 s as found).1 0 returned
  simpa using post

private theorem untouched_first (found : s.files r.sourceFilename = some node) {ctx : ShaCtx}
    (first : (fileRound L r fs choice true 1 false s as).value = some (.done false ctx))
    (returned : (fileLoop L r fs sha choice true 1 false s as).value = some 0) :
    (fileLoop L r fs sha choice true 1 false s as).state.files r.sourceFilename = some node := by
  have made := (fileRound_plain (source_stable apart) 1 s as found).1 _ first ctx rfl
  have stable : StableAt (outname r.target)
      (Before (fun t => t.files r.sourceFilename = some node) (fun _ => False) false) := source_stable apart
  unfold fileLoop at returned ⊢
  rw [bind_run,next_some first] at returned ⊢
  have post := (replaceTarget_spec stable (source_ending different apart) ctx _ _ made).1 0 returned
  simpa using post

private theorem moved_away (found : s.files r.sourceFilename = some node) (loaded : choice.file.data = some d)
    (first : ∀ ctx, (fileRound L r fs choice true 1 false s as).value ≠ some (.done false ctx))
    (returned : (fileLoop L r fs sha choice true 1 false s as).value = some 0) :
    Moved r (s.removable r.sourceFilename) node d (fileLoop L r fs sha choice true 1 false s as).state := by
  let Base (t : Storage) : Prop := t.removable r.sourceFilename = s.removable r.sourceFilename ∧
    (s.removable r.sourceFilename = false → r.sourceFilename ≠ cacheTempSource → t.files r.sourceFilename = some node)
  have stable {path : Path} (other : path ≠ r.sourceFilename) : StableAt path Base := fun _ t frame base =>
    ⟨by rw [frame.removable]; exact base.1,fun h h' => (frame.files _ other).trans (base.2 h h')⟩
  have setting : Setting r choice true d Base (Moved r (s.removable r.sourceFilename) node d) := by
    refine ⟨loaded,stable apart,moved_frame apart,fun _ => ?_,fun _ t path _ removable base => ?_,?_⟩
    · by_cases cache : cacheTempSource = r.sourceFilename
      · exact fun _ t frame base => ⟨by rw [frame.removable]; exact base.1,fun _ h' => absurd cache.symm h'⟩
      · exact stable cache
    · by_cases here : path = r.sourceFilename
      · subst here
        refine ⟨base.1,fun fixed _ => ?_⟩
        rw [← base.1,removable] at fixed
        cases fixed
      · exact stableAt_setFile (stable here) none base
    · intro _ _ t base saved
      split
      · rename_i removable
        exact moved_gone base.1 (by rw [← base.1,removable]) (setFile_same _ _ _)
      · rename_i fixed
        refine ⟨base.1,fun h => absurd (base.1.trans h) fixed,base.2,fun _ cache => ?_⟩
        obtain ⟨copy,there,⟨-,-,data⟩,-⟩ := saved
        simp [cache,there,data]
  have ending : Ending L r sha choice Base (Moved r (s.removable r.sourceFilename) node d)
      (fun moved t => moved = true → Moved r (s.removable r.sourceFilename) node d t)
      (fun moved t => moved = true → Moved r (s.removable r.sourceFilename) node d t) := by
    refine ⟨?_,by simp,?_⟩
    · rintro moved t new ctx before _ _ _ rfl
      exact moved_setFile (moved_setFile before apart.symm none) different.symm (some new)
    intro t after _
    have moved := after rfl
    split
    · rename_i removable
      by_cases cache : r.sourceFilename = cacheTempSource
      · have removed : s.removable r.sourceFilename = true := by rw [← moved.stays,cache]; exact removable
        exact moved_gone moved.stays removed (by rw [cache,setFile_same])
      · exact moved_setFile moved cache none
    · exact moved
  have base : Base s := ⟨rfl,fun _ _ => found⟩
  rcases fileLoop_first setting ending base returned with ⟨⟨ctx,plain⟩,-⟩ | ⟨-,final⟩
  · exact absurd plain (first ctx)
  · exact final rfl

end

/-- A call that succeeds on two different files leaves the source with its contents exactly when the target was
    there already, or the source is not the output file and the target is made from the copy, or at the first
    try, or the source cannot be deleted; then, if it is the copy itself, masking has to leave its data alone. -/
theorem source_kept_iff (L : Libs) (r : Request) (junk : FileContents) (s : Storage) (as : List Answer)
    (target : isPartition r.target = false) (different : r.target ≠ r.sourceFilename)
    {node : Node} (found : s.files r.sourceFilename = some node) (returned : (applypatch L r junk s as).value = some 0) :
    ((applypatch L r junk s as).state.files r.sourceFilename).map Node.data = some node.data ↔
      Already L r s ∨
      (outname r.target ≠ r.sourceFilename ∧ (¬ Holds L r.sums s r.sourceFilename ∨ firstTry L r s as = true ∨
        (s.removable r.sourceFilename = false ∧
          (r.sourceFilename = cacheTempSource → loadedData L s r.sourceFilename = some node.data)))) := by
  rw [← plan_finished_iff junk]
  obtain ⟨value, run, already⟩ | ⟨fs, sha, file, choice, fromSource, planned, run, top⟩ :=
    applypatch_file (L := L) junk s as target
  · rw [run] at returned ⊢
    simp [found, already returned]
  rw [run] at returned ⊢
  have notFinished : plan L s r junk ≠ some (.finished 0) := by simp [planned]
  obtain ⟨d, loaded⟩ : ∃ d, choice.file.data = some d := by
    cases plan_spec planned with
    | source _ _ data _ => exact ⟨_, data⟩
    | copy _ _ data _ _ _ => exact ⟨_, data⟩
  by_cases replaced : outname r.target = r.sourceFilename
  · rw [overwritten different replaced loaded returned]
    simp [notFinished, replaced]
  cases fromSource with
  | false =>
    have other : ¬ Holds L r.sums s r.sourceFilename := by
      cases plan_spec planned with
      | copy _ _ _ _ _ bad => exact bad
    rw [untouched different replaced found loaded returned]
    simp [replaced, other]
  | true =>
    obtain ⟨origin, chosen⟩ : loadedData L s r.sourceFilename = some d ∧ patchOf L r d = some choice.patch := by
      cases plan_spec planned with
      | source _ inSource data listed =>
        obtain rfl := Option.some.inj (data.symm.trans loaded)
        exact ⟨inSource, listed⟩
    have holds : Holds L r.sums s r.sourceFilename := ⟨d, origin, patchOf_listed.mp (by rw [chosen]; rfl)⟩
    obtain ⟨e, round, -⟩ := bind_returns (show (fileLoop L r fs sha choice true 1 false s as).value = some 0 from returned)
    have tries : firstTry L r s as = writesOutput L r d choice.patch s as := by simp [firstTry, origin, chosen]
    have first := fileRound_first loaded round
    rw [← tries] at first
    by_cases plain : firstTry L r s as = true
    · obtain ⟨ctx, rfl⟩ := first.mpr plain
      rw [untouched_first different replaced found round returned]
      simp [plain, replaced]
    have later (ctx : ShaCtx) : (fileRound L r fs choice true 1 false s as).value ≠ some (.done false ctx) :=
      fun now => plain (first.mp ⟨ctx, Option.some.inj (round.symm.trans now)⟩)
    have moved := moved_away different replaced found loaded later returned
    simp only [plain, notFinished, replaced, origin, holds, ne_eq, not_true_eq_false, not_false_eq_true,
      false_or, true_and, Option.some.injEq]
    cases removable : s.removable r.sourceFilename with
    | true => simp [moved.gone removable]
    | false =>
      by_cases cache : r.sourceFilename = cacheTempSource
      · rw [moved.copy removable cache]
        simp [cache]
      · simp [moved.kept removable cache, cache]

/-! ## Concrete runs -/

def aside (L : Libs) : Request := { inPlace L (freshPatch (ascii "T")) with targetFilename := "/system/b".toList }

def roomEnd : Outcome Storage Answer Int :=
  applypatch storedLibs (aside storedLibs) blank inPlaceStart
    [{ blockSize := 4096, count := 1000 }, {}, { count := 1 }, {}, {}, {}, {}]
def lowEnd : Outcome Storage Answer Int :=
  applypatch storedLibs (aside storedLibs) blank inPlaceStart
    [{}, { blockSize := 4096, count := 1000 }, {}, { count := 1 }, {}, {}, {}, {}, {}, {}, { count := 1 }, {}, {}, {}, {}, {}]

theorem source_kept_iff_with_room :
    roomEnd.value = some 0 ∧
      (roomEnd.state.files (aside storedLibs).sourceFilename).map Node.data = some (cleanFile (ascii "S")).data := by
  have returned : roomEnd.value = some 0 := by decide +kernel
  have found : inPlaceStart.files (aside storedLibs).sourceFilename = some (cleanFile (ascii "S")) := by decide +kernel
  refine ⟨returned, ?_⟩
  unfold roomEnd at returned ⊢
  refine (source_kept_iff storedLibs (aside storedLibs) blank inPlaceStart _ (by decide +kernel) (by decide +kernel)
    found returned).mpr (.inr ⟨by decide +kernel, .inr (.inl (by decide +kernel))⟩)

/-- Without room the source is moved to the cache, and the copy is deleted at the end. -/
theorem source_lost_without_room :
    (aside storedLibs).target ≠ (aside storedLibs).sourceFilename ∧
      inPlaceStart.files (aside storedLibs).sourceFilename = some (cleanFile (ascii "S")) ∧ lowEnd.value = some 0 ∧
      lowEnd.state.files (aside storedLibs).sourceFilename = none ∧ lowEnd.state.files cacheTempSource = none := by
  decide +kernel

end Recovery.SourceFate
