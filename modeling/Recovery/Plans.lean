import Recovery.Rounds

/-!
What `applypatch` decides before it changes anything, and when: it is done when the
target loads with the wanted hash, it works from the source when that holds listed
data, and from the copy otherwise.
-/
namespace Recovery.Plans
open Memory Program Program.Prog Storage Load FreeCache Option
open Imgpatch PatchStreams PatchHash Applypatch Holding Rounds

variable {L : Libs} {s : Storage} {r : Request} {junk : FileContents}

def patchOf (L : Libs) (r : Request) (data : Bytes) : Option Value :=
  (findMatchingPatch (L.sha1 data) r.sums).bind fun i => (r.patches[i]?).map Prod.snd

theorem patchOf_listed {data : Bytes} : (patchOf L r data).isSome ↔ Listed L r.sums data := by
  unfold patchOf Listed
  cases found : findMatchingPatch (L.sha1 data) r.sums with
  | none => simp
  | some i =>
    have inside : i < r.patches.length := by
      have := (List.findIdx?_eq_some_iff_findIdx_eq.mp found).1
      simpa [Request.sums] using this
    simp [inside]
theorem patchFor_loaded {file : FileContents} {d : Bytes} (data : file.data = some d) (hash : file.sha1 = L.sha1 d) :
    patchFor r file = patchOf L r d := by
  unfold patchFor patchOf
  rw [data,hash]
  cases findMatchingPatch (L.sha1 d) r.sums <;> rfl
private theorem patchFor_none {file : FileContents} (nothing : file.data = none) : patchFor r file = none := by
  simp [patchFor,nothing]

private theorem loadSource_data {file : FileContents} {code : Int} (first : loadFileContents L s r.target junk.freed = some (code, file))
    {code' : Int} {source : FileContents} (loaded : loadSource L s r file = some (code', source)) :
    (∃ d, loadedData L s r.sourceFilename = some d ∧ source.data = some d ∧ source.sha1 = L.sha1 d) ∨
    (loadedData L s r.sourceFilename = none ∧ source.data = none) := by
  have either {name : Path} {code : Int} {before out : FileContents}
      (found : loadFileContents L s name before = some (code,out)) :
      (∃ d, loadedData L s name = some d ∧ out.data = some d ∧ out.sha1 = L.sha1 d) ∨
      (loadedData L s name = none ∧ out.data = none) := by
    by_cases zero : code = 0
    · subst zero
      exact .inl (load_zero found)
    · obtain ⟨-,nothing,none'⟩ := load_nonzero found zero
      exact .inr ⟨none',nothing⟩
  unfold loadSource at loaded
  split at loaded
  · exact either loaded
  rename_i same
  rw [not_or,not_not] at same
  obtain ⟨-,rfl⟩ := Prod.mk.inj (some.inj loaded)
  rw [← same.2]
  exact either first

inductive Planned (L : Libs) (s : Storage) (r : Request) : Plan → Prop where
  | already {sha d : Bytes} (parsed : parseSha1 r.targetSha1Str = some sha) (loaded : loadedData L s r.target = some d)
      (hash : L.sha1 d = sha) : Planned L s r (.finished 0)
  | refused (code : Int) (bad : code ≠ 0) : Planned L s r (.finished code)
  | source {sha d : Bytes} {file : FileContents} {patch : Value} (parsed : parseSha1 r.targetSha1Str = some sha)
      (loaded : loadedData L s r.sourceFilename = some d) (data : file.data = some d) (listed : patchOf L r d = some patch) :
      Planned L s r (.generate sha file ⟨file, patch⟩ true)
  | copy {sha d : Bytes} {file copyFile : FileContents} {patch : Value} (parsed : parseSha1 r.targetSha1Str = some sha)
      (loaded : loadedData L s cacheTempSource = some d) (data : copyFile.data = some d)
      (listed : patchOf L r d = some patch) (gone : file.data = none)
      (bad : ¬ Holds L r.sums s r.sourceFilename) :
      Planned L s r (.generate sha file ⟨copyFile, patch⟩ false)

theorem plan_spec {p : Plan} (planned : plan L s r junk = some p) : Planned L s r p := by
  unfold plan at planned
  cases parsed : parseSha1 r.targetSha1Str with
  | none =>
    simp only [parsed,some.injEq] at planned
    subst planned
    exact .refused 1 (by decide)
  | some sha =>
    simp only [parsed] at planned
    obtain ⟨⟨code,file⟩,first,planned⟩ := bind_eq_some_iff.mp planned
    split at planned
    · rename_i already
      obtain ⟨rfl,hash⟩ := already
      obtain ⟨d,loaded,-,sha1⟩ := load_zero first
      cases planned
      exact .already parsed loaded (by rw [← sha1,hash])
    · obtain ⟨⟨code',source⟩,second,planned⟩ := bind_eq_some_iff.mp planned
      have origin := loadSource_data first second
      cases listed : patchFor r source with
      | some patch =>
        simp only [listed,some.injEq] at planned
        subst planned
        obtain ⟨d,loaded,data,hash⟩ | ⟨-,nothing⟩ := origin
        · exact .source parsed loaded data (by rw [← patchFor_loaded data hash,listed])
        · simp [patchFor_none nothing] at listed
      | none =>
        simp only [listed] at planned
        obtain ⟨⟨code'',copyFile⟩,third,planned⟩ := bind_eq_some_iff.mp planned
        split at planned
        · cases planned
          exact .refused 1 (by decide)
        rename_i fine
        have zero : code'' = 0 := by
          by_contra bad
          exact fine (load_nonzero third bad).1
        subst zero
        obtain ⟨d,loaded,data,hash⟩ := load_zero third
        cases copyListed : patchFor r copyFile with
        | none =>
          simp only [copyListed,some.injEq] at planned
          subst planned
          exact .refused 1 (by decide)
        | some patch =>
          simp only [copyListed,some.injEq] at planned
          subst planned
          refine .copy parsed loaded data (by rw [← patchFor_loaded data hash,copyListed]) rfl ?_
          rintro ⟨d',loaded',listed'⟩
          obtain ⟨d'',loaded'',data'',hash''⟩ | ⟨gone,-⟩ := origin
          · obtain rfl : d' = d'' := some.inj (loaded'.symm.trans loaded'')
            rw [patchFor_loaded data'' hash''] at listed
            rw [← patchOf_listed,listed] at listed'
            simp at listed'
          · rw [gone] at loaded'
            cases loaded'

theorem plan_already {sha d : Bytes} (parsed : parseSha1 r.targetSha1Str = some sha)
    (loaded : loadedData L s r.target = some d) (hash : L.sha1 d = sha) : plan L s r junk = some (.finished 0) := by
  obtain ⟨out,first,-,sha1⟩ := load_data loaded junk.freed
  simp [plan,parsed,first,sha1,hash]

theorem applypatch_runs (junk : FileContents) (s : Storage) (as : List Answer) :
    (∃ value, applypatch L r junk s as = ⟨value,s,as⟩ ∧ (value = some 0 → plan L s r junk = some (.finished 0))) ∨
    ∃ fs sha file choice fromSource, plan L s r junk = some (.generate sha file choice fromSource) ∧
      targetFs r.target = some fs ∧ applypatch L r junk s as =
        (if isPartition r.target then partitionTarget L r sha file choice
          else fileLoop L r fs sha choice fromSource 1 false) s as := by
  rw [applypatch,bind_run,get_run,next_some rfl,bind_run]
  cases planned : plan L s r junk with
  | none => exact .inl ⟨none,rfl,by simp⟩
  | some p =>
    cases p with
    | finished code => exact .inl ⟨some code,rfl,by simp⟩
    | generate sha file choice fromSource =>
      cases top : targetFs r.target with
      | none => exact .inl ⟨none,by simp [next,need,pure_run,generateTarget,top,bind_run,stuck_run],by simp⟩
      | some fs =>
        exact .inr ⟨fs,sha,file,choice,fromSource,rfl,rfl,by
          simp [next,need,pure_run,generateTarget,top,bind_run]⟩

end Recovery.Plans
