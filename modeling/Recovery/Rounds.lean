import Recovery.Saving

/-!
The loop of `GenerateTarget` for a file target, seen from outside: what holds at
its start is kept while the output is made; when the source is moved away the copy
holds it; and the target is replaced in one step.
-/
namespace Recovery.Rounds
open Memory Program Program.Prog Storage Load FreeCache
open Imgpatch PatchStreams PatchHash Applypatch Holding Saving

variable {L : Libs}

/-! ## The output -/

def Torn (data part : Bytes) : Prop := ∃ n < data.length, part = data.take n

private theorem fileSink_cut {path : Path} {data part : Bytes} (cut : Cut (fileSink path) data part) : Torn data part := by
  obtain ⟨s,as,n,returned,less,rfl⟩ := cut
  obtain ⟨m,total,-,-⟩ := fileSinkLoop_stored (show (fileSinkLoop path _ data 0 s as).value = some n from returned)
  exact ⟨n.toNat,by omega,rfl⟩
theorem memorySink_cut {size : Nat} {data part : Bytes} (cut : Cut (memorySink size) data part) : part = [] := by
  obtain ⟨buffer,as,n,returned,less,rfl⟩ := cut
  by_cases full : (size : Int) - buffer.length < data.length
  · simp only [memorySink,bind_run,get_run,next,full,↓reduceIte,pure_run,Option.some.injEq] at returned
    simp [← returned]
  · simp only [memorySink,bind_run,get_run,next,full,↓reduceIte,modify_run,pure_run,Option.some.injEq] at returned
    omega

/-- New data that a choice can make while its hash context gets these bytes. -/
def Makes (L : Libs) (choice : Choice) (bonus : Option Value) (ctx new : Bytes) : Prop :=
  ∃ data format outputs codes, choice.file.data = some data ∧ patchFormat choice.patch.data = some format ∧
    formatOutputs L format data choice.patch.data bonus = some outputs ∧ Feeds Torn outputs codes ctx new

def Made (L : Libs) (choice : Choice) (bonus : Option Value) (ctx : Bytes) (node : Node) : Prop :=
  node.regular = true ∧ node.fault = none ∧ node.dirty = false ∧ Makes L choice bonus ctx node.data

private theorem applyFormat_keeps {σ A : Type} {R : σ → σ → Prop} [IsPreorder σ R]
    {sink : Sink σ A} (calls : ∀ data, Keeps R (sink.call data)) (format : PatchFormat) (data patch : Bytes)
    (bonus : Option Value) : Keeps R (applyFormat L format data patch bonus sink) := by
  cases format with
  | bsdiff => exact applyBSDiffPatch_keeps calls _ _ _ _
  | imgdiff => exact applyImagePatch_keeps calls _ _ _ _

variable {P : Storage → Prop} {choice : Choice} {target : Path} {bonus : Option Value}

private theorem applyFormat_spec (stable : StableAt (outname target) P) {data : Bytes} {format : PatchFormat}
    (loaded : choice.file.data = some data) (known : patchFormat choice.patch.data = some format) :
    Triple (fun s => P s ∧ FileIs (outname target) (Ready []) s)
      (applyFormat L format data choice.patch.data bonus (fileSink (outname target)))
      (fun result s => P s ∧ FileIs (outname target) (fun node => node.regular = true ∧ node.fault = none ∧
        (result.1 = 0 → Makes L choice bonus result.2 node.data)) s) P := by
  have writes : Keeps (OnlyWrites (outname target))
      (applyFormat L format data choice.patch.data bonus (fileSink (outname target))) :=
    applyFormat_keeps fileSink_onlyWrites format data choice.patch.data bonus
  refine triple_conseq (triple_value (onlyWrites_spec stable writes)
    (S := fun result s => result.1 = 0 → Makes L choice bonus result.2 (stored (outname target) s)) ?_)
    (fun _ both => both) ?_ fun _ holds => holds
  · rintro s as ⟨code,ctx⟩ both returned rfl
    obtain ⟨outputs,new,outs,feeds,store⟩ := applyFormat_feeds returned
    have emptied : (fileSink (outname target)).stored s = [] := stored_ready both.2
    rw [emptied,List.nil_append] at store
    have torn := feeds_mono feeds fun _ _ => fileSink_cut
    rw [← store] at torn
    exact ⟨data,format,outputs,_,loaded,known,outs,torn⟩
  · rintro result s ⟨⟨holds,node,found,regular,fault⟩,makes⟩
    refine ⟨holds,node,found,regular,fault,fun zero => ?_⟩
    simpa [stored,found] using makes zero

/-- How a round ends: with the output, or with another round only if there is one. -/
def RoundOf (L : Libs) (choice : Choice) (target : Path) (bonus : Option Value) (retry : Nat) (madeCopy : Bool)
    (s : Storage) : RoundEnd → Prop
  | .fail => True
  | .done copied ctx => copied = madeCopy ∧ FileIs (outname target) (Made L choice bonus ctx) s
  | .again copied _ => copied = madeCopy ∧ retry ≠ 0

theorem applyRound_spec (stable : StableAt (outname target) P) (retry : Nat) (madeCopy : Bool) :
    Triple P (applyRound L choice target bonus retry madeCopy)
      (fun e s => P s ∧ RoundOf L choice target bonus retry madeCopy s e) P := by
  have failed : ∀ {B : Storage → Prop}, (∀ s, B s → P s) → Triple B (pure .fail : Op RoundEnd)
      (fun e s => P s ∧ RoundOf L choice target bonus retry madeCopy s e) P :=
    fun weaken => triple_pure _ fun s holds => ⟨weaken s holds,trivial⟩
  refine triple_ite (fun _ => failed fun _ holds => holds) fun _ => ?_
  refine triple_bind (openTrunc_spec stable) fun opened => triple_ite (fun _ => failed fun _ both => both.1) fun ok => ?_
  rw [not_not] at ok
  cases known : patchFormat choice.patch.data with
  | none => exact failed fun _ both => both.1
  | some format =>
    cases loaded : choice.file.data with
    | none => exact triple_stuck fun _ both => both.1
    | some data =>
      dsimp only [need]
      rw [pure_bind]
      refine triple_bind (triple_pre (applyFormat_spec stable loaded known) fun s both => ⟨both.1,both.2 ok⟩) ?_
      rintro ⟨code,ctx⟩
      refine triple_bind (fsync_spec stable fun _ fine => fine) fun _ => triple_ite (fun bad => ?_) fun good => ?_
      · refine triple_ite (fun _ => failed fun _ both => both.1) fun more => ?_
        refine triple_bind (triple_pre (triple_keeps (unlink_frame rfl) stable) fun _ both => both.1) fun _ => ?_
        exact triple_pure _ fun s holds => ⟨holds,rfl,more⟩
      · rw [not_not] at good
        refine triple_pure _ ?_
        rintro s ⟨holds,node,found,⟨regular,fault,makes⟩,clean⟩
        exact ⟨holds,rfl,node,found,regular,fault,clean,makes good⟩

/-! ## The loop -/

/-- What is known before the output is made (`Base`) and once the source was moved to
    the cache (`Copied`), and that neither is disturbed on the way. -/
structure Setting (r : Request) (choice : Choice) (fromSource : Bool) (data : Bytes) (Base Copied : Storage → Prop) :
    Prop where
  loaded : choice.file.data = some data
  baseOut : StableAt (outname r.target) Base
  copiedOut : StableAt (outname r.target) Copied
  baseCache : fromSource = true → StableAt cacheTempSource Base
  baseDeletes : fromSource = true → ∀ s path, Deletable path → s.removable path = true → Base s →
    Base (s.setFile path none)
  moved : fromSource = true → isPartition r.sourceFilename = false → ∀ s, Base s → Saved cacheTempSource data s →
    Copied (if s.removable r.sourceFilename then s.setFile r.sourceFilename none else s)

/-- How a round ends: without the source moved, or with it. -/
inductive RoundLeaves (L : Libs) (r : Request) (choice : Choice) (fromSource : Bool) (Base Copied : Storage → Prop)
    (retry : Nat) (s : Storage) : RoundEnd → Prop where
  | fail (kept : Base s ∨ Copied s) : RoundLeaves L r choice fromSource Base Copied retry s .fail
  | plain {ctx : ShaCtx} (kept : Base s) (made : FileIs (outname r.target) (Made L choice r.bonusData ctx) s)
      (room : fromSource = true → retry ≠ 0) : RoundLeaves L r choice fromSource Base Copied retry s (.done false ctx)
  | moved {ctx : ShaCtx} (kept : Copied s) (made : FileIs (outname r.target) (Made L choice r.bonusData ctx) s)
      (source : fromSource = true) : RoundLeaves L r choice fromSource Base Copied retry s (.done true ctx)
  | again {ctx : ShaCtx} (kept : Base s) (more : retry ≠ 0) :
      RoundLeaves L r choice fromSource Base Copied retry s (.again false ctx)

variable {r : Request} {fromSource : Bool} {data : Bytes} {Base Copied : Storage → Prop} {fs : Path}

variable {P : Storage → Prop}

theorem freeSpaceForFile_keeps (path : Path) : Triple P (freeSpaceForFile path) (fun _ => P) P :=
  triple_bind triple_asking fun _ => triple_pure _ fun _ holds => holds

theorem fileRound_spec (setting : Setting r choice fromSource data Base Copied) (retry : Nat) :
    Triple Base (fileRound L r fs choice fromSource retry false)
      (fun e s => RoundLeaves L r choice fromSource Base Copied retry s e) (fun s => Base s ∨ Copied s) := by
  have failed : ∀ {B : Storage → Prop}, (∀ s, B s → Base s ∨ Copied s) → Triple B (pure .fail : Op RoundEnd)
      (fun e s => RoundLeaves L r choice fromSource Base Copied retry s e) (fun s => Base s ∨ Copied s) :=
    fun weaken => triple_pure _ fun s holds => .fail (weaken s holds)
  have space : Triple Base (enoughSpace fs r.targetSize retry)
      (fun enough s => Base s ∧ (enough = true → retry ≠ 0)) (fun s => Base s ∨ Copied s) := by
    refine triple_ite (fun more => ?_) fun _ => triple_pure _ fun s holds => ⟨holds,by simp⟩
    refine triple_bind (triple_conseq (freeSpaceForFile_keeps fs) (fun _ holds => holds) (fun _ _ holds => holds)
      fun _ holds => .inl holds) fun _ => triple_pure _ fun s holds => ⟨holds,fun _ => by omega⟩
  refine triple_bind space fun enough => ?_
  refine triple_ite (fun low => ?_) fun plenty => ?_
  · obtain ⟨low,source⟩ := low
    refine triple_ite (fun _ => failed fun _ both => .inl both.1) fun plain => ?_
    refine triple_bind (triple_conseq (backUp_spec (setting.baseCache source) (setting.baseDeletes source) choice.file)
      (fun _ both => both.1) (fun _ _ both => both) fun _ holds => .inl holds) fun ok =>
      triple_ite (fun _ => failed fun _ both => .inl both.1) fun saved => ?_
    rw [not_not] at saved
    rw [setting.loaded,Option.getD_some]
    have unlinked : Triple (fun s => Base s ∧ (ok = true → Saved cacheTempSource data s)) (unlink r.sourceFilename)
        (fun _ => Copied) (fun s => Base s ∨ Copied s) := by
      refine triple_ask_bind (fun _ both => .inl both.1) fun _ => triple_modify ?_
      exact fun s both => setting.moved source (by simpa using plain) s both.1 (both.2 saved)
    refine triple_bind unlinked fun _ => triple_bind (triple_conseq (freeSpaceForFile_keeps fs) (fun _ holds => holds)
      (fun _ _ holds => holds) fun _ holds => .inr holds) fun _ => ?_
    refine triple_conseq (applyRound_spec setting.copiedOut _ true) (fun _ holds => holds) ?_ fun _ holds => .inr holds
    rintro e s ⟨kept,leaves⟩
    match e with
    | .fail => exact .fail (.inr kept)
    | .done copied ctx =>
      obtain ⟨rfl,made⟩ := leaves
      exact .moved kept made source
    | .again copied ctx =>
      obtain ⟨-,more⟩ := leaves
      simp [low] at more
  · refine triple_assume fun s₀ first => triple_conseq (applyRound_spec setting.baseOut _ false)
      (by rintro s rfl; exact first.1) ?_ fun _ holds => .inl holds
    rintro e s ⟨kept,leaves⟩
    match e with
    | .fail => exact .fail (.inl kept)
    | .done copied ctx =>
      obtain ⟨rfl,made⟩ := leaves
      refine .plain kept made fun source => first.2 ?_
      by_contra low
      exact plenty ⟨low,source⟩
    | .again copied ctx =>
      obtain ⟨rfl,more⟩ := leaves
      refine .again kept (first.2 ?_)
      by_contra low
      simp [low] at more

/-! ## Replacing the target -/

/-- What is known when the output is made, with the source moved or not. -/
def Before (Base Copied : Storage → Prop) (moved : Bool) : Storage → Prop := if moved then Copied else Base

/-- What the rename and the end of the run leave. -/
structure Ending (L : Libs) (r : Request) (targetSha1 : Bytes) (choice : Choice) (Base Copied : Storage → Prop)
    (After Final : Bool → Storage → Prop) : Prop where
  renamed : ∀ moved s node ctx, Before Base Copied moved s → s.files (outname r.target) = some node →
    Made L choice r.bonusData ctx node → L.sha1 ctx = targetSha1 →
    After moved ((s.setFile (outname r.target) none).setFile r.target (some node))
  finished : ∀ s, After false s → Final false s
  unlinked : ∀ s, After true s → Final true (if s.removable cacheTempSource then s.setFile cacheTempSource none else s)

variable {targetSha1 : Bytes} {After Final : Bool → Storage → Prop}

theorem setting_before (setting : Setting r choice fromSource data Base Copied) (moved : Bool) :
    StableAt (outname r.target) (Before Base Copied moved) := by
  cases moved with
  | false => exact setting.baseOut
  | true => exact setting.copiedOut

private theorem rename_spec {path new : Path} {good : Node → Prop} {Q : Storage → Prop}
    (moves : ∀ s node, P s → s.files path = some node → good node → Q ((s.setFile path none).setFile new (some node))) :
    Triple (fun s => P s ∧ FileIs path good s) (rename path new) (fun ok s => if ok then Q s else P s) P := by
  refine triple_ask_bind (fun _ both => both.1) fun answer =>
    triple_onFile fun s both => ?_
  obtain ⟨holds,node,found,fine⟩ := both
  rw [found]
  refine triple_ite (fun _ => triple_bind (triple_modify (Q := fun _ => Q) ?_) fun _ =>
    triple_pure _ fun _ after => by simpa using after) fun _ => triple_pure _ ?_
  · rintro t rfl
    exact moves t node holds found fine
  · rintro t rfl
    simpa using holds

theorem replaceTarget_spec {moved : Bool} (stable : StableAt (outname r.target) (Before Base Copied moved))
    (ending : Ending L r targetSha1 choice Base Copied After Final) (ctx : ShaCtx) :
    Triple (fun s => Before Base Copied moved s ∧ FileIs (outname r.target) (Made L choice r.bonusData ctx) s)
      (replaceTarget L r targetSha1 choice moved ctx)
      (fun code s => if code = 0 then Final moved s else Before Base Copied moved s)
      (fun s => Before Base Copied moved s ∨ (moved = true ∧ After true s)) := by
  have failed : ∀ {B : Storage → Prop}, (∀ s, B s → Before Base Copied moved s) → Triple B (pure 1 : Op Int)
      (fun code s => if code = 0 then Final moved s else Before Base Copied moved s)
      (fun s => Before Base Copied moved s ∨ (moved = true ∧ After true s)) :=
    fun weaken => triple_pure _ fun s holds => by simpa using weaken s holds
  have early {α : Type} {p : Op α} {A : Storage → Prop} {Q : α → Storage → Prop}
      (body : Triple A p Q (Before Base Copied moved)) :
      Triple A p Q (fun s => Before Base Copied moved s ∨ (moved = true ∧ After true s)) :=
    triple_conseq body (fun _ holds => holds) (fun _ _ holds => holds) fun _ holds => .inl holds
  refine triple_ite (fun _ => failed fun _ both => both.1) fun hash => ?_
  rw [not_not] at hash
  refine triple_bind (early (setStat_spec stable (fun _ _ made => made) _)) fun _ =>
    triple_ite (fun _ => failed fun _ both => both.1) fun _ => ?_
  refine triple_bind (early (setStat_spec stable (fun _ _ made => made) _)) fun _ =>
    triple_ite (fun _ => failed fun _ both => both.1) fun _ => ?_
  refine triple_bind (early (rename_spec (Q := After moved) fun s node before found made =>
    ending.renamed moved s node ctx before found made hash)) fun ok => triple_ite (fun bad => ?_) fun good => ?_
  · exact failed fun s after => by simpa [show ok = false by simpa using bad] using after
  rw [not_not] at good
  subst good
  cases moved with
  | false => exact triple_pure _ fun s after => by simpa using ending.finished s after
  | true =>
    refine triple_bind (triple_bind (triple_ask (Q := fun _ => After true) (fun _ _ after => by simpa using after)
      fun _ after => .inr ⟨rfl,by simpa using after⟩) fun _ => triple_modify (Q := fun _ => Final true) ?_) fun _ =>
      triple_pure _ fun s final => by simpa using final
    exact fun s after => ending.unlinked s after

theorem roundLeaves_done {retry : Nat} {s : Storage} {moved : Bool} {ctx : ShaCtx}
    (leaves : RoundLeaves L r choice fromSource Base Copied retry s (.done moved ctx)) :
    Before Base Copied moved s ∧ FileIs (outname r.target) (Made L choice r.bonusData ctx) s := by
  cases leaves with
  | plain kept made _ => exact ⟨kept,made⟩
  | moved kept made _ => exact ⟨kept,made⟩
theorem before_or {moved : Bool} {s : Storage} (before : Before Base Copied moved s) : Base s ∨ Copied s := by
  cases moved with
  | false => exact .inl before
  | true => exact .inr before

theorem fileLoop_spec (setting : Setting r choice fromSource data Base Copied)
    (ending : Ending L r targetSha1 choice Base Copied After Final) (retry : Nat) :
    Triple Base (fileLoop L r fs targetSha1 choice fromSource retry false)
      (fun code s => if code = 0 then ∃ moved, Final moved s else Base s ∨ Copied s)
      (fun s => (Base s ∨ Copied s) ∨ After true s) := by
  have fail (retry : Nat) : Triple (fun s => RoundLeaves L r choice fromSource Base Copied retry s .fail)
      (pure 1 : Op Int) (fun code s => if code = 0 then ∃ moved, Final moved s else Base s ∨ Copied s)
      (fun s => (Base s ∨ Copied s) ∨ After true s) := by
    refine triple_pure _ fun s leaves => ?_
    cases leaves with
    | fail kept => simpa using kept
  have done (retry : Nat) (moved : Bool) (ctx : ShaCtx) :
      Triple (fun s => RoundLeaves L r choice fromSource Base Copied retry s (.done moved ctx))
        (replaceTarget L r targetSha1 choice moved ctx)
        (fun code s => if code = 0 then ∃ moved, Final moved s else Base s ∨ Copied s)
        (fun s => (Base s ∨ Copied s) ∨ After true s) := by
    refine triple_conseq (replaceTarget_spec (setting_before setting moved) ending ctx) (fun _ leaves => roundLeaves_done leaves) ?_ ?_
    · intro code s final
      split at final
      · rename_i zero; rw [if_pos zero]; exact ⟨moved,final⟩
      · rename_i bad; simpa [bad] using before_or final
    · rintro s (before | ⟨-,renamed⟩)
      · exact .inl (before_or before)
      · exact .inr renamed
  have round (retry : Nat) : Triple Base (fileRound L r fs choice fromSource retry false)
      (fun e s => RoundLeaves L r choice fromSource Base Copied retry s e)
      (fun s => (Base s ∨ Copied s) ∨ After true s) :=
    triple_conseq (fileRound_spec setting retry) (fun _ holds => holds) (fun _ _ leaves => leaves) fun _ kept => .inl kept
  induction retry with
  | zero =>
    refine triple_bind (round 0) fun e => ?_
    match e with
    | .fail => exact fail 0
    | .done moved ctx => exact done 0 moved ctx
    | .again moved ctx =>
      refine triple_assume fun s leaves => ?_
      cases leaves with
      | again kept more => exact absurd rfl more
  | succ retry ih =>
    refine triple_bind (round (retry + 1)) fun e => ?_
    match e with
    | .fail => exact fail (retry + 1)
    | .done moved ctx => exact done (retry + 1) moved ctx
    | .again moved ctx =>
      refine triple_assume fun s leaves => ?_
      cases leaves with
      | again kept more => exact triple_pre ih (by rintro t rfl; exact kept)

theorem fileRound_plain (stable : StableAt (outname r.target) P) (retry : Nat) :
    Triple P (fileRound L r fs choice true retry false)
      (fun e s => ∀ ctx, e = .done false ctx → P s ∧ FileIs (outname r.target) (Made L choice r.bonusData ctx) s)
      (fun _ => True) := by
  have failed : ∀ {B : Storage → Prop}, Triple B (pure .fail : Op RoundEnd)
      (fun e s => ∀ ctx, e = .done false ctx → P s ∧ FileIs (outname r.target) (Made L choice r.bonusData ctx) s)
      (fun _ => True) := triple_pure _ fun s _ ctx equal => by cases equal
  have space : Triple P (enoughSpace fs r.targetSize retry) (fun _ => P) (fun _ => True) :=
    triple_ite (fun _ => triple_bind (triple_conseq (freeSpaceForFile_keeps fs) (fun _ holds => holds)
      (fun _ _ holds => holds) fun _ _ => trivial) fun _ => triple_pure _ fun _ holds => holds)
      fun _ => triple_pure _ fun _ holds => holds
  have whatever {α : Type} {p : Op α} {B : Storage → Prop} : Triple B p (fun _ _ => True) (fun _ => True) :=
    fun _ _ _ => ⟨fun _ _ => trivial,fun _ => trivial⟩
  refine triple_bind space fun enough => ?_
  refine triple_ite (fun _ => triple_ite (fun _ => failed) fun _ => ?_) fun _ => ?_
  · refine triple_bind whatever fun saved => triple_ite (fun _ => failed) fun _ =>
      triple_bind whatever fun _ => triple_bind whatever fun _ => ?_
    refine triple_conseq (applyRound_spec (P := fun _ => True) (fun _ _ _ _ => trivial) _ true)
      (fun _ holds => holds) ?_ fun _ _ => trivial
    rintro e s ⟨-,leaves⟩ ctx rfl
    cases leaves.1
  · refine triple_conseq (applyRound_spec stable _ false) (fun _ holds => holds) ?_ fun _ _ => trivial
    rintro e s ⟨kept,leaves⟩ ctx rfl
    exact ⟨kept,leaves.2⟩

theorem fileLoop_first (setting : Setting r choice true data Base Copied)
    (ending : Ending L r targetSha1 choice Base Copied After Final) {s : Storage} {as : List Answer} (base : Base s)
    (returned : (fileLoop L r fs targetSha1 choice true 1 false s as).value = some 0) :
    ((∃ ctx, (fileRound L r fs choice true 1 false s as).value = some (.done false ctx)) ∧
      Final false (fileLoop L r fs targetSha1 choice true 1 false s as).state) ∨
    ((∀ ctx, (fileRound L r fs choice true 1 false s as).value ≠ some (.done false ctx)) ∧
      Final true (fileLoop L r fs targetSha1 choice true 1 false s as).state) := by
  have done (retry : Nat) (moved : Bool) (ctx : ShaCtx) {s : Storage} {as : List Answer}
      (leaves : RoundLeaves L r choice true Base Copied retry s (.done moved ctx))
      (returned : (replaceTarget L r targetSha1 choice moved ctx s as).value = some 0) :
      Final moved (replaceTarget L r targetSha1 choice moved ctx s as).state := by
    simpa using (replaceTarget_spec (setting_before setting moved) ending ctx s as (roundLeaves_done leaves)).1 0 returned
  unfold fileLoop at returned ⊢
  obtain ⟨e,first,rest⟩ := bind_returns returned
  have leaves := (fileRound_spec setting 1 s as base).1 e first
  rw [rest] at returned ⊢
  match e with
  | .fail => simp [pure_run] at returned
  | .done false ctx => exact .inl ⟨⟨ctx,first⟩,done 1 false ctx leaves returned⟩
  | .done true ctx => exact .inr ⟨by simp [first],done 1 true ctx leaves returned⟩
  | .again moved ctx =>
    cases leaves with
    | again kept more =>
      refine .inr ⟨by simp [first],?_⟩
      dsimp only at returned ⊢
      unfold fileLoop at returned ⊢
      obtain ⟨e,second,rest⟩ := bind_returns returned
      have leaves := (fileRound_spec setting 0 _ _ kept).1 e second
      rw [rest] at returned ⊢
      match e with
      | .fail => simp [pure_run] at returned
      | .done false ctx =>
        cases leaves with
        | plain _ _ room => exact absurd rfl (room rfl)
      | .done true ctx => exact done 0 true ctx leaves returned
      | .again _ ctx =>
        cases leaves with
        | again _ more => exact absurd rfl more

end Recovery.Rounds
