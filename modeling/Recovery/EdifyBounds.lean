import Recovery.EdifyPrinting

/-!
Which of its arguments a function reads. The grammar lets a script call a function with any
number of arguments, so a function must look at that number before it reads `argv[k]`.
-/
namespace Recovery.EdifyBounds
open Memory Program Program.Prog Edify Updater EdifyParser List
open EdifyPrinting

variable (sha1 : Bytes → Bytes)

/-- The number of arguments that a function reads without having looked. -/
def unchecked : Function → Nat
  | .SleepFn | .ApplyPatchSpaceFn => 1
  | .SubstringFn | .FileGetPropFn | .WriteRawImageFn => 2
  | _ => 0
def Enough (fn : Function) (argc : Nat) : Prop := unchecked fn ≤ argc
  deriving Decidable

def AllEnough (events : List Event) : Prop := ∀ fn argc, .enter fn argc ∈ events → Enough fn argc
def InRange (events : List Event) : Prop := ∀ k argc, .read k argc ∈ events → k < argc

/-- Under a condition, what was done since is in range if all calls have enough arguments. -/
def Within (c : Prop) (s t : Session) : Prop :=
  ∃ new, t.events = s.events ++ new ∧ (c → AllEnough new → InRange new)

section Relation
variable {c : Prop}

variable {t : Session}

theorem within_same {s : Session} (same : t.events = s.events) : Within c s t :=
  ⟨[],by simp [same],fun _ _ => by simp [InRange]⟩
private theorem within_trans {s u : Session} (first : Within c s t) (second : Within c t u) : Within c s u := by
  obtain ⟨new,events,range⟩ := first
  obtain ⟨more,events',range'⟩ := second
  refine ⟨new ++ more,by rw [events',events,append_assoc],fun holds enough => ?_⟩
  have left := range holds fun fn argc member => enough fn argc (by simp [member])
  have right := range' holds fun fn argc member => enough fn argc (by simp [member])
  intro k argc member
  rcases mem_append.mp member with old | new
  · exact left k argc old
  · exact right k argc new
instance : IsPreorder Session (Within c) where
  refl _ := within_same rfl
  trans _ _ _ := within_trans
private theorem within_mono {s : Session} (within : Within True s t) : Within c s t := by
  obtain ⟨new,events,range⟩ := within
  exact ⟨new,events,fun _ => range trivial⟩

/-! ## Programs -/

/-- What a program reads is in range, under a condition. -/
def Bounds (c : Prop) {α : Type} (p : Run α) : Prop := Keeps (Within c) p

variable {α β : Type}

theorem bounds_pure (a : α) : Bounds c (pure a : Run α) := keeps_pure a
theorem bounds_bind {p : Run α} {k : α → Run β} (first : Bounds c p) (second : ∀ a, Bounds c (k a)) :
    Bounds c (p >>= k) := keeps_bind first second
theorem bounds_done {p : Run α} {f : α → β} (first : Bounds c p) : Bounds c (p >>= fun a => pure (f a)) :=
  bounds_bind first fun _ => bounds_pure _
theorem bounds_get : Bounds c (get : Run Session) := keeps_get
theorem bounds_modify {f : Session → Session} (same : ∀ s, (f s).events = s.events) :
    Bounds c (modify f : Run Unit) := keeps_modify fun s => within_same (same s)
private theorem bounds_ask : Bounds c (ask : Run Reply) := keeps_ask
theorem bounds_stuck : Bounds c (stuck : Run α) := keeps_stuck
theorem bounds_ite {d : Prop} [Decidable d] {p q : Run α} (yes : d → Bounds c p) (no : ¬ d → Bounds c q) :
    Bounds c (if d then p else q) := keeps_ite yes no
theorem bounds_option {k : Option α → Run β} (no : Bounds c (k none)) (yes : ∀ a, Bounds c (k (some a)))
    (o : Option α) : Bounds c (k o) := by
  cases o with
  | none => exact no
  | some a => exact yes a

theorem bounds_push {event : Event} (other : ∀ k argc, event = .read k argc → c → k < argc) :
    Bounds c (push event) := by
  refine keeps_modify fun s => ⟨[event],rfl,fun holds _ k argc member => ?_⟩
  exact other k argc (mem_singleton.mp member).symm holds
theorem bounds_act (action : Edify.Action) : Bounds c (act action) :=
  bounds_bind (bounds_push fun _ _ read => by cases read) fun _ => bounds_ask
theorem bounds_free (v : Value) : Bounds c (free v) := bounds_push fun _ _ read => by cases read
theorem bounds_freeAll (values : List Value) : Bounds c (freeAll values) := by
  induction values with
  | nil => exact bounds_pure ()
  | cons v rest ih => exact bounds_bind (bounds_free v) fun _ => ih
theorem bounds_setError (message : Bytes) : Bounds c (setError message) := bounds_modify fun _ => rfl
theorem bounds_error (message : Bytes) : Bounds c (ErrorAbort message) :=
  bounds_done (bounds_setError _)
theorem bounds_string (text : Bytes) : Bounds c (StringValue text) :=
  bounds_bind bounds_get fun _ => bounds_done (bounds_modify fun _ => rfl)
theorem bounds_truth (b : Bool) : Bounds c (truth b) := bounds_string _

/-! ## Arguments -/

section Arguments
variable {argv : Args} (args : ∀ run ∈ argv, Bounds True run)
include args

theorem argument_bounds {k : Nat} (low : c → k < argv.length) : Bounds c (argument argv k) := by
  refine bounds_bind (bounds_push ?_) fun _ => ?_
  · intro j argc read holds
    cases read
    exact low holds
  · cases found : argv[k]? with
    | none => exact bounds_bind (bounds_push fun _ _ read => by cases read) fun _ => bounds_stuck
    | some run => exact fun s as => within_mono (args run (mem_of_getElem? found) s as)
theorem evaluate_bounds {k : Nat} (low : c → k < argv.length) : Bounds c (Evaluate argv k) := by
  refine bounds_bind (argument_bounds args low) fun value => ?_
  cases value with
  | none => exact bounds_pure _
  | some v =>
    refine bounds_ite (fun _ => bounds_pure _) fun _ => ?_
    exact bounds_bind (bounds_error _) fun _ => bounds_done (bounds_free v)
omit args in
theorem readLoop_bounds {get : Nat → Run (Option Value)} (count k : Nat) (got : List Value)
    (each : ∀ j, j < k + count → Bounds c (get j)) : Bounds c (readLoop get count k got) := by
  induction count generalizing k got with
  | zero => exact bounds_pure _
  | succ count ih =>
    refine bounds_bind (each k (by omega)) fun value => ?_
    cases value with
    | none => exact bounds_done (bounds_freeAll got)
    | some v => exact ih (k + 1) _ fun j below => each j (by omega)
theorem readArgs_bounds {count : Nat} (low : c → count ≤ argv.length) : Bounds c (ReadArgs argv count) :=
  readLoop_bounds count 0 [] fun j below => evaluate_bounds args fun holds => by have := low holds; omega
private theorem readValueArgs_bounds {count : Nat} (low : c → count ≤ argv.length) : Bounds c (ReadValueArgs argv count) :=
  readLoop_bounds count 0 [] fun j below => argument_bounds args fun holds => by have := low holds; omega
theorem readVarArgs_bounds {k : Nat} (low : k ≤ argv.length) : Bounds c (ReadVarArgs argv k) :=
  readLoop_bounds _ k [] fun j below => evaluate_bounds args fun _ => by omega
theorem readValueVarArgs_bounds {k : Nat} (low : k ≤ argv.length) : Bounds c (ReadValueVarArgs argv k) :=
  readLoop_bounds _ k [] fun j below => argument_bounds args fun _ => by omega

/-! ## The builtin functions -/

private theorem concat_bounds : Bounds c (ConcatFn argv) := by
  refine bounds_ite (fun _ => bounds_string _) fun _ => ?_
  refine bounds_bind (readArgs_bounds args fun _ => le_rfl) ?_
  refine bounds_option (bounds_pure _) fun strings => ?_
  exact bounds_bind (bounds_string _) fun _ => bounds_done (bounds_freeAll _)
private theorem ifElse_bounds : Bounds c (IfElseFn argv) := by
  refine bounds_ite (fun _ => bounds_done (bounds_setError _)) fun count => ?_
  refine bounds_bind (evaluate_bounds args fun _ => by omega) ?_
  refine bounds_option (bounds_pure _) fun cond => ?_
  refine bounds_ite (fun _ => ?_) fun _ => bounds_ite (fun three => ?_) fun _ => bounds_pure _
  · exact bounds_bind (bounds_free _) fun _ => argument_bounds args fun _ => by omega
  · exact bounds_bind (bounds_free _) fun _ => argument_bounds args fun _ => by omega
private theorem abort_bounds : Bounds c (AbortFn argv) := by
  refine bounds_bind ?_ fun _ => bounds_done (bounds_setError _)
  exact bounds_ite (fun some => evaluate_bounds args fun _ => some) fun _ => bounds_pure _
private theorem assertLoop_bounds (count i : Nat) (rest : i + count = argv.length) : Bounds c (assertLoop argv count i) := by
  induction count generalizing i with
  | zero => exact bounds_string _
  | succ count ih =>
    refine bounds_bind (evaluate_bounds args fun _ => by omega) ?_
    refine bounds_option (bounds_pure _) fun v => bounds_bind (bounds_free v) fun _ => ?_
    refine bounds_ite (fun _ => ih (i + 1) (by omega)) fun _ => ?_
    exact bounds_done (bounds_setError _)
theorem sleep_bounds (enough : c → 1 ≤ argv.length) : Bounds c (SleepFn argv) := by
  refine bounds_bind (evaluate_bounds args enough) ?_
  exact bounds_option (bounds_pure _) fun v => bounds_done (bounds_act _)
theorem stdoutLoop_bounds (count i : Nat) (rest : i + count = argv.length) : Bounds c (stdoutLoop argv count i) := by
  induction count generalizing i with
  | zero => exact bounds_string _
  | succ count ih =>
    refine bounds_bind (evaluate_bounds args fun _ => by omega) ?_
    refine bounds_option (bounds_pure _) fun v => bounds_bind (bounds_act _) fun _ => ?_
    exact bounds_bind (bounds_free v) fun _ => ih (i + 1) (by omega)
theorem shortCircuit_bounds (goesOn : Bool) (two : c → 2 ≤ argv.length) : Bounds c (shortCircuit goesOn argv) := by
  refine bounds_bind (evaluate_bounds args fun holds => by have := two holds; omega) ?_
  refine bounds_option (bounds_pure _) fun left => bounds_ite (fun _ => ?_) fun _ => bounds_pure _
  exact bounds_bind (bounds_free _) fun _ => argument_bounds args two
theorem not_bounds (one : c → 1 ≤ argv.length) : Bounds c (LogicalNotFn argv) := by
  refine bounds_bind (evaluate_bounds args one) ?_
  exact bounds_option (bounds_pure _) fun v => bounds_bind (bounds_free v) fun _ => bounds_truth _
theorem compare_bounds (test : Bytes → Bytes → Bool) (two : c → 2 ≤ argv.length) : Bounds c (compareFn test argv) := by
  refine bounds_bind (evaluate_bounds args fun holds => by have := two holds; omega) ?_
  refine bounds_option (bounds_pure _) fun left => bounds_bind (evaluate_bounds args two) ?_
  refine bounds_option (bounds_done (bounds_free left)) fun right => ?_
  refine bounds_bind (bounds_truth _) fun _ => bounds_bind (bounds_free _) fun _ => ?_
  exact bounds_done (bounds_free _)
theorem sequence_bounds (two : c → 2 ≤ argv.length) : Bounds c (SequenceFn argv) := by
  refine bounds_bind (argument_bounds args fun holds => by have := two holds; omega) ?_
  exact bounds_option (bounds_pure _) fun left => bounds_bind (bounds_free left) fun _ => argument_bounds args two
theorem lessThan_bounds : Bounds c (LessThanIntFn argv) := by
  refine bounds_ite (fun _ => bounds_done (bounds_setError _)) fun two => ?_
  refine bounds_bind (readArgs_bounds args fun _ => by omega) fun values => ?_
  split
  · exact bounds_bind (bounds_free _) fun _ => bounds_bind (bounds_free _) fun _ => bounds_truth _
  · exact bounds_pure _
theorem greaterThan_bounds : Bounds c (GreaterThanIntFn argv) := by
  refine bounds_ite (fun _ => bounds_done (bounds_setError _)) fun two => ?_
  apply lessThan_bounds
  intro run member
  rcases mem_cons.mp member with rfl | last
  · exact argument_bounds args fun _ => by omega
  · obtain rfl := mem_singleton.mp last
    exact argument_bounds args fun _ => by omega

/-! ## The functions of the updater -/

omit args in
theorem work_bounds (fn : Function) (values : List Value) : Bounds c (work fn values) :=
  bounds_done (bounds_act _)
theorem readAndWork_bounds (fn : Function) {count : Nat} (low : c → count ≤ argv.length) :
    Bounds c (readAndWork fn argv count) := by
  refine bounds_bind (readArgs_bounds args low) ?_
  exact bounds_option (bounds_pure _) fun values => work_bounds fn values
theorem readAllAndWork_bounds (fn : Function) : Bounds c (readAllAndWork fn argv) := by
  refine bounds_bind (readVarArgs_bounds args (Nat.zero_le _)) ?_
  exact bounds_option (bounds_pure _) fun values => work_bounds fn values
theorem fixedArgs_bounds (fn : Function) (count : Nat) (what : String) (name : Bytes) :
    Bounds c (fixedArgs fn count what name argv) :=
  bounds_ite (fun _ => bounds_error _) fun same => readAndWork_bounds args fn fun _ => by omega
theorem extractFile_bounds (name : Bytes) : Bounds c (PackageExtractFileFn name argv) := by
  refine bounds_ite (fun _ => bounds_error _) fun count => bounds_ite (fun two => ?_) fun other => ?_
  · exact readAndWork_bounds args _ fun _ => by omega
  · exact readAndWork_bounds args _ fun _ => by omega
theorem setMetadata_bounds (name : Bytes) : Bounds c (SetMetadataFn name argv) :=
  bounds_ite (fun _ => bounds_error _) fun _ => readAllAndWork_bounds args _
theorem writeRawImage_bounds (two : c → 2 ≤ argv.length) : Bounds c (WriteRawImageFn argv) := by
  refine bounds_bind (readValueArgs_bounds args two) ?_
  exact bounds_option (bounds_pure _) fun values => work_bounds _ values
theorem collectBackup_bounds (name : Bytes) : Bounds c (CollectBackupDataFn name argv) :=
  bounds_ite (fun _ => bounds_error _) fun some => readAndWork_bounds args _ fun _ => by omega
theorem runProgram_bounds (name : Bytes) : Bounds c (RunProgramFn name argv) :=
  bounds_ite (fun _ => bounds_error _) fun _ => readAllAndWork_bounds args _
theorem getStage_bounds (name : Bytes) : Bounds c (GetStageFn name argv) :=
  bounds_ite (fun _ => bounds_error _) fun some => readAndWork_bounds args _ fun _ => by omega
omit args in
theorem wipeCache_bounds (name : Bytes) : Bounds c (WipeCacheFn name argv) :=
  bounds_ite (fun _ => bounds_error _) fun _ => work_bounds _ _

theorem deleteRead_bounds (count i : Nat) (paths : List Value) (rest : i + count = argv.length) :
    Bounds c (deleteRead argv count i paths) := by
  induction count generalizing i paths with
  | zero => exact bounds_pure _
  | succ count ih =>
    refine bounds_bind (evaluate_bounds args fun _ => by omega) ?_
    refine bounds_option ?_ fun path => ih (i + 1) _ (by omega)
    cases paths with
    | nil => exact bounds_pure _
    | cons first rest =>
      refine bounds_bind (bounds_free first) fun _ => bounds_bind (bounds_free first) fun _ => ?_
      exact bounds_bind (bounds_push fun _ _ read => by cases read) fun _ => bounds_stuck
omit args in
theorem deletePaths_bounds (recursive : Bool) (paths : List Value) (success : Nat) :
    Bounds c (deletePaths recursive paths success) := by
  induction paths generalizing success with
  | nil => exact bounds_string _
  | cons path rest ih => exact bounds_bind (bounds_act _) fun _ => bounds_bind (bounds_free path) fun _ => ih _
theorem delete_bounds (name : Bytes) : Bounds c (DeleteFn name argv) := by
  refine bounds_bind (deleteRead_bounds args _ 0 [] (by omega)) ?_
  exact bounds_option (bounds_pure _) fun paths => deletePaths_bounds _ paths 0
omit args in
theorem makeParents_bounds (fuel : Nat) (path : Bytes) : Bounds c (make_parents fuel path) := by
  induction fuel generalizing path with
  | zero => exact bounds_pure _
  | succ fuel ih =>
    rw [make_parents]
    split
    · exact bounds_pure _
    · refine bounds_bind (ih _) fun made => bounds_ite (fun _ => ?_) fun _ => bounds_pure _
      exact bounds_done (bounds_act _)
omit args in
theorem symlinkLoop_bounds (name target : Bytes) (srcs : List Value) (bad : Nat) :
    Bounds c (symlinkLoop name target srcs bad) := by
  induction srcs generalizing bad with
  | nil => exact bounds_ite (fun _ => bounds_error _) fun _ => bounds_string _
  | cons src rest ih =>
    refine bounds_bind (bounds_act _) fun _ => bounds_bind (makeParents_bounds _ _) fun _ => ?_
    exact bounds_bind (bounds_act _) fun _ => bounds_bind (bounds_free src) fun _ => ih _
theorem symlink_bounds (name : Bytes) : Bounds c (SymlinkFn name argv) := by
  refine bounds_ite (fun _ => bounds_error _) fun some => ?_
  refine bounds_bind (evaluate_bounds args fun _ => by omega) ?_
  refine bounds_option (bounds_pure _) fun target => bounds_bind (readVarArgs_bounds args (by omega)) ?_
  refine bounds_option (bounds_done (bounds_free target)) fun srcs => ?_
  exact symlinkLoop_bounds _ _ _ _
omit args in
theorem backedUp_bounds (path : Bytes) : Bounds c (backedUp path) := bounds_done bounds_get
omit args in
theorem applyPatches_bounds (name source target sum : Bytes) (size : Int) (patches : List Value) :
    Bounds c (applyPatches name source target sum size patches) := by
  rw [applyPatches]
  split
  · exact bounds_bind (bounds_error _) fun _ => bounds_done (bounds_freeAll _)
  · exact bounds_bind (bounds_act _) fun _ => bounds_bind (bounds_freeAll _) fun _ => bounds_truth _
theorem applyPatch_bounds (name : Bytes) (four : 4 ≤ argv.length) (source target sum size : Value) :
    Bounds c (applyPatch name argv source target sum size) := by
  refine bounds_bind (backedUp_bounds _) fun skip => bounds_ite (fun _ => ?_) fun _ => bounds_ite (fun _ => ?_) fun _ => ?_
  · exact bounds_bind (bounds_act _) fun _ => bounds_truth _
  · exact bounds_bind (bounds_error _) fun _ => bounds_done (bounds_freeAll _)
  · refine bounds_bind (readValueVarArgs_bounds args four) ?_
    refine bounds_option ?_ fun patches => applyPatches_bounds _ _ _ _ _ _
    exact bounds_bind (bounds_push fun _ _ read => by cases read) fun _ => bounds_stuck
theorem applyPatchFn_bounds (name : Bytes) : Bounds c (ApplyPatchFn name argv) := by
  refine bounds_ite (fun _ => bounds_error _) fun count => ?_
  refine bounds_bind (readArgs_bounds args fun _ => by omega) fun values => ?_
  split
  · exact applyPatch_bounds args name (by omega) _ _ _ _
  · exact bounds_pure _
omit args in
theorem checkResult_bounds (file : Bytes) (result : Int) : Bounds c (checkResult file result) := by
  refine bounds_bind bounds_get fun s => bounds_ite (fun _ => ?_) fun _ => bounds_pure _
  exact bounds_done (bounds_modify fun _ => rfl)
theorem applyPatchCheck_bounds (some : 1 ≤ argv.length) (file : Value) : Bounds c (applyPatchCheck argv file) := by
  refine bounds_bind (backedUp_bounds _) fun skip => bounds_ite (fun _ => bounds_truth _) fun _ => ?_
  refine bounds_bind (readVarArgs_bounds args some) fun sha1s => bounds_bind (bounds_act _) fun _ => ?_
  refine bounds_bind (checkResult_bounds _ _) fun result => ?_
  cases sha1s with
  | none => exact bounds_bind (bounds_push fun _ _ read => by cases read) fun _ => bounds_stuck
  | some sums => exact bounds_bind (bounds_freeAll sums) fun _ => bounds_truth _
theorem applyPatchCheckFn_bounds (name : Bytes) : Bounds c (ApplyPatchCheckFn name argv) := by
  refine bounds_ite (fun _ => bounds_error _) fun count => ?_
  refine bounds_bind (readArgs_bounds args fun _ => by omega) fun values => ?_
  split
  · exact applyPatchCheck_bounds args (by omega) _
  · exact bounds_pure _
omit args in
theorem sha1Loop_bounds (digest : Bytes) (values : List Value) : Bounds c (sha1Loop digest values) := by
  induction values with
  | nil => exact bounds_string _
  | cons v rest ih =>
    refine bounds_ite (fun _ => ?_) fun _ => bounds_bind (bounds_free v) fun _ => ih
    exact bounds_done (bounds_freeAll rest)
theorem sha1Check_bounds (name : Bytes) : Bounds c (Sha1CheckFn sha1 name argv) := by
  refine bounds_ite (fun _ => bounds_error _) fun _ => ?_
  refine bounds_bind (readValueVarArgs_bounds args (Nat.zero_le _)) fun values => ?_
  split
  · refine bounds_ite (fun _ => bounds_string _) fun _ => bounds_bind (bounds_free _) fun _ => ?_
    exact bounds_ite (fun _ => bounds_string _) fun _ => sha1Loop_bounds _ _
  · exact bounds_pure _

/-! ## Evaluation -/

omit args in
theorem entered_bounds {fn : Function} {argc : Nat} {p : Run α} (body : Bounds (Enough fn argc) p) :
    Bounds True (push (.enter fn argc) >>= fun _ => p) := by
  intro s as
  obtain ⟨new,events,range⟩ := body { s with events := s.events ++ [.enter fn argc] } as
  refine ⟨.enter fn argc :: new,by rw [push,bind_run,modify_run,next_some rfl,events]; simp,fun _ enough => ?_⟩
  have later := range (enough fn argc (by simp)) fun other n member => enough other n (by simp [member])
  intro k n member
  rcases mem_cons.mp member with read | old
  · cases read
  · exact later k n old
theorem callFunction_bounds (fn : Function) (name : Bytes) (arity : ∀ n ∈ fixedArity fn, argv.length = n) :
    Bounds True (callFunction sha1 fn name argv) := by
  refine entered_bounds ?_
  have two (fixed : fixedArity fn = some 2) : Enough fn argv.length → 2 ≤ argv.length :=
    fun _ => Nat.le_of_eq (arity 2 fixed).symm
  cases fn with
  | Literal => exact bounds_string _
  | ConcatFn => exact concat_bounds args
  | IfElseFn => exact ifElse_bounds args
  | AbortFn => exact abort_bounds args
  | AssertFn => exact assertLoop_bounds args _ 0 (by omega)
  | SleepFn => exact sleep_bounds args id
  | StdoutFn => exact stdoutLoop_bounds args _ 0 (by omega)
  | LogicalAndFn => exact shortCircuit_bounds args _ (two rfl)
  | LogicalOrFn => exact shortCircuit_bounds args _ (two rfl)
  | LogicalNotFn => exact not_bounds args fun _ => Nat.le_of_eq (arity 1 rfl).symm
  | SubstringFn => exact compare_bounds args _ id
  | EqualityFn => exact compare_bounds args _ (two rfl)
  | InequalityFn => exact compare_bounds args _ (two rfl)
  | SequenceFn => exact sequence_bounds args (two rfl)
  | LessThanIntFn => exact lessThan_bounds args
  | GreaterThanIntFn => exact greaterThan_bounds args
  | DeleteFn => exact delete_bounds args name
  | PackageExtractFileFn => exact extractFile_bounds args name
  | SymlinkFn => exact symlink_bounds args name
  | SetMetadataFn => exact setMetadata_bounds args name
  | FileGetPropFn => exact readAndWork_bounds args _ id
  | WriteRawImageFn => exact writeRawImage_bounds args id
  | ApplyPatchFn => exact applyPatchFn_bounds args name
  | ApplyPatchCheckFn => exact applyPatchCheckFn_bounds args name
  | ApplyPatchSpaceFn => exact readAndWork_bounds args _ id
  | Sha1CheckFn => exact sha1Check_bounds sha1 args name
  | WipeCacheFn => exact wipeCache_bounds name
  | UIPrintFn => exact readAllAndWork_bounds args _
  | RunProgramFn => exact runProgram_bounds args name
  | CollectBackupDataFn => exact collectBackup_bounds args name
  | GetStageFn => exact getStage_bounds args name
  | MountFn | IsMountedFn | UnmountFn | FormatFn | ShowProgressFn | SetProgressFn | PackageExtractDirFn | GetPropFn
  | ReadFileFn | RenameFn | RebootNowFn | SetStageFn => exact fixedArgs_bounds args _ _ _ name

end Arguments

end Relation

theorem evaluateArgs_map (argv : List Expr) : EvaluateArgs sha1 argv = argv.map (EvaluateValue sha1) := by
  induction argv with
  | nil => rfl
  | cons e rest ih => rw [EvaluateArgs,ih,map_cons]
theorem evaluateValue_bounds {e : Expr} (formed : WellFormed e) : Bounds True (EvaluateValue sha1 e) := by
  induction formed with
  | mk fn name argv arity _ ih =>
    rw [EvaluateValue,evaluateArgs_map]
    apply callFunction_bounds
    · intro run member
      obtain ⟨e,inside,rfl⟩ := mem_map.mp member
      exact ih e inside
    · simpa using arity

/-! ## Calls with too few arguments -/

theorem letter_short : (ascii "a").length < EdifyLexer.MAX_STRING_LEN := by decide
theorem letter_clean : 0 ∉ ascii "a" := by decide
def letter : Script := .literal ⟨ascii "a", letter_short, letter_clean⟩
/-- A call with `argc` literals reads beyond them. -/
def ReadsPast (f : Callee) (argc : Nat) : Prop :=
  ∀ (s : Session) (as : List Reply), ∃ new,
    (EvaluateValue sha1 (Script.call f (List.replicate argc letter)).tree s as).state.events = s.events ++ new ∧
      ¬ InRange new

theorem readsPast_none {f : Callee}
    (events : ∀ (s : Session) (as : List Reply), (EvaluateValue sha1 (.mk f.fn f.name []) s as).state.events =
      s.events ++ [.enter f.fn 0] ++ [.read 0 0] ++ [.wild]) : ReadsPast sha1 f 0 := by
  intro s as
  refine ⟨[.enter f.fn 0,.read 0 0,.wild],(events s as).trans (by simp),fun range => ?_⟩
  exact absurd (range 0 0 (by simp)) (by omega)
theorem readsPast_one {f : Callee}
    (events : ∀ (s : Session) (as : List Reply), (EvaluateValue sha1 (.mk f.fn f.name [letter.tree]) s as).state.events =
      s.events ++ [.enter f.fn 1] ++ [.read 0 1] ++ [.enter .Literal 0] ++ [.read 1 1] ++ [.wild]) :
    ReadsPast sha1 f 1 := by
  intro s as
  refine ⟨[.enter f.fn 1,.read 0 1,.enter .Literal 0,.read 1 1,.wild],(events s as).trans (by simp),
    fun range => ?_⟩
  exact absurd (range 1 1 (by simp)) (by omega)
theorem few_arguments_read_past {fn : Function} {argc : Nat} (few : ¬ Enough fn argc) :
    ∃ f : Callee, f.fn = fn ∧ ReadsPast sha1 f argc := by
  have low : argc < unchecked fn := by simpa [Enough] using few
  have short : argc = 0 ∨ argc = 1 := by
    have : unchecked fn ≤ 2 := by cases fn <;> decide
    omega
  cases fn with
  | SleepFn =>
    obtain rfl : argc = 0 := by simp [unchecked] at low; exact low
    exact ⟨⟨ascii "sleep",.SleepFn,by decide⟩,rfl,readsPast_none sha1 fun _ _ => rfl⟩
  | ApplyPatchSpaceFn =>
    obtain rfl : argc = 0 := by simp [unchecked] at low; exact low
    exact ⟨⟨ascii "apply_patch_space",.ApplyPatchSpaceFn,by decide⟩,rfl,readsPast_none sha1 fun _ _ => rfl⟩
  | SubstringFn =>
    refine ⟨⟨ascii "is_substring",.SubstringFn,by decide⟩,rfl,?_⟩
    rcases short with rfl | rfl
    · exact readsPast_none sha1 fun _ _ => rfl
    · exact readsPast_one sha1 fun _ _ => rfl
  | FileGetPropFn =>
    refine ⟨⟨ascii "file_getprop",.FileGetPropFn,by decide⟩,rfl,?_⟩
    rcases short with rfl | rfl
    · exact readsPast_none sha1 fun _ _ => rfl
    · exact readsPast_one sha1 fun _ _ => rfl
  | WriteRawImageFn =>
    refine ⟨⟨ascii "write_raw_image",.WriteRawImageFn,by decide⟩,rfl,?_⟩
    rcases short with rfl | rfl
    · exact readsPast_none sha1 fun _ _ => rfl
    · exact readsPast_one sha1 fun _ _ => rfl
  | _ => exact absurd low (Nat.not_lt_zero _)

/-- In every evaluation of a script that parses, all arguments that are read are there, if every
    call that is made has enough of them; and a call with too few of them can always be written. -/
theorem reads_in_range_if_enough :
    (∀ text root, parseScript text = some root → ∀ (s : Session) (as : List Reply), ∃ new,
      (EvaluateValue sha1 root s as).state.events = s.events ++ new ∧ (AllEnough new → InRange new)) ∧
    ∀ fn argc, ¬ Enough fn argc → ∃ text name argv, argv.length = argc ∧ parseScript text = some (.mk fn name argv) ∧
      ∀ (s : Session) (as : List Reply), ∃ new,
        (EvaluateValue sha1 (.mk fn name argv) s as).state.events = s.events ++ new ∧ ¬ InRange new := by
  constructor
  · intro text root parsed s as
    obtain ⟨new, events, range⟩ := evaluateValue_bounds sha1 (parseScript_wellFormed parsed) s as
    exact ⟨new, events, range trivial⟩
  intro fn argc few
  obtain ⟨f, rfl, past⟩ := few_arguments_read_past sha1 few
  have length (n : Nat) : (trees (List.replicate n letter)).length = n := by
    induction n with
    | zero => rfl
    | succ n ih => rw [replicate_succ, trees, length_cons, ih]
  exact ⟨_, f.name, trees (List.replicate argc letter), length argc,
    renders_parse (print_renders 0 (.call f (List.replicate argc letter))), past⟩
/-- The script `sleep("1")` has enough arguments, and reads what is there. -/
theorem sleep_one_in_range :
    parseScript (ascii "sleep(\"1\")") = some (.mk .SleepFn (ascii "sleep") [.mk .Literal (ascii "1") []]) ∧
      InRange [.enter .SleepFn 1, .read 0 1, .enter .Literal 0, .act (.sleep 1)] := by
  have parsed : parseScript (ascii "sleep(\"1\")") =
      some (.mk .SleepFn (ascii "sleep") [.mk .Literal (ascii "1") []]) := rfl
  obtain ⟨new, events, range⟩ :=
    (reads_in_range_if_enough fun data => data).1 _ _ parsed ⟨none, [], 0, []⟩ [⟨0, none⟩]
  have run : (EvaluateValue (fun data => data) (.mk .SleepFn (ascii "sleep") [.mk .Literal (ascii "1") []])
      ⟨none, [], 0, []⟩ [⟨0, none⟩]).state.events = [.enter .SleepFn 1, .read 0 1, .enter .Literal 0, .act (.sleep 1)] := by
    decide +kernel
  rw [run, nil_append] at events
  subst events
  refine ⟨parsed, range ?_⟩
  intro fn argc member
  simp only [mem_cons, Event.enter.injEq, reduceCtorEq, not_mem_nil, or_false, false_or] at member
  rcases member with ⟨rfl, rfl⟩ | ⟨rfl, rfl⟩ <;> decide
/-- The script `sleep()` reads an argument that is not there. -/
theorem sleep_reads_past :
    (parseScript (ascii "sleep()")).map (fun root => (EvaluateValue (fun data => data) root ⟨none, [], 0, []⟩ []).state) =
      some ⟨none, [.enter .SleepFn 0, .read 0 0, .wild], 0, []⟩ := by
  decide +kernel

end Recovery.EdifyBounds
