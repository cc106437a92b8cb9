import Recovery.Holding
import Recovery.PatchHash

/-!
What the writing steps of `applypatch` leave: the copy of the source on `/cache`,
the patched output, and whatever else is not touched.
-/
namespace Recovery.Saving
open Memory Program Program.Prog Storage Load FreeCache
open Imgpatch PatchStreams PatchHash Applypatch Holding

variable {L : Libs} {P : Storage → Prop} {path : Path}

def StableAt (path : Path) (P : Storage → Prop) : Prop :=
  ∀ s t, Frame (Eq path) (fun _ => False) s t → P s → P t

def FileIs (path : Path) (good : Node → Prop) (s : Storage) : Prop := ∃ node, s.files path = some node ∧ good node

def Ready (data : Bytes) (node : Node) : Prop := node.regular = true ∧ node.fault = none ∧ node.data = data

def Saved (path : Path) (data : Bytes) : Storage → Prop :=
  FileIs path fun node => Ready data node ∧ node.dirty = false

theorem stableAt_setFile (stable : StableAt path P) {s : Storage} (node : Option Node) (holds : P s) :
    P (s.setFile path node) := stable _ _ (setFile_frame rfl s node) holds
theorem fileIs_setFile {good : Node → Prop} {s : Storage} {node : Node} (fine : good node) :
    FileIs path good (s.setFile path (some node)) := ⟨node,setFile_same s path _,fine⟩

/-! ## One file -/

theorem triple_asking {P : Storage → Prop} : Triple P (ask : Op Answer) (fun _ => P) P :=
  triple_ask (fun _ _ holds => holds) fun _ holds => holds

theorem triple_onFile {α : Type} {Q : α → Storage → Prop} {C : Storage → Prop} {body : Storage → Op α}
    (each : ∀ s, P s → Triple (fun t => t = s) (body s) Q C) : Triple P (get >>= body) Q C := by
  refine triple_assume fun s holds => triple_bind (triple_get (Q := fun t u => t = s ∧ u = s) ?_) fun t => ?_
  · rintro u rfl; exact ⟨rfl,rfl⟩
  · exact triple_assume fun u both => by obtain ⟨rfl,rfl⟩ := both; exact each _ holds

theorem openTrunc_spec (stable : StableAt path P) :
    Triple P (openTrunc path) (fun ok s => P s ∧ (ok = true → FileIs path (Ready []) s)) P := by
  refine triple_bind triple_asking fun answer => triple_onFile fun s holds => ?_
  have done (node : Node) (ready : Ready [] node) :
      Triple (fun t => t = s) (do modify (·.setFile path (some node)); pure true : Op Bool)
        (fun ok s => P s ∧ (ok = true → FileIs path (Ready []) s)) P := by
    refine triple_bind (triple_modify (Q := fun _ t => P t ∧ FileIs path (Ready []) t) ?_) fun _ =>
      triple_pure _ fun _ both => ⟨both.1,fun _ => both.2⟩
    rintro t rfl
    exact ⟨stableAt_setFile stable _ holds,fileIs_setFile ready⟩
  have refused : Triple (fun t => t = s) (pure false : Op Bool)
      (fun ok s => P s ∧ (ok = true → FileIs path (Ready []) s)) P :=
    triple_pure _ (by rintro t rfl; exact ⟨holds,by simp⟩)
  cases s.files path with
  | none => exact triple_ite (fun _ => done created ⟨rfl,rfl,rfl⟩) fun _ => refused
  | some node =>
    refine triple_ite (fun both => done _ ⟨both.2,rfl,rfl⟩) fun _ => refused

/-- Writes to one file keep what kind of file it is. -/
structure OnlyWrites (path : Path) (s t : Storage) : Prop where
  frame : Frame (Eq path) (fun _ => False) s t
  kind : FileIs path (fun node => node.regular = true ∧ node.fault = none) s →
    FileIs path (fun node => node.regular = true ∧ node.fault = none) t

instance : IsPreorder Storage (OnlyWrites path) where
  refl s := ⟨refl s, id⟩
  trans _ _ _ first second := ⟨IsTrans.trans _ _ _ first.frame second.frame, fun kind => second.kind (first.kind kind)⟩
private theorem write_onlyWrites (data : Bytes) : Keeps (OnlyWrites path) (write path data) := by
  intro s as
  refine ⟨write_frame rfl data s as,?_⟩
  rintro ⟨node,found,kind⟩
  match as with
  | [] => exact ⟨node,found,kind⟩
  | answer :: rest =>
    cases ok : answer.ok with
    | true => rw [write_taken found ok]; exact fileIs_setFile kind
    | false => rw [write_refused (.inr ok)]; exact ⟨node,found,kind⟩
theorem fileSink_onlyWrites (data : Bytes) : Keeps (OnlyWrites path) ((fileSink path).call data) := by
  have loop (fuel : Nat) : ∀ data done, Keeps (OnlyWrites path) (fileSinkLoop path fuel data done) := by
    induction fuel with
    | zero => exact fun _ _ => keeps_pure _
    | succ fuel ih =>
      exact fun data done => keeps_ite (fun _ => keeps_pure _) fun _ =>
        keeps_bind (write_onlyWrites data) fun wrote =>
          keeps_ite (fun _ => keeps_pure _) fun _ => ih _ _
  exact loop _ _ _

theorem stored_ready {data : Bytes} {s : Storage} (ready : FileIs path (Ready data) s) : stored path s = data := by
  obtain ⟨node,found,-,-,rfl⟩ := ready
  simp [stored,found]
private theorem ready_of_kind {data : Bytes} {s : Storage}
    (kind : FileIs path (fun node => node.regular = true ∧ node.fault = none) s) (same : stored path s = data) :
    FileIs path (Ready data) s := by
  obtain ⟨node,found,regular,fault⟩ := kind
  exact ⟨node,found,regular,fault,by simpa [stored,found] using same⟩

theorem onlyWrites_spec {α : Type} (stable : StableAt path P) {p : Op α} (kept : Keeps (OnlyWrites path) p)
    {base : Bytes} : Triple (fun s => P s ∧ FileIs path (Ready base) s) p
      (fun _ s => P s ∧ FileIs path (fun node => node.regular = true ∧ node.fault = none) s) P := by
  intro s as both
  have writes := kept s as
  obtain ⟨holds,node,found,regular,fault,-⟩ := both
  have after := stable _ _ writes.frame holds
  exact ⟨fun _ _ => ⟨after,writes.kind ⟨node,found,regular,fault⟩⟩,fun _ => after⟩

private theorem fileSinkCall_spec (stable : StableAt path P) (base data : Bytes) :
    Triple (fun s => P s ∧ FileIs path (Ready base) s) (fileSinkCall path data)
      (fun n s => P s ∧ FileIs path (Ready (base ++ data.take n.toNat)) s) P := by
  refine triple_conseq (triple_value (onlyWrites_spec stable (fileSink_onlyWrites data))
    (S := fun n s => stored path s = base ++ data.take n.toNat) ?_) (fun _ both => both) ?_ fun _ holds => holds
  · intro s as n both returned
    rw [← stored_ready both.2]
    exact (fileSink path).stores data s as n returned
  · exact fun n s both => ⟨both.1.1,ready_of_kind both.1.2 both.2⟩

theorem fsync_spec (stable : StableAt path P) {good : Node → Prop}
    (blind : ∀ node, good node → good { node with dirty := false }) :
    Triple (fun s => P s ∧ FileIs path good s) (fsync path)
      (fun _ s => P s ∧ FileIs path (fun node => good node ∧ node.dirty = false) s) P := by
  refine triple_ask_bind (fun _ both => both.1) fun _ => triple_modify ?_
  rintro s ⟨holds,node,found,fine⟩
  rw [found]
  exact ⟨stableAt_setFile stable _ holds,fileIs_setFile ⟨blind node fine,rfl⟩⟩
theorem setStat_spec (stable : StableAt path P) {good : Node → Prop}
    (blind : ∀ node st, good node → good { node with stat := st }) (change : Stat → Stat) :
    Triple (fun s => P s ∧ FileIs path good s) (setStat path change) (fun _ s => P s ∧ FileIs path good s) P := by
  refine triple_ask_bind (fun _ both => both.1) fun answer =>
    triple_onFile fun s both => ?_
  obtain ⟨holds,node,found,fine⟩ := both
  rw [found]
  refine triple_ite (fun _ => triple_bind (triple_modify (Q := fun _ t => P t ∧ FileIs path good t) ?_) fun _ =>
    triple_pure _ fun _ both => both) fun _ => triple_pure _ ?_
  · rintro t rfl
    exact ⟨stableAt_setFile stable _ holds,fileIs_setFile (blind node _ fine)⟩
  · rintro t rfl
    exact ⟨holds,node,found,fine⟩

/-! ## The copy of the source -/

private theorem sinkContents_spec (stable : StableAt path P) (file : FileContents) :
    Triple (fun s => P s ∧ FileIs path (Ready []) s) (sinkContents path file)
      (fun n s => P s ∧ FileIs path (Ready ((file.data.getD []).take n.toNat)) s) P := by
  unfold sinkContents
  cases file.data with
  | some data => exact fileSinkCall_spec stable [] data
  | none =>
    -- a buffer that was freed: the write fails before the file is touched
    have untouched (n : Int) : Triple (fun s => P s ∧ FileIs path (Ready []) s) (pure n : Op Int)
        (fun n s => P s ∧ FileIs path (Ready ((none.getD []).take n.toNat)) s) P := triple_pure _ fun s both => by simpa using both
    exact triple_ite (fun _ => triple_ask_bind (fun _ both => both.1) fun _ => untouched 0) fun _ => untouched 0

private theorem saveFileContents_spec (stable : StableAt path P) (file : FileContents) :
    Triple P (saveFileContents path file) (fun code s => P s ∧ (¬ code < 0 → Saved path (file.data.getD []) s)) P := by
  have failed : ∀ {B : Storage → Prop}, (∀ s, B s → P s) → Triple B (pure (-1) : Op Int)
      (fun code s => P s ∧ (¬ code < 0 → Saved path (file.data.getD []) s)) P :=
    fun weaken => triple_pure _ fun s holds => ⟨weaken s holds,by simp⟩
  refine triple_bind (openTrunc_spec stable) fun opened => triple_ite (fun _ => failed fun _ both => both.1) fun ok => ?_
  rw [not_not] at ok
  refine triple_bind (triple_pre (sinkContents_spec stable file) fun s both => ⟨both.1,both.2 ok⟩) fun written => ?_
  refine triple_ite (fun _ => failed fun _ both => both.1) fun all => ?_
  have whole : (file.data.getD []).take written.toNat = file.data.getD [] := by
    cases loaded : file.data with
    | none => simp
    | some data =>
      have size := file.sized data loaded
      exact List.take_of_length_le (by simp only [Option.getD_some]; omega)
  rw [whole]
  refine triple_bind (fsync_spec stable fun _ ready => ready) fun _ => ?_
  refine triple_bind (setStat_spec stable (fun _ _ ready => ready) _) fun _ =>
    triple_ite (fun _ => failed fun _ both => both.1) fun _ => ?_
  refine triple_bind (setStat_spec stable (fun _ _ ready => ready) _) fun _ =>
    triple_ite (fun _ => failed fun _ both => both.1) fun _ => ?_
  exact triple_pure _ fun s both => ⟨both.1,fun _ => both.2⟩

theorem backUp_spec (stable : StableAt cacheTempSource P)
    (deletes : ∀ s path, Deletable path → s.removable path = true → P s → P (s.setFile path none)) (file : FileContents) :
    Triple P (backUp file) (fun ok s => P s ∧ (ok = true → Saved cacheTempSource (file.data.getD []) s)) P := by
  refine triple_bind (makeFreeSpaceOnCache_keeps deletes _) fun made =>
    triple_ite (fun _ => triple_pure _ fun s holds => ⟨holds,by simp⟩) fun _ => ?_
  refine triple_bind (saveFileContents_spec stable file) fun code =>
    triple_ite (fun _ => triple_pure _ fun s both => ⟨both.1,by simp⟩) fun saved => ?_
  exact triple_pure _ fun s both => ⟨both.1,fun _ => both.2 saved⟩

end Recovery.Saving
