import Recovery.RestoreVerdict

/-!
Which partition is mounted while a backup is restored (do_restore_tree in restore.cpp).
-/
namespace Recovery.RestoreMounts
open Memory Program Program.Prog Bu Restore RestoreVerdict List

/-- Every absolute path is extracted while the last partition that was formatted and mounted is the
    one of its first part. -/
def Right : Option Bytes → List Call → Prop
  | _, [] => True
  | _, .mounted path :: rest => Right (some path) rest
  | last, .extract path :: rest => (path.head? = some 47 → last = some (mountOf path)) ∧ Right last rest

def absolutes (calls : List Call) : List Bytes :=
  calls.filterMap fun
    | .mounted _ => none
    | .extract path => if path.head? = some 47 then some path else none
/-- The first part of a path is not the beginning of a longer first part of the path before it. -/
def Distinct (before path : Bytes) : Prop := mountOf path <+: mountOf before → mountOf path = mountOf before

/-! ## The calls of a list of paths -/

/-- The path is on a new partition, as far as the names are compared. -/
def New (cur path : Bytes) : Prop := path.head? = some 47 ∧ ¬ (mountOf path).isPrefixOf cur
instance (cur path : Bytes) : Decidable (New cur path) := instDecidableAnd
def mountsFor (cur path : Bytes) : List Call := if New cur path then [.mounted (mountOf path)] else []
def callsFor (cur path : Bytes) : List Call := mountsFor cur path ++ [.extract path]
def mountAfter (cur path : Bytes) : Bytes := if New cur path then mountOf path else cur
def callsOf : Bytes → List Bytes → List Call
  | _, [] => []
  | cur, path :: rest => callsFor cur path ++ callsOf (mountAfter cur path) rest

private theorem callsOf_snoc (cur : Bytes) (paths : List Bytes) (path : Bytes) :
    callsOf cur (paths ++ [path]) = callsOf cur paths ++ callsFor (paths.foldl mountAfter cur) path := by
  induction paths generalizing cur with
  | nil => simp [callsOf]
  | cons first rest ih => rw [cons_append,callsOf,callsOf,ih,foldl_cons,append_assoc]

private theorem right_from (before : Bytes) (paths : List Bytes) :
    Right (some (mountOf before)) (callsOf (mountOf before) paths) ↔
    List.IsChain Distinct (before :: absolutes (callsOf (mountOf before) paths)) := by
  induction paths generalizing before with
  | nil => simp [callsOf,Right,absolutes]
  | cons path rest ih =>
    rw [callsOf,callsFor,mountsFor,mountAfter]
    by_cases absolute : path.head? = some 47
    · by_cases start : mountOf path <+: mountOf before
      · have old : ¬ New (mountOf before) path := fun new => new.2 (List.isPrefixOf_iff_prefix.mpr start)
        have same : Distinct before path ↔ some (mountOf before) = some (mountOf path) := by
          simp [Distinct,start,eq_comm]
        simp only [old,absolutes,Right,absolute,if_false,if_true,nil_append,singleton_append,
          filterMap_cons,isChain_cons_cons,forall_const,same]
        refine and_congr_right fun equal => ?_
        rw [Option.some.inj equal]
        exact ih path
      · have new : New (mountOf before) path := ⟨absolute,fun pre => start (List.isPrefixOf_iff_prefix.mp pre)⟩
        simpa [new,absolutes,Right,absolute,Distinct,start] using ih path
    · have old : ¬ New (mountOf before) path := fun new => absolute new.1
      simpa [old,absolutes,Right,absolute] using ih before
private theorem right_start (paths : List Bytes) : Right none (callsOf [] paths) ↔
    List.IsChain Distinct (absolutes (callsOf [] paths)) := by
  induction paths with
  | nil => simp [callsOf,Right,absolutes]
  | cons path rest ih =>
    rw [callsOf,callsFor,mountsFor,mountAfter]
    by_cases absolute : path.head? = some 47
    · have new : New [] path := ⟨absolute,by simp [mountOf]⟩
      simpa [new,absolutes,Right,absolute] using right_from path rest
    · have old : ¬ New [] path := fun new => absolute new.1
      simpa [old,absolutes,Right,absolute] using ih

/-! ## The loop -/

/-- The calls are those of some paths. -/
def Listed (s : State) : Prop := ∃ paths, s.calls = callsOf [] paths
/-- The current partition is the one that these paths lead to. -/
def Tracks (s : State) : Prop := ∃ paths, s.calls = callsOf [] paths ∧ s.cur_mount = paths.foldl mountAfter []

theorem tracks_listed {s : State} (tracks : Tracks s) : Listed s := tracks.imp fun _ => And.left
private theorem tracks_still {s t : State} (still : Still s t) (tracks : Tracks s) : Tracks t := by
  obtain ⟨paths,calls,mount⟩ := tracks
  exact ⟨paths,still.calls.trans calls,still.mount.trans mount⟩
theorem triple_tracks {α : Type} {p : Run α} (kept : Keeps Still p) : Triple Tracks p (fun _ => Tracks) Tracks :=
  triple_keeps kept fun _ _ => tracks_still
theorem leaveMount_still : Keeps Still leaveMount :=
  keeps_bind keeps_get fun _ => keeps_ite (fun _ => keeps_bind keeps_ask fun _ => keeps_pure _) fun _ => keeps_pure _

private theorem switchMount_calls (path cur : Bytes) (calls : List Call) :
    Triple (fun s => s.calls = calls ∧ s.cur_mount = cur) (switchMount path)
      (fun rc s => (rc = 0 → s.calls = calls ++ mountsFor cur path ∧ s.cur_mount = mountAfter cur path) ∧
        (rc ≠ 0 → s.calls = calls)) fun s => s.calls = calls := by
  refine triple_bind (Q := fun t s => t = s ∧ s.calls = calls ∧ s.cur_mount = cur) (triple_get fun s same => ⟨rfl,same⟩)
    fun t => triple_assume fun s both => ?_
  obtain ⟨rfl,rfl,rfl⟩ := both
  refine triple_ite (fun new => ?_) fun stays => triple_pure _ fun s same => ?_
  · have switched : New t.cur_mount path := new
    rw [mountsFor,mountAfter,if_pos switched,if_pos switched]
    have left : Triple (fun s => s = t) leaveMount (fun _ s => s.calls = t.calls) fun s => s.calls = t.calls :=
      triple_conseq (triple_keeps (P := fun s => s.calls = t.calls) leaveMount_still fun _ _ still same =>
        still.calls.trans same) (fun _ equal => equal ▸ rfl) (fun _ _ same => same) fun _ same => same
    refine triple_bind left fun _ => ?_
    refine triple_bind (triple_modify (Q := fun _ s => s.calls = t.calls ∧ s.cur_mount = mountOf path)
      fun _ same => ⟨same,rfl⟩) fun _ => ?_
    have stops {rc : Int} (bad : rc ≠ 0) : Triple (fun s => s.calls = t.calls ∧ s.cur_mount = mountOf path)
        (pure rc : Run Int) (fun rc s => (rc = 0 → s.calls = t.calls ++ [.mounted (mountOf path)] ∧
          s.cur_mount = mountOf path) ∧ (rc ≠ 0 → s.calls = t.calls)) fun s => s.calls = t.calls :=
      triple_pure _ fun s same => ⟨fun zero => absurd zero bad,fun _ => same.1⟩
    refine triple_ask_bind (fun _ => And.left) fun unmounted => triple_ite stops fun _ => ?_
    refine triple_ask_bind (fun _ => And.left) fun formatted => triple_ite stops fun _ => ?_
    refine triple_ask_bind (fun _ => And.left) fun mounted => triple_ite stops fun _ => ?_
    have sets : Triple (fun s => s.calls = t.calls ∧ s.cur_mount = mountOf path) (partSet (mountOf path).tail)
        (fun _ s => s.calls = t.calls ∧ s.cur_mount = mountOf path) fun s => s.calls = t.calls :=
      triple_conseq (triple_keeps (partSet_still _) fun _ _ still same =>
        ⟨still.calls.trans same.1,still.mount.trans same.2⟩) (fun _ same => same) (fun _ _ same => same) fun _ => And.left
    refine triple_bind sets fun _ => ?_
    refine triple_bind (triple_modify (Q := fun _ s => s.calls = t.calls ++ [.mounted (mountOf path)] ∧
      s.cur_mount = mountOf path) fun s same => ⟨by rw [same.1],same.2⟩) fun _ => ?_
    exact triple_pure _ fun s same => ⟨fun _ => same,fun bad => absurd rfl bad⟩
  · have old : ¬ New t.cur_mount path := stays
    rw [mountsFor,mountAfter,if_neg old,if_neg old,same,append_nil]
    exact ⟨fun _ => ⟨rfl,rfl⟩,fun bad => absurd rfl bad⟩

variable (dev : Device)

private theorem restoreRecord_tracks (h : Header) (saved : Bytes) (paths : List Bytes) :
    Triple (fun s => s.calls = callsOf [] paths ++ mountsFor (paths.foldl mountAfter []) h.name ∧
        s.cur_mount = mountAfter (paths.foldl mountAfter []) h.name)
      (restoreRecord dev h saved) (fun _ => Tracks) Tracks := by
  -- a record that is not extracted to its own path has a name without a slash in front
  have relative (other : h.name.head? ≠ some 47) (s : State)
      (start : s.calls = callsOf [] paths ++ mountsFor (paths.foldl mountAfter []) h.name ∧
        s.cur_mount = mountAfter (paths.foldl mountAfter []) h.name) : Tracks s := by
    have old : ¬ New (paths.foldl mountAfter []) h.name := fun new => other new.1
    rw [mountsFor,mountAfter,if_neg old,if_neg old,append_nil] at start
    exact ⟨paths,start⟩
  refine triple_ite (fun sod => ?_) fun _ => triple_ite (fun eod => ?_) fun _ => triple_ite (fun raw => ?_) fun _ => ?_
  · exact triple_pre (triple_tracks (verify_sod_still dev h)) (relative (by rw [sod]; decide))
  · exact triple_pre (triple_tracks (verify_eod_still dev h saved)) (relative (by rw [eod]; decide))
  · refine triple_pre (B := Tracks) ?_ (relative (by rcases raw with raw | raw <;> rw [raw] <;> decide))
    split
    · exact triple_tracks (keeps_bind (partSet_still _) fun _ => file_still h _)
    · exact triple_tracks (keeps_pure _)
  · refine triple_bind (triple_modify (Q := fun _ => Tracks) fun s start => ?_) fun _ => triple_tracks (file_still h _)
    refine ⟨paths ++ [h.name],?_,?_⟩
    · rw [callsOf_snoc,callsFor,← append_assoc,← start.1]
    · rw [foldl_append,foldl_cons,foldl_nil]
      exact start.2

private theorem restoreLoop_listed (fuel : Nat) : Triple Tracks (restoreLoop dev fuel) (fun _ => Listed) Listed := by
  induction fuel with
  | zero => exact triple_stuck fun _ => tracks_listed
  | succ fuel ih =>
    have listed {α : Type} {p : Run α} (tracks : Triple Tracks p (fun _ => Tracks) Tracks) :
        Triple Tracks p (fun _ => Tracks) Listed :=
      triple_conseq tracks (fun _ holds => holds) (fun _ _ holds => holds) fun _ => tracks_listed
    refine triple_bind (listed (triple_tracks keeps_get)) fun s => ?_
    refine triple_bind (listed (triple_tracks (th_read_still dev))) fun result => ?_
    obtain ⟨h | _ | _,head⟩ := result
    · refine triple_assume fun t ⟨paths,calls,mount⟩ => ?_
      have switch := switchMount_calls h.name (paths.foldl mountAfter []) (callsOf [] paths)
      refine triple_bind (triple_conseq switch (fun _ equal => equal ▸ ⟨calls,mount⟩) (fun _ _ holds => holds)
        fun _ same => ⟨paths,same⟩) fun rc => ?_
      refine triple_ite (fun bad => triple_pure _ fun u holds => ⟨paths,holds.2 bad⟩) fun good => ?_
      refine triple_bind (triple_conseq (restoreRecord_tracks dev h s.hashed paths)
        (fun u holds => holds.1 (not_not.mp good)) (fun _ _ holds => holds) fun _ => tracks_listed) fun done => ?_
      refine triple_ite (fun _ => triple_pure _ fun _ => tracks_listed) fun _ => ?_
      exact triple_bind (triple_modify (Q := fun _ => Tracks) fun _ tracks => tracks) fun _ => ih
    · exact triple_pure _ fun _ => tracks_listed
    · exact triple_pure _ fun _ => tracks_listed

/-- A restore extracts every absolute path to the partition that it was meant for exactly if no such path's
    first part is the beginning of a longer one of the absolute path before it. -/
theorem mounts_right_iff (dev : Device) (fuel : Nat) (stream : Bytes) (as : List Int) :
    Right none (do_restore_tree dev fuel (startRestore stream) as).state.calls ↔
      List.IsChain Distinct (absolutes (do_restore_tree dev fuel (startRestore stream) as).state.calls) := by
  have whole : Triple Tracks (do_restore_tree dev fuel) (fun _ => Listed) Listed := by
    refine triple_bind (restoreLoop_listed dev fuel) fun rc => ?_
    have leaves : Triple Listed leaveMount (fun _ => Listed) Listed :=
      triple_keeps leaveMount_still fun _ _ still => Exists.imp fun _ => still.calls.trans
    exact triple_bind leaves fun _ => triple_pure _ fun _ listed => listed
  obtain ⟨paths, calls⟩ := triple_state whole (show Tracks (startRestore stream) from ⟨[], rfl, rfl⟩) as
  rw [calls]
  exact right_start paths

/-- `/data` is the beginning of `/datadata`, which was mounted before it. -/
def twoVolumes : Device where
  lib := blockTar
  hashing := plainHashing
  volume_for_path path := if path = ascii "/data" ∨ path = ascii "/datadata" then some ⟨ascii "ext4", path⟩ else none
  product := ascii "p"
def twoVolumesStream : Bytes :=
  regularRecord "SOD" (ascii "hash.name=md5\nro.build.product=p\nfs.data.used=4\nfs.datadata.used=4\n") ++
    regularRecord "/datadata/a" [1] ++ regularRecord "/data/b" [2]
theorem data_not_right :
    let run := do_restore_tree twoVolumes 4 (startRestore twoVolumesStream) [0, 0, 0, 0, 0, 0]
    run.value = some 0 ∧ run.state.written = [(ascii "/datadata/a", [1]), (ascii "/data/b", [2])] ∧
      run.state.calls = [.mounted (ascii "/datadata"), .extract (ascii "/datadata/a"), .extract (ascii "/data/b")] ∧
      ¬ Right none run.state.calls := by
  have calls : (do_restore_tree twoVolumes 4 (startRestore twoVolumesStream) [0, 0, 0, 0, 0, 0]).state.calls =
      [.mounted (ascii "/datadata"), .extract (ascii "/datadata/a"), .extract (ascii "/data/b")] := by decide +kernel
  refine ⟨by decide +kernel, by decide +kernel, calls, ?_⟩
  rw [calls]
  exact fun right => absurd (right.2.1 rfl) (by decide +kernel)

end Recovery.RestoreMounts
