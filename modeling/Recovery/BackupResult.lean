import Recovery.Backup

/-!
What a backup that returns 0 has stored.
-/
namespace Recovery.BackupResult
open Memory Program Program.Prog Bu Backup List

variable (src : Source)

/-! ## What is to be stored -/

/-- The records of the entries of a directory; special files have none. -/
def treeRecords (path : Bytes) : Entries → List (Header × Bytes)
  | .nil => []
  | .file name attrs data rest =>
    if skipped src path name then treeRecords path rest
    else (fileHeader path name attrs data, data) :: treeRecords path rest
  | .link name attrs rest =>
    if skipped src path name then treeRecords path rest
    else (nodeHeader path name attrs, []) :: treeRecords path rest
  | .special _ rest => treeRecords path rest
  | .dir name attrs children rest =>
    if skipped src path name then treeRecords path rest
    else (nodeHeader path name attrs, []) :: (treeRecords (join path name) children ++ treeRecords path rest)
def partRecords (part : Part) : List (Header × Bytes) :=
  if isRaw part then [(deviceHeader src part, src.blocks part.vol.blk_device)]
  else treeRecords src part.path (src.entries part.path)

/-- How many records a failure leaves out. What was not flushed may be any. -/
def lost : Failure → Nat
  | .sod => 1
  | .eod => 1
  | .flush => 1
  | .mount part => (partRecords src part).length
  | .device _ => 1
  | .left path entries => (treeRecords src path entries).length
def lostBy (failures : List Failure) : Nat := (failures.map (lost src)).sum

/-! ## One call after the other -/

/-- Of some records a part was appended, in their order, and the others are left out by failures. -/
def Progress (full : List (Header × Bytes)) (s t : State) : Prop :=
  ∃ added new, t.appended = s.appended ++ added ∧ t.failures = s.failures ++ new ∧ added.Sublist full ∧
    added.length + lostBy src new = full.length

variable {t : State}

theorem progress_same {s : State} (appended : t.appended = s.appended) (failures : t.failures = s.failures) :
    Progress src [] s t :=
  ⟨[],[],by simp [appended],by simp [failures],List.Sublist.refl _,rfl⟩
theorem progress_trans {first second : List (Header × Bytes)} {s u : State} (before : Progress src first s t)
    (after : Progress src second t u) : Progress src (first ++ second) s u := by
  obtain ⟨added,new,appended,failures,part,count⟩ := before
  obtain ⟨more,newer,appended',failures',part',count'⟩ := after
  refine ⟨added ++ more,new ++ newer,?_,?_,part.append part',?_⟩
  · rw [appended',appended,append_assoc]
  · rw [failures',failures,append_assoc]
  · simp only [lostBy,map_append,sum_append,length_append] at *
    omega
private theorem progress_record {s : State} {r : Header × Bytes} (appended : t.appended = s.appended ++ [r])
    (failures : t.failures = s.failures) : Progress src [r] s t :=
  ⟨[r],[],appended,by simp [failures],List.Sublist.refl _,rfl⟩
private theorem progress_fail {full : List (Header × Bytes)} {failure : Failure} {s : State}
    (appended : t.appended = s.appended) (failures : t.failures = s.failures ++ [failure])
    (all : lost src failure = full.length) : Progress src full s t :=
  ⟨[],[failure],by simp [appended],failures,nil_sublist _,by simp [lostBy,all]⟩

/-- A run that returns has stored some records, or has seen what left them out. -/
def Stores {α : Type} (full : α → List (Header × Bytes)) (p : Run α) : Prop :=
  ∀ s, Triple (fun t => t = s) p (fun a t => Progress src (full a) s t) fun _ => True

section Rules
variable {src} {α β : Type} {p : Run α} {k : α → Run β}

variable {full : α → List (Header × Bytes)}

theorem stores_pure (a : α) (none : full a = []) : Stores src full (pure a) := by
  refine fun s => triple_pure _ fun t equal => ?_
  rw [none,equal]
  exact progress_same src rfl rfl
theorem stores_bind {F : α → List (Header × Bytes)} {G : α → β → List (Header × Bytes)}
    {full : β → List (Header × Bytes)} (before : Stores src F p) (after : ∀ a, Stores src (G a) (k a))
    (whole : ∀ a b, F a ++ G a b = full b) : Stores src full (p >>= k) := by
  refine fun s => triple_bind (before s) fun a => triple_assume fun t progress => ?_
  refine triple_conseq (after a t) (fun _ equal => equal) (fun b u more => ?_) fun _ _ => trivial
  exact whole a b ▸ progress_trans src progress more
theorem stores_return {records : List (Header × Bytes)} {full : β → List (Header × Bytes)}
    (before : Stores src (fun _ => records) p) (b : β) (all : full b = records) :
    Stores src full (p >>= fun _ => pure b) := by
  refine fun s => triple_bind (before s) fun a => triple_pure _ fun t progress => ?_
  rw [all]
  exact progress
theorem stores_step {full : β → List (Header × Bytes)} (before : Stores src (fun _ => []) p)
    (after : ∀ a, Stores src full (k a)) : Stores src full (p >>= k) :=
  stores_bind before after fun _ _ => rfl
theorem stores_ask : Stores src (fun _ => []) (ask : Run Int) :=
  fun _ => triple_ask (fun _ _ equal => equal ▸ progress_same src rfl rfl) fun _ _ => trivial
theorem stores_modify {f : State → State} (appended : ∀ s, (f s).appended = s.appended)
    (failures : ∀ s, (f s).failures = s.failures) : Stores src (fun _ => []) (modify f : Run Unit) :=
  fun _ => triple_modify fun t equal => equal ▸ progress_same src (appended t) (failures t)
theorem stores_stuck : Stores src full (stuck : Run α) :=
  fun _ => triple_stuck fun _ _ => trivial
theorem stores_ite {c : Prop} [Decidable c] {p q : Run α}
    (yes : c → Stores src full p) (no : ¬ c → Stores src full q) : Stores src full (if c then p else q) :=
  fun s => triple_ite (fun h => yes h s) fun h => no h s
theorem stores_fail {full : List (Header × Bytes)} {failure : Failure} (all : lost src failure = full.length) :
    Stores src (fun _ => full) (fail failure) :=
  fun _ => triple_modify fun _ equal => equal ▸ progress_fail src rfl rfl all

end Rules

section Calls
variable {src}

private theorem update_progress_stores : Stores src (fun _ => []) update_progress := by
  refine stores_step (fun s => triple_get fun t equal => equal ▸ progress_same src rfl rfl) fun _ => ?_
  exact stores_ite (fun _ => stores_pure _ rfl) fun _ => stores_stuck
theorem writeBytes_stores (bytes written : Bytes) : Stores src (fun _ => []) (writeBytes bytes written) := by
  refine stores_step (stores_modify (fun _ => rfl) fun _ => rfl) fun _ => ?_
  exact stores_ite (fun _ => update_progress_stores) fun _ => stores_pure _ rfl
theorem appendRecord_stores (h : Header) (data : Bytes) :
    Stores src (fun rc => if rc = 0 then [(h, data)] else []) (appendRecord src h data) := by
  refine stores_step stores_ask fun rc => stores_ite (fun _ => ?_) fun bad => ?_
  · refine stores_step (writeBytes_stores _ _) fun _ => ?_
    exact stores_return (fun _ => triple_modify fun _ equal => equal ▸ progress_record src rfl rfl) 0 (if_pos rfl)
  · refine stores_step stores_ask fun hashed => stores_step stores_ask fun written => ?_
    refine stores_step (writeBytes_stores _ _) fun _ => ?_
    refine stores_step (stores_modify (fun _ => rfl) fun _ => rfl) fun _ => ?_
    exact stores_pure rc (if_neg bad)
theorem orBreak_stores {F : Int → List (Header × Bytes)} {rest full : List (Header × Bytes)} {path : Bytes}
    {entries : Entries} {p next : Run Int} (before : Stores src F p) (after : Stores src (fun _ => rest) next)
    (fine : F 0 ++ rest = full) (bad : ∀ rc, rc ≠ 0 → F rc ++ treeRecords src path entries = full) :
    Stores src (fun _ => full) (orBreak path entries p next) := by
  refine stores_bind (G := fun rc _ => if rc ≠ 0 then treeRecords src path entries else rest) before (fun rc => ?_) ?_
  · by_cases zero : rc = 0
    · simpa [zero] using after
    · simpa [zero] using stores_return (stores_fail rfl) rc rfl
  · intro rc _
    by_cases zero : rc = 0
    · simpa [zero] using fine
    · simpa [zero] using bad rc zero
theorem withEntry_stores {path name : Bytes} {entries : Entries} {next visit : Run Int}
    (skip : skipped src path name → Stores src (fun _ => treeRecords src path entries) next)
    (store : ¬ skipped src path name → Stores src (fun _ => treeRecords src path entries) visit) :
    Stores src (fun _ => treeRecords src path entries) (withEntry src path name entries next visit) := by
  refine stores_step stores_ask fun read => stores_ite (fun _ => ?_) fun _ => stores_ite skip fun kept => ?_
  · exact stores_return (stores_fail rfl) 0 rfl
  · refine stores_step stores_ask fun rc => stores_ite (fun _ => ?_) fun _ => store kept
    exact stores_return (stores_fail rfl) rc rfl
theorem opendir_stores : Stores src (fun _ => []) opendir :=
  stores_step stores_ask fun _ => stores_ite (fun _ => stores_stuck) fun _ => stores_pure _ rfl

private theorem backupEntries_stores (path : Bytes) (entries : Entries) :
    Stores src (fun _ => treeRecords src path entries) (backupEntries src path entries) := by
  induction entries generalizing path with
  | nil => exact stores_pure 0 rfl
  | file name attrs data rest ih =>
    refine withEntry_stores (fun skip => ?_) fun kept => ?_
    · simpa [treeRecords,skip] using ih path
    · refine orBreak_stores (appendRecord_stores _ _) (ih path) ?_ fun rc bad => ?_
      · simp [treeRecords,kept]
      · rw [if_neg bad,nil_append]
  | link name attrs rest ih =>
    refine withEntry_stores (fun skip => ?_) fun kept => ?_
    · simpa [treeRecords,skip] using ih path
    · refine orBreak_stores (appendRecord_stores _ _) (ih path) ?_ fun rc bad => ?_
      · simp [treeRecords,kept]
      · rw [if_neg bad,nil_append]
  | special name rest ih => exact withEntry_stores (fun _ => ih path) fun _ => ih path
  | dir name attrs children rest inner ih =>
    refine withEntry_stores (fun skip => ?_) fun kept => ?_
    · simpa [treeRecords,skip] using ih path
    have below : Stores src (fun _ => treeRecords src (join path name) children ++ treeRecords src path rest)
        (opendir >>= fun _ => orBreak path rest (backupEntries src (join path name) children)
          (backupEntries src path rest)) :=
      stores_step opendir_stores fun _ => orBreak_stores (inner _) (ih path) rfl fun _ _ => rfl
    refine orBreak_stores (appendRecord_stores _ _) below ?_ fun rc bad => ?_
    · simp [treeRecords,kept]
    · rw [if_neg bad,nil_append]

private theorem device_stores (part : Part) : Stores src
    (fun rc => if rc = 0 then [(deviceHeader src part, src.blocks part.vol.blk_device)] else [])
    (tar_append_device_contents src part) := by
  refine stores_step stores_ask fun rc => stores_ite (fun _ => stores_pure _ rfl) fun _ => ?_
  refine stores_step stores_ask fun fd => stores_ite (fun _ => stores_pure _ rfl) fun _ => ?_
  intro s
  refine triple_bind (appendRecord_stores _ _ s) fun rc => triple_pure _ fun t progress => ?_
  by_cases zero : rc = 0
  · simpa [zero] using progress
  · simpa [zero] using progress
theorem note_stores (rc : Int) {failure : Failure} {F : List (Header × Bytes)}
    (all : lost src failure = F.length) : Stores src (fun _ => if rc = 0 then [] else F) (note rc failure) := by
  by_cases zero : rc = 0
  · simpa [note,zero] using stores_pure () rfl
  · simpa [note,zero] using stores_fail all
private theorem noted_stores {α : Type} {p : Run Int} {k : Int → Run α} {r : Header × Bytes} {failure : Failure}
    {full : List (Header × Bytes)} (before : Stores src (fun rc => if rc = 0 then [r] else []) p)
    (one : lost src failure = 1) (after : ∀ rc, Stores src (fun _ => full) (k rc)) :
    Stores src (fun _ => r :: full) (p >>= fun rc => note rc failure >>= fun _ => k rc) := by
  have noted (rc : Int) : Stores src (fun _ => (if rc = 0 then [] else [r]) ++ full)
      (note rc failure >>= fun _ => k rc) :=
    stores_bind (note_stores (F := [r]) rc one) (fun _ => after rc) fun _ _ => rfl
  refine stores_bind before noted fun rc _ => ?_
  by_cases zero : rc = 0 <;> simp [zero]
private theorem backupParts_stores (partlist : List Part) (rc : Int) :
    Stores src (fun _ => partlist.flatMap (partRecords src)) (backupParts src partlist rc) := by
  induction partlist generalizing rc with
  | nil => exact stores_pure rc rfl
  | cons part rest ih =>
    rw [flatMap_cons]
    refine stores_step (stores_modify (fun _ => rfl) fun _ => rfl) fun _ => stores_ite (fun raw => ?_) fun files => ?_
    · simp only [partRecords,if_pos raw]
      exact noted_stores (device_stores part) rfl ih
    refine stores_step stores_ask fun mounted => stores_ite (fun _ => ?_) fun _ => ?_
    · exact stores_bind (stores_fail rfl) (fun _ => ih rc) fun _ _ => rfl
    · refine stores_bind (F := fun _ => partRecords src part) (G := fun _ _ => rest.flatMap (partRecords src)) ?_
        (fun rc => stores_step stores_ask fun _ => ih rc) fun _ _ => rfl
      simp only [partRecords,if_neg files]
      exact stores_step opendir_stores fun _ => backupEntries_stores _ _

private theorem statLines_stores (part : Part) : Stores src (fun _ => []) (statLines part) := by
  refine stores_step stores_ask fun known => stores_ite (fun _ => ?_) fun _ => stores_pure _ rfl
  refine stores_step stores_ask fun _ => stores_step stores_ask fun _ => ?_
  exact stores_step (stores_modify (fun _ => rfl) fun _ => rfl) fun _ => stores_pure _ rfl
theorem sizeLines_stores (part : Part) : Stores src (fun _ => []) (sizeLines part) := by
  refine stores_ite (fun _ => stores_step stores_ask fun _ => ?_) fun _ => ?_
  · exact stores_step (stores_modify (fun _ => rfl) fun _ => rfl) fun _ => stores_pure _ rfl
  refine stores_step stores_ask fun _ => stores_ite (fun _ => stores_pure _ rfl) fun _ => ?_
  refine stores_step (statLines_stores part) fun _ => ?_
  exact stores_step stores_ask fun _ => stores_pure _ rfl
theorem allSizeLines_stores (partlist : List Part) : Stores src (fun _ => []) (allSizeLines partlist) := by
  induction partlist with
  | nil => exact stores_pure _ rfl
  | cons part rest ih =>
    exact stores_step (sizeLines_stores part) fun _ => stores_step ih fun _ => stores_pure _ rfl

end Calls

/-! ## The framing records -/

def sodRecord (opt_hash sizes : Bytes) : Header × Bytes :=
  (textHeader "SOD" (sodText src opt_hash sizes), sodText src opt_hash sizes)
def eodRecord (opt_hash hashed : Bytes) : Header × Bytes :=
  (textHeader "EOD" (eodText src opt_hash hashed), eodText src opt_hash hashed)

/-- Without a name for the hash nothing is hashed. -/
def Unhashed (s t : State) : Prop := s.hash_name = none → t.hash_name = none ∧ t.hashed = s.hashed
instance : IsPreorder State Unhashed where
  refl _ := fun none => ⟨none, rfl⟩
  trans _ _ _ first second := fun none => ⟨(second (first none).1).1, (second (first none).1).2.trans (first none).2⟩
theorem writeBytes_unhashed (bytes written : Bytes) : Keeps Unhashed (writeBytes bytes written) := by
  refine keeps_bind (keeps_modify fun s none => ⟨none,by simp [none]⟩) fun _ => ?_
  refine keeps_ite (fun _ => keeps_bind keeps_get fun _ => ?_) fun _ => keeps_pure _
  exact keeps_ite (fun _ => keeps_pure _) fun _ => keeps_stuck
theorem note_unhashed (rc : Int) (failure : Failure) : Keeps Unhashed (note rc failure) :=
  keeps_ite (fun _ => keeps_modify fun _ none => ⟨none,rfl⟩) fun _ => keeps_pure _
theorem appendRecord_unhashed (h : Header) (data : Bytes) : Keeps Unhashed (appendRecord src h data) := by
  have answer {α : Type} {p : Int → Run α} (rest : ∀ rc, Keeps Unhashed (p rc)) : Keeps Unhashed (ask >>= p) :=
    keeps_bind keeps_ask rest
  refine answer fun rc => keeps_ite (fun _ => ?_) fun _ => answer fun _ => answer fun _ => ?_
  all_goals
    refine keeps_bind (writeBytes_unhashed _ _) fun _ => ?_
    exact keeps_bind (keeps_modify fun _ none => ⟨none,rfl⟩) fun _ => keeps_pure _

/-- The start record, everything that the partitions hold, and the end record are in the archive. -/
def Complete (opt_hash : Bytes) (partlist : List Part) (t : State) : Prop :=
  (∃ sizes, t.appended =
    sodRecord src opt_hash sizes :: (partlist.flatMap (partRecords src) ++ [eodRecord src opt_hash t.hashed])) ∧
    .flush ∉ t.failures

/-- A run that returns accounts for the whole archive, up to the failure to flush it. -/
def Accounted (opt_hash : Bytes) (partlist : List Part) (s t : State) : Prop :=
  ∃ sizes u, Progress src
      (sodRecord src opt_hash sizes :: (partlist.flatMap (partRecords src) ++ [eodRecord src opt_hash t.hashed])) s u ∧
    t.appended = u.appended ∧ (t.failures = u.failures ∨ t.failures = u.failures ++ [.flush])

variable {src}

theorem progress_noted {r : Header × Bytes} {rc : Int} {s u : State}
    (call : Progress src (if rc = 0 then [r] else []) s t) (noted : Progress src (if rc = 0 then [] else [r]) t u) :
    Progress src [r] s u := by
  have both := progress_trans src call noted
  by_cases zero : rc = 0 <;> simpa [zero] using both
theorem append_sod_triple (opt_hash : Bytes) (partlist : List Part) (s : State) :
    Triple (fun t => t = s) (append_sod src opt_hash partlist)
      (fun rc t => ∃ sizes, Progress src (if rc = 0 then [sodRecord src opt_hash sizes] else []) s t) fun _ => True := by
  have lines : Stores src (fun _ => []) (allSizeLines partlist) := allSizeLines_stores partlist
  refine triple_bind (lines s) fun sizes => triple_assume fun t before => ?_
  refine triple_ite (fun _ => triple_stuck fun _ _ => trivial) fun _ => ?_
  refine triple_conseq (appendRecord_stores _ _ t) (fun _ equal => equal) (fun rc u after => ?_) fun _ _ => trivial
  exact ⟨sizes,progress_trans src before after⟩
theorem append_eod_triple (opt_hash : Bytes) (s : State) :
    Triple (fun t => t = s) (append_eod src opt_hash)
      (fun rc t => Progress src (if rc = 0 then [eodRecord src opt_hash s.hashed] else []) s t) fun _ => True := by
  refine triple_bind (Q := fun a t => a = s ∧ t = s) (triple_get fun t equal => ⟨equal,equal⟩) fun a => ?_
  refine triple_assume fun t both => ?_
  obtain ⟨rfl,rfl⟩ := both
  exact appendRecord_stores _ _ t
theorem tar_append_eof_stores : Stores src (fun _ => []) tar_append_eof := by
  refine stores_step stores_ask fun rc => stores_ite (fun _ => ?_) fun _ => stores_step stores_ask fun written => ?_
  · exact stores_step (writeBytes_stores _ _) fun _ => stores_pure _ rfl
  · exact stores_step (writeBytes_stores _ _) fun _ => stores_pure _ rfl
theorem tar_append_eof_unhashed : Keeps Unhashed tar_append_eof := by
  have answer {α : Type} {p : Int → Run α} (rest : ∀ rc, Keeps Unhashed (p rc)) : Keeps Unhashed (ask >>= p) :=
    keeps_bind keeps_ask rest
  refine answer fun rc => keeps_ite (fun _ => ?_) fun _ => answer fun written => ?_
  all_goals exact keeps_bind (writeBytes_unhashed _ _) fun _ => keeps_pure _

theorem finishStream_unhashed (opt_hash : Bytes) (rc : Int) : Keeps Unhashed (finishStream src opt_hash rc) := by
  have eod : Keeps Unhashed (append_eod src opt_hash) :=
    keeps_bind keeps_get fun _ => appendRecord_unhashed src _ _
  refine keeps_bind eod fun _ => keeps_bind (note_unhashed _ _) fun _ => ?_
  refine keeps_bind tar_append_eof_unhashed fun _ => ?_
  refine keeps_bind keeps_ask fun _ => ?_
  exact keeps_bind (note_unhashed _ _) fun _ => keeps_pure _
theorem finishStream_triple (opt_hash : Bytes) (rc : Int) (s : State) :
    Triple (fun t => t = s) (finishStream src opt_hash rc)
      (fun _ t => (∃ u, Progress src [eodRecord src opt_hash s.hashed] s u ∧ t.appended = u.appended ∧
        (t.failures = u.failures ∨ t.failures = u.failures ++ [.flush])) ∧ Unhashed s t) fun _ => True := by
  refine triple_value ?_ fun t as _ equal _ => equal ▸ finishStream_unhashed opt_hash rc t as
  refine triple_bind (append_eod_triple opt_hash s) fun ended => triple_assume fun t₁ eod => ?_
  have note : Stores src (fun _ => if ended = 0 then [] else [eodRecord src opt_hash s.hashed]) (note ended .eod) :=
    note_stores ended rfl
  refine triple_bind (note t₁) fun _ => triple_assume fun t₂ noted => ?_
  have close : Stores src (fun _ => []) tar_append_eof := tar_append_eof_stores
  refine triple_bind (close t₂) fun _ => triple_assume fun t₃ closed => ?_
  have whole : Progress src [eodRecord src opt_hash s.hashed] s t₃ :=
    progress_trans src (progress_noted eod noted) closed
  refine triple_ask_bind (fun _ _ => trivial) fun flushed => ?_
  refine triple_bind (Q := fun _ t => t.appended = t₃.appended ∧
    (t.failures = t₃.failures ∨ t.failures = t₃.failures ++ [.flush])) ?_
    fun _ => triple_pure _ fun t after => ⟨t₃,whole,after⟩
  refine triple_ite (fun _ => triple_modify fun t equal => ?_) fun _ => triple_pure _ fun t equal => ?_
  · exact equal ▸ ⟨rfl,Or.inr rfl⟩
  · exact equal ▸ ⟨rfl,Or.inl rfl⟩
theorem backupStream_triple (opt_hash : Bytes) (partlist : List Part) (s : State) :
    Triple (fun t => t = s) (backupStream src opt_hash partlist)
      (fun _ t => Accounted src opt_hash partlist s t) fun _ => True := by
  refine triple_bind (append_sod_triple opt_hash partlist s) fun started => triple_assume fun t₁ sod => ?_
  obtain ⟨sizes,sod⟩ := sod
  have note : Stores src (fun _ => if started = 0 then [] else [sodRecord src opt_hash sizes]) (note started .sod) :=
    note_stores started rfl
  refine triple_bind (note t₁) fun _ => triple_assume fun t₂ noted => ?_
  refine triple_bind (Q := fun _ t => Progress src [] t₂ t) (triple_modify fun t equal => ?_)
    fun _ => triple_assume fun t₃ named => ?_
  · exact equal ▸ progress_same src rfl rfl
  refine triple_bind (backupParts_stores partlist 0 t₃) fun rc => triple_assume fun t₄ parts => ?_
  refine triple_bind (Q := fun _ t => Progress src [] t₄ t ∧ t.hash_name = none) (triple_modify fun t equal => ?_)
    fun _ => triple_assume fun t₅ unnamed => ?_
  · exact ⟨equal ▸ progress_same src rfl rfl,rfl⟩
  refine triple_conseq (finishStream_triple opt_hash rc t₅) (fun _ equal => equal) (fun _ t last => ?_)
    fun _ _ => trivial
  obtain ⟨⟨u,eod,appended,failures⟩,unhashed⟩ := last
  rw [← (unhashed unnamed.2).2] at eod
  have front := progress_trans src (progress_noted sod noted) (progress_trans src named parts)
  refine ⟨sizes,u,?_,appended,failures⟩
  exact progress_trans src front (progress_trans src unnamed.1 eod)

theorem lostBy_eq_zero {failures : List Failure} : lostBy src failures = 0 ↔ ∀ f ∈ failures, lost src f = 0 := by
  unfold lostBy
  induction failures with
  | nil => simp
  | cons failure rest ih => simp [ih]
theorem complete_iff_of_accounted {opt_hash : Bytes} {partlist : List Part}
    (accounted : Accounted src opt_hash partlist startBackup t) :
    Complete src opt_hash partlist t ↔ ∀ failure ∈ t.failures, lost src failure = 0 := by
  obtain ⟨sizes,u,⟨added,new,appended,failures,part,count⟩,same,flush⟩ := accounted
  rw [startBackup,nil_append] at appended failures
  subst failures
  constructor
  · rintro ⟨⟨other,whole⟩,flushed⟩
    have kept : t.failures = u.failures := flush.resolve_right fun more => flushed (by rw [more]; simp)
    rw [kept,← lostBy_eq_zero]
    have all : added.length = (partlist.flatMap (partRecords src)).length + 2 := by
      rw [← appended,← same,whole]
      simp
    simp only [length_cons,length_append,length_nil] at count
    omega
  · intro none
    have flushed : .flush ∉ t.failures := fun member => by simpa [lost] using none _ member
    have kept : t.failures = u.failures := flush.resolve_right fun more => flushed (by rw [more]; simp)
    have zero : lostBy src u.failures = 0 := lostBy_eq_zero.mpr (kept ▸ none)
    refine ⟨⟨sizes,?_⟩,flushed⟩
    rw [same,appended]
    exact part.eq_of_length (by omega)

/-- A backup that returns 0 is complete if and only if no failure left anything out. -/
theorem backup_complete_iff (argv : List Bytes) (as : List Int)
    (returns : (do_backup src argv startBackup as).value = some 0) :
    ∃ opt_hash partlist, requested src argv = some (opt_hash, partlist) ∧
      (Complete src opt_hash partlist (do_backup src argv startBackup as).state ↔
        ∀ failure ∈ (do_backup src argv startBackup as).state.failures, lost src failure = 0) := by
  cases found : requested src argv with
  | none => simp [do_backup, found, pure_run] at returns
  | some request =>
    obtain ⟨opt_hash, partlist⟩ := request
    have whole : Triple (fun t => t = startBackup) (do_backup src argv)
        (fun rc t => rc = 0 → Accounted src opt_hash partlist startBackup t) fun _ => True := by
      unfold do_backup
      rw [found]
      refine triple_ask_bind (fun _ _ => trivial) fun rc => triple_ite (fun bad => triple_pure _ fun t _ zero => absurd zero bad) fun _ => ?_
      exact triple_conseq (backupStream_triple opt_hash partlist startBackup) (fun _ equal => equal)
        (fun _ _ accounted _ => accounted) fun _ _ => trivial
    refine ⟨opt_hash, partlist, rfl, complete_iff_of_accounted ?_⟩
    exact (whole startBackup as rfl).1 0 returns rfl

/-! A device with a boot partition and a file system that holds one file. -/

def smallSource : Source where
  dev :=
    { lib := blockTar
      hashing := plainHashing
      volume_for_path := fun path =>
        if path = ascii "/boot" then some ⟨ascii "emmc", ascii "/dev/boot"⟩
        else if path = ascii "/cache" then some ⟨ascii "ext4", ascii "/dev/cache"⟩
        else none
      product := ascii "p" }
  is_data_media := false
  blocks _ := [1, 2, 3, 4]
  attrs _ := []
  entries _ := .file (ascii "log") [] [5, 6] .nil
def smallParts : List Part :=
  [⟨ascii "cache", ⟨ascii "ext4", ascii "/dev/cache"⟩⟩, ⟨ascii "boot", ⟨ascii "emmc", ascii "/dev/boot"⟩⟩]
def smallArgs : List Bytes := [ascii "cache", ascii "boot"]
def goodAnswers : List Int := [0, 0, 0, 100, 50, 0, 4, 0, 0, 0, 0, 0, 0, 0, 0, 3, 0, 0, 0, 0]
def badAnswers : List Int := [0, 0, 0, 100, 50, 0, 4, 0, 0, 0, 0, 0, -1, 0, 0, 0, 0, 3, 0, 0, 0, 0]

theorem goodAnswers_complete : (do_backup smallSource smallArgs startBackup goodAnswers).value = some 0 ∧
    Complete smallSource (ascii "md5") smallParts (do_backup smallSource smallArgs startBackup goodAnswers).state := by
  have returns : (do_backup smallSource smallArgs startBackup goodAnswers).value = some 0 := by decide +kernel
  obtain ⟨opt_hash, partlist, asked, complete⟩ := backup_complete_iff smallArgs goodAnswers returns
  have request : requested smallSource smallArgs = some (ascii "md5", smallParts) := by decide +kernel
  obtain ⟨rfl, rfl⟩ : ascii "md5" = opt_hash ∧ smallParts = partlist := by simpa using request.symm.trans asked
  exact ⟨returns, complete.mpr (by decide +kernel)⟩
theorem badAnswers_incomplete : (do_backup smallSource smallArgs startBackup badAnswers).value = some 0 ∧
    requested smallSource smallArgs = some (ascii "md5", smallParts) ∧
    ¬ Complete smallSource (ascii "md5") smallParts (do_backup smallSource smallArgs startBackup badAnswers).state := by
  have three : (do_backup smallSource smallArgs startBackup badAnswers).state.appended.length = 3 := by decide +kernel
  have stored : (smallParts.flatMap (partRecords smallSource)).length = 2 := by decide +kernel
  refine ⟨by decide +kernel, by decide +kernel, ?_⟩
  rintro ⟨⟨sizes, whole⟩, _⟩
  rw [whole] at three
  simp [stored] at three

end Recovery.BackupResult
