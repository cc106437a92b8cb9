import Recovery.Restore

/-!
What a restore that returns 0 has seen.
-/
namespace Recovery.RestoreVerdict
open Memory Program Program.Prog Bu Restore List

variable (dev : Device)

/-! ## The hash along the records -/

def IsSod (r : Seen) : Prop := r.header.name = ascii "SOD"
def IsEod (r : Seen) : Prop := r.header.name = ascii "EOD"
instance (r : Seen) : Decidable (IsSod r) := inferInstanceAs (Decidable (_ = _))
instance (r : Seen) : Decidable (IsEod r) := inferInstanceAs (Decidable (_ = _))

def Seen.bytes (r : Seen) : Bytes := r.head ++ r.data
def hashName (r : Seen) : Bytes := sodValue "hash.name" r.contents

/-- The name of the hash and the hashed bytes after one more record. -/
def hashAfter : Option (Bytes × Bytes) → Seen → Option (Bytes × Bytes)
  | none, r => if IsSod r then some (hashName r, []) else none
  | some (name, data), r => some (if IsSod r then hashName r else name, data ++ Seen.bytes r)
/-- The name of the hash and the hashed bytes after some records; none before a start record. -/
def hashOf (seen : List Seen) : Option (Bytes × Bytes) := seen.foldl hashAfter none

/-- A start record names a hash and the product of the device. -/
structure SodAccepted (r : Seen) : Prop where
  hash : hashName r ≠ []
  named : sodValue "ro.build.product" r.contents ≠ []
  product : sodValue "ro.build.product" r.contents = dev.product
/-- An end record has the length and the hash of what was hashed after the records before it. -/
def EodMatched (before : List Seen) (r : Seen) : Prop :=
  eodMatches dev ((hashOf before).map Prod.fst) (((hashOf before).map Prod.snd).getD []) r.contents

/-- What holds of the records of a run that goes on. -/
structure Checked (seen : List Seen) : Prop where
  sods : ∀ r ∈ seen, IsSod r → SodAccepted dev r
  eods : ∀ before r after, seen = before ++ r :: after → IsEod r → EodMatched dev before r

private theorem checked_nil : Checked dev [] :=
  ⟨by simp,fun before r after equal => by simp at equal⟩

variable {seen before : List Seen} {t u : State} {h : Header}

private theorem checked_snoc {r : Seen} (checked : Checked dev seen) (sod : IsSod r → SodAccepted dev r)
    (eod : IsEod r → EodMatched dev seen r) : Checked dev (seen ++ [r]) := by
  constructor
  · intro other member isSod
    rcases mem_append.mp member with old | new
    · exact checked.sods other old isSod
    · obtain rfl := mem_singleton.mp new
      exact sod isSod
  · intro before other after equal isEod
    rcases eq_nil_or_concat after with rfl | ⟨more,last,rfl⟩
    · obtain ⟨rfl,rfl⟩ : seen = before ∧ r = other := by simpa using append_inj' equal rfl
      exact eod isEod
    · refine checked.eods before other more ?_ isEod
      rw [concat_eq_append,← cons_append,← append_assoc] at equal
      exact (append_inj' equal rfl).1

/-! ## One round -/

/-- The state keeps what the hash and the verdict depend on. -/
structure SameHash (s t : State) : Prop where
  input : t.input = s.input
  seen : t.seen = s.seen
  name : t.hash_name = s.hash_name
  hashed : t.hashed = s.hashed
  written : t.written = s.written
instance : IsPreorder State SameHash where
  refl _ := ⟨rfl, rfl, rfl, rfl, rfl⟩
  trans _ _ _ first second := ⟨second.input.trans first.input, second.seen.trans first.seen,
    second.name.trans first.name, second.hashed.trans first.hashed, second.written.trans first.written⟩

theorem leaveMount_keeps : Keeps SameHash leaveMount :=
  keeps_bind keeps_get fun _ => keeps_ite (fun _ => keeps_bind keeps_ask fun _ => keeps_pure _)
      fun _ => keeps_pure _
theorem update_progress_keeps {R : State → State → Prop} [IsPreorder State R] : Keeps R update_progress :=
  keeps_bind keeps_get fun _ => keeps_ite (fun _ => keeps_pure _) fun _ => keeps_stuck
theorem partSet_keeps (name : Bytes) : Keeps SameHash (partSet name) :=
  keeps_bind keeps_get fun _ => keeps_ite (fun _ => keeps_stuck) fun _ => keeps_modify fun _ => ⟨rfl,rfl,rfl,rfl,rfl⟩
theorem switchMount_keeps (pathname : Bytes) : Keeps SameHash (switchMount pathname) := by
  have answer {α : Type} {p : Int → Run α} (rest : ∀ rc, Keeps SameHash (p rc)) : Keeps SameHash (ask >>= p) :=
    keeps_bind keeps_ask rest
  refine keeps_bind keeps_get fun _ => keeps_ite (fun _ => ?_) fun _ => keeps_pure _
  refine keeps_bind leaveMount_keeps fun _ => ?_
  refine keeps_bind (keeps_modify fun _ => ⟨rfl,rfl,rfl,rfl,rfl⟩) fun _ => answer fun unmounted => ?_
  refine keeps_ite (fun _ => keeps_pure _) fun _ => answer fun formatted => ?_
  refine keeps_ite (fun _ => keeps_pure _) fun _ => answer fun mounted => ?_
  refine keeps_ite (fun _ => keeps_pure _) fun _ => ?_
  refine keeps_bind (partSet_keeps _) fun _ => ?_
  exact keeps_bind (keeps_modify fun _ => ⟨rfl,rfl,rfl,rfl,rfl⟩) fun _ => keeps_pure _
def PartsOnly (s t : State) : Prop := ∃ parts used, t = { s with partlist := parts, used := used }
instance : IsPreorder State PartsOnly where
  refl s := ⟨s.partlist, s.used, rfl⟩
  trans _ _ _ := by
    rintro ⟨_, _, rfl⟩ ⟨parts, used, rfl⟩
    exact ⟨parts, used, rfl⟩
theorem addParts_only (pairs : List (Bytes × Bytes)) : Keeps PartsOnly (addParts dev pairs) := by
  induction pairs with
  | nil => exact keeps_pure _
  | cons pair rest ih =>
    rw [addParts]
    split
    · exact ih
    · refine keeps_bind (keeps_modify fun s => ⟨_,s.used,rfl⟩) fun _ => keeps_bind keeps_get fun _ => ?_
      refine keeps_ite (fun _ => keeps_stuck) fun _ => ?_
      exact keeps_bind (keeps_modify fun s => ⟨s.partlist,_,rfl⟩) fun _ => ih
private theorem addParts_keeps (pairs : List (Bytes × Bytes)) : Keeps SameHash (addParts dev pairs) := by
  intro s as
  obtain ⟨parts,used,only⟩ := addParts_only dev pairs s as
  rw [only]
  exact ⟨rfl,rfl,rfl,rfl,rfl⟩

/-- Some bytes were read, and hashed if the hash has a name; some files were written. -/
structure Consumed (n : Nat) (writes : List (Bytes × Bytes)) (s t : State) : Prop where
  input : t.input = s.input.drop n
  seen : t.seen = s.seen
  name : t.hash_name = s.hash_name
  hashed : t.hashed = if s.hash_name.isSome then s.hashed ++ s.input.take n else s.hashed
  written : t.written = s.written ++ writes

theorem consumed_of_same {n : Nat} {writes : List (Bytes × Bytes)} {s : State} (consumed : Consumed n writes s t)
    (same : SameHash t u) : Consumed n writes s u :=
  ⟨same.input.trans consumed.input,same.seen.trans consumed.seen,same.name.trans consumed.name,
    same.hashed.trans consumed.hashed,same.written.trans consumed.written⟩
theorem consumed_from_same {n : Nat} {writes : List (Bytes × Bytes)} {s : State} (same : SameHash s t)
    (consumed : Consumed n writes t u) : Consumed n writes s u := by
  obtain ⟨input,seen,name,hashed,written⟩ := same
  exact ⟨by rw [consumed.input,input],consumed.seen.trans seen,consumed.name.trans name,
    by rw [consumed.hashed,name,hashed,input],by rw [consumed.written,written]⟩

theorem triple_same {α : Type} {P : State → Prop} {p : Run α} (kept : Keeps SameHash p)
    (carries : ∀ s t, SameHash s t → P s → P t) : Triple P p (fun _ => P) fun _ => True :=
  triple_conseq (triple_keeps kept carries) (fun _ holds => holds) (fun _ _ holds => holds) fun _ _ => trivial
theorem readBytes_triple (n : Nat) (s : State) :
    Triple (fun t => t = s) (readBytes n) (fun data t => data = s.input.take n ∧ Consumed n [] s t) fun _ => True := by
  refine triple_bind (Q := fun a t => a = s ∧ t = s) (triple_get fun t equal => ⟨equal,equal⟩) fun a => ?_
  refine triple_assume fun first both => ?_
  obtain ⟨rfl,rfl⟩ := both
  refine triple_bind (triple_modify (Q := fun _ => Consumed n [] first) fun t equal => ?_) fun _ => ?_
  · rw [equal]
    exact ⟨rfl,rfl,rfl,rfl,(append_nil _).symm⟩
  refine triple_bind (triple_same update_progress_keeps fun t u same read => consumed_of_same read same) fun _ => ?_
  exact triple_pure _ fun t read => ⟨rfl,read⟩
theorem readData_triple (n : Nat) (s : State) :
    Triple (fun t => t = s) (readData n) (fun data t => data = s.input.take n ∧ Consumed n [] s t) fun _ => True := by
  refine triple_ite (fun none => triple_pure _ fun t equal => ?_) fun _ => readBytes_triple n s
  rw [none,equal]
  exact ⟨rfl,rfl,rfl,rfl,by simp,by simp⟩
theorem contents_triple (h : Header) (s : State) :
    Triple (fun t => t = s) (tar_extract_file_contents h)
      (fun found t => ∀ data ∈ found, data = s.input.take h.dataLength ∧ Consumed h.dataLength [] s t) fun _ => True := by
  have whatever : Triple (fun t => t = s) update_progress (fun _ _ => True) (fun _ => True) :=
    fun _ _ _ => ⟨fun _ _ => trivial,fun _ => trivial⟩
  refine triple_bind (Q := fun _ t => t = s) (triple_get fun t equal => equal) fun a => ?_
  refine triple_ite (fun _ => triple_pure _ fun t _ => by simp) fun _ => ?_
  refine triple_ite (fun _ => triple_bind whatever fun _ => triple_pure _ fun t _ => by simp) fun _ => ?_
  refine triple_bind (readData_triple _ s) fun data => ?_
  refine triple_pure _ fun t both => ?_
  intro other member
  cases member
  exact both
theorem file_triple (h : Header) (path : Bytes) (s : State) :
    Triple (fun t => t = s) (tar_extract_file h path)
      (fun r t => r.1 = 0 → r.2 = s.input.take h.dataLength ∧ Consumed h.dataLength [(path, r.2.take h.size)] s t)
      fun _ => True := by
  have whatever {α : Type} {p : Run α} {P : State → Prop} : Triple P p (fun _ _ => True) (fun _ => True) :=
    fun _ _ _ => ⟨fun _ _ => trivial,fun _ => trivial⟩
  refine triple_ask_bind (fun _ _ => trivial) fun rc => ?_
  refine triple_bind (Q := fun _ t => t = s) (triple_get fun t equal => equal) fun _ => ?_
  refine triple_ite (fun bad => ?_) fun _ => triple_ite (fun _ => ?_) fun _ => ?_
  · refine triple_ask_bind (fun _ _ => trivial) fun _ => ?_
    exact triple_bind whatever fun _ => triple_pure _ fun t _ fine => absurd fine bad
  · exact triple_bind whatever fun _ => triple_pure _ fun t _ fine => by simp at fine
  refine triple_bind (readData_triple _ s) fun data => ?_
  refine triple_bind (triple_modify (Q := fun _ t => data = s.input.take h.dataLength ∧
    Consumed h.dataLength [(path,data.take h.size)] s t) fun t both => ⟨both.1,?_⟩) fun _ => ?_
  · obtain ⟨_,input,seen,name,hashed,written⟩ := both
    exact ⟨input,seen,name,hashed,by rw [written,append_nil]⟩
  · exact triple_pure _ fun t both _ => both

/-- The number of bytes that are read behind a header. -/
def readLength (h : Header) : Nat :=
  if (h.name = ascii "boot" ∨ h.name = ascii "recovery") ∧ dev.volume_for_path (47 :: h.name) = none then 0
  else h.dataLength
def target (h : Header) : Option Bytes :=
  if h.name = ascii "SOD" ∨ h.name = ascii "EOD" then none
  else if h.name = ascii "boot" ∨ h.name = ascii "recovery" then
    (dev.volume_for_path (47 :: h.name)).map Volume.blk_device
  else some h.name
def writes (h : Header) (data : Bytes) : List (Bytes × Bytes) :=
  (target dev h).toList.map fun path => (path, data.take h.size)
structure Done (h : Header) (saved : Bytes) (s : State) (data : Bytes) (t : State) : Prop where
  read : data = s.input.take (readLength dev h)
  input : t.input = s.input.drop (readLength dev h)
  seen : t.seen = s.seen
  hashed : t.hashed = if s.hash_name.isSome then s.hashed ++ data else s.hashed
  named : t.hash_name = if h.name = ascii "SOD" then some (sodValue "hash.name" (data.take h.size)) else s.hash_name
  sod : h.name = ascii "SOD" → ∀ head, SodAccepted dev ⟨h, head, data⟩
  eod : h.name = ascii "EOD" → eodMatches dev s.hash_name saved (data.take h.size)
  written : t.written = s.written ++ writes dev h data

private theorem readLength_sod (sod : h.name = ascii "SOD") : readLength dev h = h.dataLength := by
  refine if_neg fun both => ?_
  rw [sod] at both
  exact absurd both.1 (by decide)
private theorem readLength_eod (eod : h.name = ascii "EOD") : readLength dev h = h.dataLength := by
  refine if_neg fun both => ?_
  rw [eod] at both
  exact absurd both.1 (by decide)
private theorem writes_sod (sod : h.name = ascii "SOD") (data : Bytes) : writes dev h data = [] := by
  rw [writes,target,if_pos (Or.inl sod)]
  rfl
private theorem writes_eod (eod : h.name = ascii "EOD") (data : Bytes) : writes dev h data = [] := by
  rw [writes,target,if_pos (Or.inr eod)]
  rfl
theorem done_of_consumed {saved data : Bytes} {s : State} (sod : ¬ h.name = ascii "SOD")
    (eod : ¬ h.name = ascii "EOD") (read : data = s.input.take (readLength dev h))
    (consumed : Consumed (readLength dev h) (writes dev h data) s t) : Done dev h saved s data t :=
  ⟨read,consumed.input,consumed.seen,by rw [read]; exact consumed.hashed,by rw [if_neg sod]; exact consumed.name,
    fun is => absurd is sod,fun is => absurd is eod,consumed.written⟩

private theorem verify_sod_triple (h : Header) (saved : Bytes) (sod : h.name = ascii "SOD") (s : State) :
    Triple (fun t => t = s) (verify_sod dev h) (fun r t => r.1 = 0 → Done dev h saved s r.2 t) fun _ => True := by
  have other : ¬ h.name = ascii "EOD" := by rw [sod]; decide
  have length := readLength_sod dev sod
  refine triple_bind (contents_triple h s) fun found => ?_
  cases found with
  | none => exact triple_pure _ fun t _ fine => by simp at fine
  | some data =>
    refine triple_bind (Q := fun _ t => data = s.input.take h.dataLength ∧ Consumed h.dataLength [] s t) ?_ fun _ => ?_
    · refine triple_pre (triple_same (addParts_keeps dev _) ?_) fun t consumed => consumed data rfl
      exact fun t u same both => ⟨both.1,consumed_of_same both.2 same⟩
    refine triple_ite (fun _ => triple_stuck fun _ _ => trivial) fun _ => ?_
    refine triple_ite (fun _ => triple_pure _ fun t _ fine => by simp at fine) fun hash => ?_
    refine triple_bind (triple_modify (Q := fun _ t => data = s.input.take h.dataLength ∧
      t.input = s.input.drop h.dataLength ∧ t.seen = s.seen ∧
      (t.hashed = if s.hash_name.isSome then s.hashed ++ s.input.take h.dataLength else s.hashed) ∧
      t.hash_name = some (sodValue "hash.name" (data.take h.size)) ∧ t.written = s.written ++ [])
        fun t both => ⟨both.1,both.2.input,both.2.seen,both.2.hashed,rfl,both.2.written⟩) fun _ => ?_
    refine triple_ite (fun _ => triple_pure _ fun t _ fine => by simp at fine) fun named => ?_
    refine triple_ite (fun _ => triple_pure _ fun t _ fine => by simp at fine) fun product => ?_
    refine triple_pure _ fun t after _ => ?_
    obtain ⟨read,input,seen,hashed,name,written⟩ := after
    exact ⟨by rw [length]; exact read,by rw [length]; exact input,seen,by rw [read]; exact hashed,
      by rw [if_pos sod]; exact name,fun _ _ => ⟨hash,named,not_not.mp product⟩,fun eod => absurd eod other,
      by rw [writes_sod dev sod]; exact written⟩
theorem verify_eod_triple (h : Header) (saved : Bytes) (eod : h.name = ascii "EOD") (s : State) :
    Triple (fun t => t = s) (verify_eod dev h saved) (fun r t => r.1 = 0 → Done dev h saved s r.2 t) fun _ => True := by
  have other : ¬ h.name = ascii "SOD" := by rw [eod]; decide
  have length := readLength_eod dev eod
  refine triple_bind (contents_triple h s) fun found => ?_
  cases found with
  | none => exact triple_pure _ fun t _ fine => by simp at fine
  | some data =>
    refine triple_bind (Q := fun a t => a = t ∧ data = s.input.take h.dataLength ∧ Consumed h.dataLength [] s t)
      (triple_get fun t consumed => ⟨rfl,consumed data rfl⟩) fun a => ?_
    refine triple_pure _ fun t both fine => ?_
    obtain ⟨rfl,read,consumed⟩ := both
    have matched : eodMatches dev s.hash_name saved (data.take h.size) = true := by
      rw [← consumed.name]
      by_contra differs
      rw [if_neg differs] at fine
      simp at fine
    exact ⟨by rw [length]; exact read,by rw [length]; exact consumed.input,consumed.seen,
      by rw [read]; exact consumed.hashed,by rw [if_neg other]; exact consumed.name,fun sod => absurd sod other,
      fun _ => matched,by rw [writes_eod dev eod]; exact consumed.written⟩
theorem restoreRecord_triple (h : Header) (saved : Bytes) (s : State) :
    Triple (fun t => t = s) (restoreRecord dev h saved) (fun r t => r.1 = 0 → Done dev h saved s r.2 t)
      fun _ => True := by
  refine triple_ite (fun sod => verify_sod_triple dev h saved sod s) fun sod => ?_
  refine triple_ite (fun eod => verify_eod_triple dev h saved eod s) fun eod => ?_
  refine triple_ite (fun raw => ?_) fun raw => ?_
  · split
    next vol found =>
      have length : readLength dev h = h.dataLength := if_neg fun both => by simp [found] at both
      refine triple_bind (triple_from (partSet_keeps _) s) fun _ => triple_assume fun t same => ?_
      · refine triple_conseq (file_triple h _ t) (fun _ equal => equal) (fun r u read fine => ?_) fun _ _ => trivial
        obtain ⟨data,consumed⟩ := read fine
        have path : writes dev h r.2 = [(vol.blk_device,r.2.take h.size)] := by
          rw [writes,target,if_neg (not_or.mpr ⟨sod,eod⟩),if_pos raw,found]
          rfl
        refine done_of_consumed dev sod eod ?_ (path ▸ length ▸ consumed_from_same same consumed)
        rw [data,length,same.input]
    next missing =>
      have length : readLength dev h = 0 := if_pos ⟨raw,missing⟩
      refine triple_pure _ fun t equal _ => ?_
      subst equal
      refine done_of_consumed dev sod eod (by simp [length]) ?_
      have path : writes dev h [] = [] := by
        rw [writes,target,if_neg (not_or.mpr ⟨sod,eod⟩),if_pos raw,missing]
        rfl
      rw [length,path]
      exact ⟨rfl,rfl,rfl,by simp,by simp⟩
  · have length : readLength dev h = h.dataLength := if_neg fun both => raw both.1
    have told : Keeps SameHash (modify fun s => { s with calls := s.calls ++ [.extract h.name] } : Run Unit) :=
      keeps_modify fun _ => ⟨rfl,rfl,rfl,rfl,rfl⟩
    refine triple_bind (triple_from told s) fun _ => triple_assume fun t same => ?_
    refine triple_conseq (file_triple h _ t) (fun _ equal => equal) (fun r u read fine => ?_) fun _ _ => trivial
    obtain ⟨data,consumed⟩ := read fine
    have path : writes dev h r.2 = [(h.name,r.2.take h.size)] := by
      rw [writes,target,if_neg (not_or.mpr ⟨sod,eod⟩),if_neg raw]
      rfl
    refine done_of_consumed dev sod eod ?_ (path ▸ length ▸ consumed_from_same same consumed)
    rw [data,length,same.input]

/-! ## The loop -/

structure Agrees (s : State) : Prop where
  hash : s.hash_name = (hashOf s.seen).map Prod.fst
  data : s.hashed = ((hashOf s.seen).map Prod.snd).getD []
  checked : Checked dev s.seen

theorem hashOf_snoc (seen : List Seen) (r : Seen) : hashOf (seen ++ [r]) = hashAfter (hashOf seen) r :=
  foldl_concat hashAfter none r seen

/-- A round whose record was restored keeps the state in agreement with the records. -/
theorem agrees_snoc {n : Nat} {data : Bytes} {s : State} (agrees : Agrees dev s)
    (read : Consumed n [] s t) (done : Done dev h s.hashed t data u) :
    Agrees dev { u with seen := u.seen ++ [⟨h,s.input.take n,data⟩] } := by
  have seen : u.seen = s.seen := done.seen.trans read.seen
  have checked : Checked dev (s.seen ++ [⟨h,s.input.take n,data⟩]) := by
    refine checked_snoc dev agrees.checked (fun sod => done.sod sod _) fun eod => ?_
    have matched := done.eod eod
    rw [read.name,agrees.hash,agrees.data] at matched
    exact matched
  refine ⟨?_,?_,by rw [← seen] at checked; exact checked⟩
  · simp only [seen,hashOf_snoc,done.named,read.name,agrees.hash]
    cases hashOf s.seen <;> by_cases sod : h.name = ascii "SOD" <;> simp [hashAfter,IsSod,sod,hashName,Seen.contents]
  · simp only [seen,hashOf_snoc,done.hashed,read.hashed,read.name,agrees.hash,agrees.data]
    cases hashOf s.seen <;> by_cases sod : h.name = ascii "SOD" <;> simp [hashAfter,IsSod,sod,Seen.bytes]

theorem th_read_triple (s : State) : Triple (fun t => t = s) (th_read dev)
    (fun r t => r = ((dev.lib.th_read s.input).1, s.input.take (dev.lib.th_read s.input).2) ∧
      Consumed (dev.lib.th_read s.input).2 [] s t) fun _ => True := by
  refine triple_bind (Q := fun a t => a = s ∧ t = s) (triple_get fun t equal => ⟨equal,equal⟩) fun a => ?_
  refine triple_assume fun first both => ?_
  obtain ⟨rfl,rfl⟩ := both
  refine triple_bind (readBytes_triple _ first) fun head => ?_
  exact triple_pure _ fun u read => ⟨by rw [read.1],read.2⟩

/-- The records of a stream, as the loop cuts them. -/
def records : Nat → Bytes → List Seen
  | 0, _ => []
  | fuel + 1, input =>
    match dev.lib.th_read input with
    | (.header h, n) =>
      ⟨h, input.take n, (input.drop n).take (readLength dev h)⟩ ::
        records fuel ((input.drop n).drop (readLength dev h))
    | _ => []

theorem records_cons {input : Bytes} (fuel : Nat) (found : (dev.lib.th_read input).1 = .header h) :
    records dev (fuel + 1) input =
      ⟨h,input.take (dev.lib.th_read input).2,(input.drop (dev.lib.th_read input).2).take (readLength dev h)⟩ ::
        records dev fuel ((input.drop (dev.lib.th_read input).2).drop (readLength dev h)) := by
  rw [records]
  split
  next other n equal =>
    obtain rfl : other = h := by simpa [equal] using found
    simp [equal]
  next no => exact (no h _ (Prod.ext found rfl)).elim
theorem records_last {input : Bytes} (last : ∀ h, (dev.lib.th_read input).1 ≠ .header h) (fuel : Nat) :
    records dev fuel input = [] := by
  cases fuel with
  | zero => rfl
  | succ fuel =>
    rw [records]
    split
    next h n equal => exact absurd (by rw [equal]) (last h)
    next no => rfl

def SameSeen (s t : State) : Prop := t.seen = s.seen
instance : IsPreorder State SameSeen where
  refl _ := rfl
  trans _ _ _ first second := second.trans first
theorem sameSeen_of_keeps {α : Type} {p : Run α} (kept : Keeps SameHash p) : Keeps SameSeen p :=
  fun s as => (kept s as).seen
structure Still (s t : State) : Prop where
  seen : t.seen = s.seen
  mount : t.cur_mount = s.cur_mount
  calls : t.calls = s.calls
instance : IsPreorder State Still where
  refl _ := ⟨rfl, rfl, rfl⟩
  trans _ _ _ first second :=
    ⟨second.seen.trans first.seen, second.mount.trans first.mount, second.calls.trans first.calls⟩
theorem sameSeen_of_still {α : Type} {p : Run α} (kept : Keeps Still p) : Keeps SameSeen p :=
  fun s as => (kept s as).seen
theorem partSet_still (name : Bytes) : Keeps Still (partSet name) :=
  keeps_bind keeps_get fun _ => keeps_ite (fun _ => keeps_stuck) fun _ => keeps_modify fun _ => ⟨rfl,rfl,rfl⟩
theorem addParts_still (pairs : List (Bytes × Bytes)) : Keeps Still (addParts dev pairs) := by
  intro s as
  obtain ⟨parts,used,only⟩ := addParts_only dev pairs s as
  rw [only]
  exact ⟨rfl,rfl,rfl⟩
theorem readBytes_still (n : Nat) : Keeps Still (readBytes n) := by
  refine keeps_bind keeps_get fun _ => keeps_bind (keeps_modify fun _ => ⟨rfl,rfl,rfl⟩) fun _ => ?_
  exact keeps_bind update_progress_keeps fun _ => keeps_pure _
theorem readData_still (n : Nat) : Keeps Still (readData n) := keeps_ite (fun _ => keeps_pure _) fun _ => readBytes_still n
theorem th_read_still : Keeps Still (th_read dev) :=
  keeps_bind keeps_get fun _ => keeps_bind (readBytes_still _) fun _ => keeps_pure _
theorem contents_still (h : Header) : Keeps Still (tar_extract_file_contents h) := by
  refine keeps_bind keeps_get fun _ => keeps_ite (fun _ => keeps_pure _) fun _ => ?_
  refine keeps_ite (fun _ => keeps_bind update_progress_keeps fun _ => keeps_pure _) fun _ => ?_
  exact keeps_bind (readData_still _) fun _ => keeps_pure _
theorem file_still (h : Header) (path : Bytes) : Keeps Still (tar_extract_file h path) := by
  refine keeps_bind keeps_ask fun _ => ?_
  refine keeps_bind keeps_get fun _ => ?_
  refine keeps_ite (fun _ => keeps_bind keeps_ask fun _ => ?_) fun _ => keeps_ite (fun _ => ?_) fun _ => ?_
  · exact keeps_bind (keeps_ite (fun _ => update_progress_keeps) fun _ => keeps_pure _) fun _ => keeps_pure _
  · exact keeps_bind update_progress_keeps fun _ => keeps_pure _
  refine keeps_bind (readData_still _) fun _ => ?_
  exact keeps_bind (keeps_modify fun _ => ⟨rfl,rfl,rfl⟩) fun _ => keeps_pure _
theorem verify_sod_still (h : Header) : Keeps Still (verify_sod dev h) := by
  refine keeps_bind (contents_still h) fun found => ?_
  cases found with
  | none => exact keeps_pure _
  | some data =>
    refine keeps_bind (addParts_still dev _) fun _ => ?_
    refine keeps_ite (fun _ => keeps_stuck) fun _ => keeps_ite (fun _ => keeps_pure _) fun _ => ?_
    refine keeps_bind (keeps_modify fun _ => ⟨rfl,rfl,rfl⟩) fun _ => ?_
    exact keeps_ite (fun _ => keeps_pure _) fun _ => keeps_ite (fun _ => keeps_pure _) fun _ => keeps_pure _
theorem verify_eod_still (h : Header) (saved : Bytes) : Keeps Still (verify_eod dev h saved) := by
  refine keeps_bind (contents_still h) fun found => ?_
  cases found with
  | none => exact keeps_pure _
  | some data => exact keeps_bind keeps_get fun _ => keeps_pure _
theorem restoreRecord_seen (h : Header) (saved : Bytes) : Keeps SameSeen (restoreRecord dev h saved) := by
  refine keeps_ite (fun _ => sameSeen_of_still (verify_sod_still dev h)) fun _ => ?_
  refine keeps_ite (fun _ => sameSeen_of_still (verify_eod_still dev h saved)) fun _ => keeps_ite (fun _ => ?_) fun _ => ?_
  · split
    · exact sameSeen_of_still (keeps_bind (partSet_still _) fun _ => file_still h _)
    · exact keeps_pure _
  · exact keeps_bind (keeps_modify fun _ => rfl) fun _ => sameSeen_of_still (file_still h _)

/-- What the loop leaves behind a record. -/
structure Advanced (h : Header) (s v : State) : Prop where
  agrees : Agrees dev v
  input : v.input = (s.input.drop (dev.lib.th_read s.input).2).drop (readLength dev h)
  seen : v.seen = s.seen ++ [⟨h, s.input.take (dev.lib.th_read s.input).2,
    (s.input.drop (dev.lib.th_read s.input).2).take (readLength dev h)⟩]
  written : v.written =
    s.written ++ writes dev h ((s.input.drop (dev.lib.th_read s.input).2).take (readLength dev h))
theorem advanced_of_done {data : Bytes} {s : State} (agrees : Agrees dev s)
    (read : Consumed (dev.lib.th_read s.input).2 [] s t) (done : Done dev h s.hashed t data u) :
    Advanced dev h s
      { u with seen := u.seen ++ [⟨h,s.input.take (dev.lib.th_read s.input).2,data⟩] } := by
  have bytes : data = (s.input.drop (dev.lib.th_read s.input).2).take (readLength dev h) := by
    rw [done.read,read.input]
  refine ⟨agrees_snoc dev agrees read done,?_,?_,?_⟩
  · rw [← read.input]
    exact done.input
  · rw [← bytes,done.seen,read.seen]
  · rw [← bytes]
    rw [done.written,read.written,append_nil]

/-- One round at a record: the loop stops there with an error, gets stuck there, or goes on behind it. -/
theorem restoreLoop_round {fuel : Nat} {s : State} {Q : Int → State → Prop} {C : State → Prop}
    (found : (dev.lib.th_read s.input).1 = .header h) (agrees : Agrees dev s)
    (stops : ∀ rc u, rc ≠ 0 → u.seen = s.seen → Q rc u) (crash : ∀ u, u.seen = s.seen → C u)
    (next : ∀ v, Advanced dev h s v → Triple (fun t => t = v) (restoreLoop dev fuel) Q C) :
    Triple (fun t => t = s) (restoreLoop dev (fuel + 1)) Q C := by
  have still {α : Type} {p : Run α} {P : State → Prop} {R : α → State → Prop} (kept : Keeps SameSeen p)
      (start : ∀ t, P t → t.seen = s.seen) (body : Triple P p R fun _ => True) :
      Triple P p (fun a t => R a t ∧ t.seen = s.seen) C := by
    have seen : Triple (fun t => t.seen = s.seen) p (fun _ t => t.seen = s.seen) fun t => t.seen = s.seen :=
      triple_keeps kept fun t u same equal => same.trans equal
    exact triple_conseq (triple_and body (triple_pre seen start)) (fun _ holds => holds) (fun _ _ both => both)
      fun u both => crash u both.2
  refine triple_bind (Q := fun a t => a = s ∧ t = s) (triple_get fun t equal => ⟨equal,equal⟩) fun a => ?_
  refine triple_assume fun first both => ?_
  obtain ⟨rfl,rfl⟩ := both
  refine triple_bind (still (sameSeen_of_still (th_read_still dev)) (fun t equal => equal ▸ rfl)
    (th_read_triple dev first)) fun result => ?_
  refine triple_assume fun t read => ?_
  obtain ⟨⟨rfl,consumed⟩,_⟩ := read
  rw [found]
  have switch := triple_from (switchMount_keeps h.name) t
  refine triple_bind (still (sameSeen_of_keeps (switchMount_keeps _)) (fun u equal => equal ▸ consumed.seen) switch)
    fun rc => ?_
  refine triple_ite (fun bad => triple_pure _ fun u both => stops rc u bad both.2) fun _ => ?_
  refine triple_assume fun u both => ?_
  refine triple_bind (still (restoreRecord_seen dev h _) (fun v equal => equal ▸ both.2)
    (restoreRecord_triple dev h _ u)) fun result => ?_
  refine triple_ite (fun bad => triple_pure _ fun v both => stops _ v bad both.2) fun good => ?_
  refine triple_bind (triple_modify (Q := fun _ => Advanced dev h first) fun v done => ?_)
    fun _ => triple_assume fun v advanced => next v advanced
  exact advanced_of_done dev agrees (consumed_of_same consumed both.1) (done.1 (not_not.mp good))

theorem restoreLoop_last {fuel : Nat} {s : State} (last : ∀ h, (dev.lib.th_read s.input).1 ≠ .header h) :
    Triple (fun t => t = s) (restoreLoop dev (fuel + 1))
      (fun rc t => rc = (if (dev.lib.th_read s.input).1 = .eof then 0 else -1) ∧ t.seen = s.seen ∧ t.written = s.written)
      fun _ => True := by
  refine triple_bind (Q := fun a t => a = s ∧ t = s) (triple_get fun t equal => ⟨equal,equal⟩) fun a => ?_
  refine triple_assume fun first both => ?_
  obtain ⟨rfl,rfl⟩ := both
  refine triple_bind (th_read_triple dev first) fun result => triple_assume fun t read => ?_
  obtain ⟨rfl,consumed⟩ := read
  have written : t.written = first.written := by rw [consumed.written,append_nil]
  cases found : (dev.lib.th_read first.input).1 with
  | header h => exact absurd found (last h)
  | eof => exact triple_pure _ fun u equal => equal ▸ ⟨rfl,consumed.seen,written⟩
  | failed => exact triple_pure _ fun u equal => equal ▸ ⟨rfl,consumed.seen,written⟩

/-- A loop that returns 0 has restored the records of the stream, and checked them. -/
structure Restored (fuel : Nat) (s t : State) : Prop where
  seen : t.seen = s.seen ++ records dev fuel s.input
  checked : Checked dev t.seen
  written : t.written = s.written ++ (records dev fuel s.input).flatMap fun r => writes dev r.header r.data
theorem restoreLoop_triple (fuel : Nat) (s : State) (agrees : Agrees dev s) : Triple (fun t => t = s)
    (restoreLoop dev fuel) (fun rc t => rc = 0 → Restored dev fuel s t) fun _ => True := by
  induction fuel generalizing s with
  | zero => exact triple_stuck fun _ _ => trivial
  | succ fuel ih =>
    cases found : (dev.lib.th_read s.input).1 with
    | header h =>
      refine restoreLoop_round dev found agrees (fun rc u bad _ fine => absurd fine bad) (fun _ _ => trivial) ?_
      intro v advanced
      refine triple_conseq (ih v advanced.agrees) (fun _ equal => equal) (fun rc w post fine => ?_) fun _ _ => trivial
      obtain ⟨seen,checked,written⟩ := post fine
      rw [advanced.input] at seen written
      refine ⟨?_,checked,?_⟩
      · rw [seen,advanced.seen,records_cons dev fuel found,append_assoc,singleton_append]
      · rw [written,advanced.written,records_cons dev fuel found,flatMap_cons,append_assoc]
    | eof =>
      have last : ∀ h, (dev.lib.th_read s.input).1 ≠ .header h := by simp [found]
      refine triple_conseq (restoreLoop_last dev last) (fun _ equal => equal) (fun rc t post _ => ?_) fun _ _ => trivial
      obtain ⟨_,seen,written⟩ := post
      refine ⟨?_,?_,?_⟩
      · rw [records_last dev last,append_nil,seen]
      · rw [seen]
        exact agrees.checked
      · rw [records_last dev last,flatMap_nil,append_nil,written]
    | failed =>
      have last : ∀ h, (dev.lib.th_read s.input).1 ≠ .header h := by simp [found]
      refine triple_conseq (restoreLoop_last dev last) (fun _ equal => equal) (fun rc t post fine => ?_) fun _ _ => trivial
      simp [found,fine] at post

/-! ## The verdict -/

/-- Some records with their first start record and an end record behind everything. -/
structure Frame (seen before mid : List Seen) (sod eod : Seen) : Prop where
  records : seen = before ++ sod :: (mid ++ [eod])
  first : ∀ r ∈ before, ¬ IsSod r
  sod : IsSod sod
  eod : IsEod eod

/-- The bytes of the records between the start and the end record. -/
def dataSince (mid : List Seen) : Bytes := mid.flatMap Seen.bytes
/-- The hash that the last start record names. -/
def hashNameSince (sod : Seen) (mid : List Seen) : Bytes :=
  mid.foldl (fun name r => if IsSod r then hashName r else name) (hashName sod)

theorem fold_named (mid : List Seen) (name data : Bytes) : mid.foldl hashAfter (some (name, data)) =
    some (mid.foldl (fun name r => if IsSod r then hashName r else name) name, data ++ dataSince mid) := by
  induction mid generalizing name data with
  | nil => simp [dataSince]
  | cons r mid ih => simp [hashAfter,ih,dataSince]
theorem hashOf_none (first : ∀ r ∈ before, ¬ IsSod r) : hashOf before = none := by
  unfold hashOf
  induction before with
  | nil => rfl
  | cons r before ih =>
    rw [foldl_cons,hashAfter,if_neg (first r (by simp))]
    exact ih fun other member => first other (mem_cons_of_mem _ member)
theorem hashOf_since {sod : Seen} (mid : List Seen) (first : ∀ r ∈ before, ¬ IsSod r)
    (isSod : IsSod sod) : hashOf (before ++ sod :: mid) = some (hashNameSince sod mid, dataSince mid) := by
  have start : before.foldl hashAfter none = none := hashOf_none first
  rw [hashOf,foldl_append,start,foldl_cons,hashAfter,if_pos isSod,fold_named,nil_append]
  rfl

/-- What the return code 0 is to say of the records: a start record was accepted, and an end
    record behind everything has the length and the hash of what was read since. -/
def Verified (seen : List Seen) : Prop :=
  ∃ before sod mid eod, Frame seen before mid sod eod ∧ SodAccepted dev sod ∧
    reportedLength dev eod.contents = (dataSince mid).length ∧
    lastValue (ascii "hash.value") eod.contents =
      some (dev.hashing.hexdigest (some (hashNameSince sod mid)) (dataSince mid))
/-- A stream with a start record and with an end record behind everything. The length of the data
    fits its counter, and the text of the hash is no longer than a digest. -/
def Framed (seen : List Seen) : Prop :=
  ∃ before sod mid eod, Frame seen before mid sod eod ∧ (dataSince mid).length < 2 ^ dev.hashing.bits ∧
    ∀ value ∈ lastValue (ascii "hash.value") eod.contents, value.length ≤ hexLength (some (hashNameSince sod mid))

variable {dev}

theorem matched_of_frame {mid : List Seen} {sod eod : Seen} (checked : Checked dev seen)
    (frame : Frame seen before mid sod eod) :
    reportedLength dev eod.contents = (dataSince mid).length % 2 ^ dev.hashing.bits ∧
      dev.hashing.hexdigest (some (hashNameSince sod mid)) (dataSince mid) <+: reportedHash eod.contents := by
  have matched := checked.eods (before ++ sod :: mid) eod [] (by rw [frame.records]; simp) frame.eod
  simpa [EodMatched,hashOf_since mid frame.first frame.sod,eodMatches,Hashing.datalen] using matched
theorem eq_of_reported {text digest value : Bytes} (found : lastValue (ascii "hash.value") text = some value)
    (same : digest <+: reportedHash text) (short : value.length ≤ digest.length) : value = digest := by
  have front : digest <+: value := same.trans (by rw [reportedHash,found]; exact List.take_prefix _ _)
  exact (front.eq_of_length_le short).symm

theorem verified_iff_framed_of_checked (lawful : dev.hashing.Lawful) (checked : Checked dev seen) :
    Verified dev seen ↔ Framed dev seen := by
  constructor
  · rintro ⟨before,sod,mid,eod,frame,_,length,hash⟩
    refine ⟨before,sod,mid,eod,frame,?_,?_⟩
    · rw [← length,(matched_of_frame checked frame).1]
      exact Nat.mod_lt _ (Nat.two_pow_pos _)
    · intro value member
      obtain rfl := Option.some.inj (hash.symm.trans member)
      rw [hexdigest_length lawful]
  · rintro ⟨before,sod,mid,eod,frame,small,short⟩
    obtain ⟨length,same⟩ := matched_of_frame checked frame
    have accepted := checked.sods sod (by rw [frame.records]; simp) frame.sod
    refine ⟨before,sod,mid,eod,frame,accepted,length.trans (Nat.mod_eq_of_lt small),?_⟩
    cases found : lastValue (ascii "hash.value") eod.contents with
    | none =>
      -- an empty text has no digest in front
      have none := same.length_le
      rw [hexdigest_length lawful,reportedHash,found] at none
      unfold hexLength at none
      split at none <;> simp at none
    | some value =>
      refine congrArg some (eq_of_reported found same ?_)
      rw [hexdigest_length lawful]
      exact short value found

theorem agrees_start (stream : Bytes) : Agrees dev (startRestore stream) := ⟨rfl,rfl,checked_nil dev⟩
theorem restored_of_same {fuel : Nat} {s : State} (same : SameHash t u) (restored : Restored dev fuel s t) :
    Restored dev fuel s u :=
  ⟨same.seen.trans restored.seen,same.seen.symm ▸ restored.checked,same.written.trans restored.written⟩
theorem do_restore_tree_restored {fuel : Nat} {stream : Bytes} {as : List Int}
    (returns : (do_restore_tree dev fuel (startRestore stream) as).value = some 0) :
    Restored dev fuel (startRestore stream) (do_restore_tree dev fuel (startRestore stream) as).state := by
  have whole : Triple (fun t => t = startRestore stream) (do_restore_tree dev fuel)
      (fun rc t => rc = 0 → Restored dev fuel (startRestore stream) t) fun _ => True := by
    refine triple_bind (restoreLoop_triple dev fuel _ (agrees_start stream)) fun rc => ?_
    refine triple_bind (triple_same leaveMount_keeps ?_) fun _ => triple_pure _ fun t post => post
    exact fun s t same post fine => restored_of_same same (post fine)
  exact (whole _ as rfl).1 0 returns rfl

/-- A restore that returns 0 has verified the backup if and only if the stream is framed. -/
theorem restore_verified_iff_framed (lawful : dev.hashing.Lawful) (fuel : Nat) (stream : Bytes) (as : List Int)
    (returns : (do_restore_tree dev fuel (startRestore stream) as).value = some 0) :
    Verified dev (do_restore_tree dev fuel (startRestore stream) as).state.seen ↔
      Framed dev (records dev fuel stream) := by
  have restored := do_restore_tree_restored returns
  rw [verified_iff_framed_of_checked lawful restored.checked, restored.seen]
  rfl

/-! A device with one partition, and two streams for it. -/

def plainDevice : Device where
  lib := blockTar
  hashing := plainHashing
  volume_for_path path := if path = ascii "/boot" then some ⟨ascii "mtd", ascii "/dev/boot"⟩ else none
  product := ascii "p"
def regularHeader (name : String) (data : Bytes) : Header := ⟨ascii name, true, data.length, noAttrs⟩
def regularRecord (name : String) (data : Bytes) : Bytes := blockTar.record (regularHeader name data) data
def seenOf (name : String) (data : Bytes) : Seen :=
  ⟨regularHeader name data, blockWrite (regularHeader name data), padded data⟩
def plainSod : Bytes := ascii "hash.name=md5\nro.build.product=p\nfs.boot.size=4\nfs.boot.used=4\n"
def bootRecord : Bytes := regularRecord "boot" [1, 2, 3, 4]
def cutStream : Bytes := regularRecord "SOD" plainSod ++ bootRecord
def plainEod : Bytes :=
  ascii "hash.datalen=" ++ decimal bootRecord.length ++ ascii "\nhash.value=" ++ hex (leBytes 16 bootRecord.length) ++ [10]
def wholeStream : Bytes := cutStream ++ regularRecord "EOD" plainEod

theorem wholeStream_verified : (do_restore_tree plainDevice 5 (startRestore wholeStream) [0]).value = some 0 ∧
    Verified plainDevice (do_restore_tree plainDevice 5 (startRestore wholeStream) [0]).state.seen := by
  have returns : (do_restore_tree plainDevice 5 (startRestore wholeStream) [0]).value = some 0 := by decide +kernel
  refine ⟨returns, (restore_verified_iff_framed plainHashing_lawful 5 wholeStream [0] returns).mpr ?_⟩
  refine ⟨[], seenOf "SOD" plainSod, [seenOf "boot" [1, 2, 3, 4]], seenOf "EOD" plainEod, ?_, ?_, ?_⟩
  · exact ⟨by decide +kernel, by simp, rfl, rfl⟩
  · decide +kernel
  · decide +kernel
theorem cutStream_not_verified : (do_restore_tree plainDevice 5 (startRestore cutStream) [0]).value = some 0 ∧
    ¬ Verified plainDevice (do_restore_tree plainDevice 5 (startRestore cutStream) [0]).state.seen := by
  have noEnd : ∀ r ∈ (do_restore_tree plainDevice 5 (startRestore cutStream) [0]).state.seen, ¬ IsEod r := by
    decide +kernel
  refine ⟨by decide +kernel, ?_⟩
  rintro ⟨before, sod, mid, eod, frame, _⟩
  exact noEnd eod (by rw [frame.records]; simp) frame.eod

end Recovery.RestoreVerdict
