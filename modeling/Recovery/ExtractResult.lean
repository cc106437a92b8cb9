import Recovery.ExtractPaths
import Recovery.ZipBounds

/-!
What the result of `mzExtractRecursive` says. All the data of an entry was read,
decompressed and delivered when `mzProcessZipEntryContents` returns true; the loop reports
every failure but one, that of a regular file that was created.
-/
namespace Recovery.ExtractResult
open Memory Numbers Program Tracing Tracing.Traced DirUtil List Option
open ZipArchive ZipOrder ZipNames ZipBounds Extract ExtractPaths

/-! ## The contents of an entry -/

/-- zlib makes `out` of data that it gets piece by piece, and comes to the end. -/
inductive Decodes (Z : Inflater) : Z.State → Bytes → Bytes → Prop where
  | ends {z : Z.State} {data input : Bytes} {room : Nat} (given : input <+: data) :
      Decodes Z z data (Z.inflate z input room Z_STREAM_END).2.2
  | goesOn {z : Z.State} {data input more : Bytes} {room : Nat} (given : input <+: data)
      (rest : Decodes Z (Z.inflate z input room Z_OK).1 (data.drop (Z.inflate z input room Z_OK).2.1) more) :
      Decodes Z z data ((Z.inflate z input room Z_OK).2.2 ++ more)

/-- The bytes that an entry stands for: what is stored, or what zlib makes of it. -/
def Contents (abi : Abi) (file : Bytes) (Z : Inflater) (e : ZipEntry) (w : Bytes) : Prop :=
  (e.compression = STORED ∧ w = (file.drop e.offset.toNat).take e.compLen.toNat ∧ (w.length : Int) = e.compLen) ∨
  (e.compression = DEFLATED ∧ (∃ z, Z.init = some z ∧ Decodes Z z ((file.drop e.offset.toNat).take e.compLen.toNat) w) ∧
    abi.long w.length = e.uncompLen)

section
variable {σ : Type} {abi : Abi} {file : Bytes} {K : Bytes → σ → Prop} {process : Bytes → Prog σ Int Bool}

/-- A process function takes all of the data when it returns true; `K` tells what it has
    taken. -/
def Delivers (K : Bytes → σ → Prop) (process : Bytes → Prog σ Int Bool) : Prop :=
  ∀ taken data, Triple (K taken) (process data) (fun ok s => ok = true → K (taken ++ data) s) fun _ => True

theorem readAt_all {pos count : Nat} {answer : Int} (all : (readAt file pos count answer).1 = count) :
    (readAt file pos count answer).2 = (file.drop pos).take count ∧ ((file.drop pos).take count).length = count := by
  unfold readAt at *
  split at all
  · omega
  rename_i positive
  rw [if_neg positive]
  simp only [length_take,length_drop] at all ⊢
  have same : min answer.toNat count = count := by omega
  exact ⟨by rw [same],by omega⟩

/-- A rule for the loop of `processStoredEntry`: `I k` holds when `k` bytes were processed. -/
theorem stored_loop {I : Nat → σ → Prop} {Q : Bool → σ → Prop} {C : σ → Prop} (e : ZipEntry) (pos : Nat)
    (round : ∀ k count, k + count ≤ unsigned abi.bits e.compLen → k + count ≤ file.length - pos →
      (k + count = unsigned abi.bits e.compLen ∨ count = bufferSize) →
      Triple (I k) (process (((file.drop pos).drop k).take count)) (fun ok s => if ok then I (k + count) s else Q false s) C)
    (fails : ∀ k s, I k s → C s ∧ Q false s) (done : ∀ s, I (unsigned abi.bits e.compLen) s → Q true s) :
    Triple (I 0) (processStoredEntry abi file e pos process) Q C := by
  unfold processStoredEntry
  generalize unsigned abi.bits e.compLen = total at round done
  refine triple_pre (triple_iterate (I := fun loop s => ∃ k, I k s ∧ k + loop.1 = total ∧ loop.2 = pos + k) ?_
    (fun _ s ⟨k,holds,_⟩ => (fails k s holds).1) (total,pos)) fun s holds => ⟨0,holds,by simp,rfl⟩
  rintro ⟨left,place⟩
  refine triple_assume fun s ⟨k,holds,sum,reached⟩ => ?_
  dsimp only at sum reached ⊢
  subst reached
  refine triple_ite (fun more => ?_) fun none => triple_pure _ fun t same => ?_
  · generalize chunk : (if left > bufferSize then bufferSize else left) = count
    have positive : 0 < count ∧ count ≤ left ∧ (count = left ∨ count = bufferSize) := by
      have : 0 < bufferSize := by decide
      split at chunk <;> omega
    refine triple_ask_bind (fun t same => same ▸ (fails k s holds).1) fun answer => ?_
    refine triple_ite (fun _ => triple_pure _ fun t same => same ▸ (fails k s holds).2) fun whole => ?_
    obtain ⟨bytes,length⟩ := readAt_all (not_not.mp fun short => whole (.inr short))
    rw [length_take,length_drop] at length
    rw [bytes,← drop_drop]
    refine triple_bind (triple_pre (round k count (by omega) (by omega) (by omega)) fun t same => same ▸ holds) fun ok => ?_
    refine triple_ite (fun good => triple_pure _ fun t known => ?_) fun bad => triple_pure _ fun t known => ?_
    · rw [if_pos good] at known
      exact ⟨k + count,known,by dsimp only; omega,by dsimp only; omega⟩
    · rw [if_neg bad] at known
      exact known
  · obtain rfl : k = total := by omega
    exact same ▸ done s holds

theorem stored_delivers (deliver : Delivers K process) (e : ZipEntry) (pos : Nat) (taken : Bytes) :
    Triple (K taken) (processStoredEntry abi file e pos process)
      (fun ok s => ok = true → ∃ w, K (taken ++ w) s ∧ w = (file.drop pos).take (unsigned abi.bits e.compLen) ∧
        w.length = unsigned abi.bits e.compLen) fun _ => True := by
  refine triple_pre (stored_loop (I := fun k s => K (taken ++ (file.drop pos).take k) s ∧ k ≤ file.length - pos) e pos
    (fun k count few inside _ => ?_) (fun _ _ _ => ⟨trivial,nofun⟩) fun s ⟨known,inside⟩ _ => ?_) fun s known => ?_
  · refine triple_conseq (deliver _ _) (fun _ holds => holds.1) (fun ok s delivered => ?_) fun _ _ => trivial
    split
    · rw [take_add,← append_assoc]
      exact ⟨delivered ‹_›,inside⟩
    · nofun
  · exact ⟨_,known,rfl,by rw [length_take,length_drop]; omega⟩
  · exact ⟨by simpa using known,Nat.zero_le _⟩

/-- The data that zlib has not been given yet or has not consumed. -/
def pending {Z : Inflater} (file : Bytes) (l : Inflating Z) : Bytes :=
  l.next_in ++ (file.drop l.pos).take l.compRemaining.toNat

/-- What has been processed, and that the rest of the data makes the rest of the contents. -/
def Decoding {Z : Inflater} (K : Bytes → σ → Prop) (abi : Abi) (file data : Bytes) (z : Z.State) (taken : Bytes) (l : Inflating Z)
    (s : σ) : Prop :=
  ∃ out, K (taken ++ out) s ∧ l.total_out = abi.ptr (out.length + l.procBuf.length) ∧
    ∀ more, Decodes Z l.zstream (pending file l) more → Decodes Z z data (out ++ l.procBuf ++ more)

private theorem refill_keeps {Z : Inflater} {data taken : Bytes} {z : Z.State} (l : Inflating Z) :
    Triple (Decoding K abi file data z taken l) (refill file l)
      (fun r s => ∀ l', r = some l' → Decoding K abi file data z taken l' s) fun _ => True := by
  refine triple_ite (fun empty => ?_) fun _ => triple_pure _ fun s holds l' same => by cases same; exact holds
  dsimp only
  generalize chunk : (if l.compRemaining > bufferSize then (bufferSize : Int) else l.compRemaining) = getSize
  refine triple_ite (fun _ => triple_stuck fun _ _ => trivial) fun positive => ?_
  refine triple_ask_bind (fun _ _ => trivial) fun answer => ?_
  refine triple_ite (fun _ => triple_pure _ fun _ _ _ none => by cases none) fun whole => triple_pure _ fun s holds l' same => ?_
  cases same
  obtain ⟨out,known,total,rest⟩ := holds
  have all : (readAt file l.pos getSize.toNat answer).1 = getSize.toNat := by
    omega
  have bytes := (readAt_all all).1
  refine ⟨out,known,total,fun more decoded => rest more ?_⟩
  have same : pending file l = (readAt file l.pos getSize.toNat answer).2 ++
      (file.drop (l.pos + getSize.toNat)).take (l.compRemaining - getSize).toNat := by
    rw [pending,length_eq_zero_iff.mp empty,bytes,nil_append,← drop_drop,← take_add]
    congr 1
    omega
  rw [same]
  exact decoded

theorem ptr_ptr_add (a b : Nat) : abi.ptr (abi.ptr a + b) = abi.ptr (a + b) := Nat.mod_add_mod _ _ _
theorem long_ptr (n : Nat) : abi.long (abi.ptr n) = abi.long n := by
  unfold Abi.long Abi.ptr wrap
  push_cast
  exact Int.emod_bmod _ _

section
variable {Z : Inflater} {data taken : Bytes} {z : Z.State} {l : Inflating Z} {s : σ}

theorem given_pending : l.next_in <+: pending file l := prefix_append _ _
/-- After a call of `inflate` the rest of the data makes the rest of the contents, or the
    contents have been made. -/
theorem Decoding.inflated (holds : Decoding K abi file data z taken l s) (zerr : Int) : ∃ out, K (taken ++ out) s ∧
    (inflated abi l zerr).total_out = abi.ptr (out.length + (inflated abi l zerr).procBuf.length) ∧
    (zerr = Z_OK → ∀ more, Decodes Z (inflated abi l zerr).zstream (pending file (inflated abi l zerr)) more →
      Decodes Z z data (out ++ (inflated abi l zerr).procBuf ++ more)) ∧
    (zerr = Z_STREAM_END → Decodes Z z data (out ++ (inflated abi l zerr).procBuf)) := by
  obtain ⟨out,known,total,rest⟩ := holds
  refine ⟨out,known,?_,?_,?_⟩
  · simp only [Extract.inflated]
    rw [total,ptr_ptr_add,length_append,Nat.add_assoc]
  · rintro rfl more decoded
    have consumed := Z.consumed_le l.zstream l.next_in (bufferSize - l.procBuf.length) Z_OK
    have left : pending file (Extract.inflated abi l Z_OK) =
        (pending file l).drop (Z.inflate l.zstream l.next_in (bufferSize - l.procBuf.length) Z_OK).2.1 :=
      (drop_append_of_le_length consumed).symm
    rw [left] at decoded
    simpa only [Extract.inflated,append_assoc] using rest _ (.goesOn given_pending decoded)
  · rintro rfl
    simpa only [Extract.inflated,append_assoc] using rest _ (.ends given_pending)

end

private theorem inflateLoop_delivers (deliver : Delivers K process) {Z : Inflater} (z : Z.State) (compLen : Int) (pos : Nat) (taken : Bytes) :
    Triple (K taken) (inflateLoop abi file process ⟨z,compLen,pos,[],[],0⟩)
      (fun result s => result = -1 ∨ ∃ w, K (taken ++ w) s ∧ Decodes Z z ((file.drop pos).take compLen.toNat) w ∧
        result = abi.long w.length) fun _ => True := by
  refine triple_pre (triple_iterate (I := Decoding K abi file ((file.drop pos).take compLen.toNat) z taken) ?_
    (fun _ _ _ => trivial) _) ?_
  · intro l
    refine triple_bind (refill_keeps l) fun r => ?_
    cases r with
    | none => exact triple_pure _ fun _ _ => .inl rfl
    | some l =>
      refine triple_ask_bind (fun _ _ => trivial) fun zerr => ?_
      refine triple_ite (fun _ => triple_pure _ fun _ _ => .inl rfl) fun good => ?_
      refine triple_assume fun s holds => ?_
      obtain ⟨out,known,total,goesOn,ends⟩ := (holds l rfl).inflated zerr
      refine triple_ite (fun _ => ?_) fun kept => triple_pure _ fun t same => ?_
      · refine triple_bind (triple_pre (deliver _ _) fun t same => same ▸ known) fun ok => ?_
        refine triple_ite (fun done => triple_pure _ fun t delivered => ?_) fun _ => triple_pure _ fun _ _ => .inl rfl
        have whole := delivered done
        rw [append_assoc] at whole
        split
        · exact ⟨_,whole,by simp [total],by rw [append_nil]; exact goesOn ‹_›⟩
        · exact .inr ⟨_,whole,ends (by tauto),by rw [total,long_ptr,length_append]⟩
      · subst same
        split
        · exact ⟨out,known,total,goesOn ‹_›⟩
        have nothing : (inflated abi l zerr).procBuf = [] := by
          by_contra some
          exact kept (.inr ⟨by tauto,fun none => some (length_eq_zero_iff.mp none)⟩)
        rw [nothing] at total ends
        exact .inr ⟨out,known,by simpa using ends (by tauto),by simp [total,long_ptr]⟩
  · refine fun s known => ⟨[],by rwa [append_nil],?_,fun more decoded => decoded⟩
    simp [Abi.ptr]

/-- The numbers of an entry are what the archive says. -/
structure Plain (abi : Abi) (e : ZipEntry) : Prop where
  offset : 0 ≤ e.offset
  compLen : 0 ≤ e.compLen
  size : e.compLen < 2 ^ abi.bits
  uncompLen : 0 ≤ e.uncompLen

theorem process_delivers (deliver : Delivers K process) (Z : Inflater) (oldOff : Nat) {e : ZipEntry} (plain : Plain abi e)
    (taken : Bytes) : Triple (K taken) (mzProcessZipEntryContents abi file Z oldOff e process)
      (fun ok s => ok = true → ∃ w, K (taken ++ w) s ∧ Contents abi file Z e w) fun _ => True := by
  have size : unsigned abi.bits e.compLen = e.compLen.toNat := by
    rw [unsigned,Int.emod_eq_of_lt plain.compLen plain.size]
  unfold mzProcessZipEntryContents
  rw [if_neg (not_lt.mpr plain.offset)]
  refine triple_ite (fun stored => ?_) fun _ => triple_ite (fun deflated => ?_) fun _ => triple_pure _ fun _ _ wrong => by cases wrong
  · refine triple_conseq (stored_delivers deliver e e.offset.toNat taken) (fun _ holds => holds) (fun ok s holds done => ?_)
      fun _ _ => trivial
    obtain ⟨w,known,part,length⟩ := holds done
    rw [size] at part length
    have := plain.compLen
    exact ⟨w,known,.inl ⟨stored,part,by omega⟩⟩
  · unfold processDeflatedEntry
    cases init : Z.init with
    | none =>
      refine triple_pure _ fun _ _ done => ?_
      have := plain.uncompLen
      have := of_decide_eq_true done
      omega
    | some z =>
      refine triple_bind (inflateLoop_delivers deliver z e.compLen e.offset.toNat taken) fun result => triple_pure _ fun s holds done => ?_
      have same : result = e.uncompLen := of_decide_eq_true done
      have := plain.uncompLen
      obtain failed | ⟨w,known,decoded,length⟩ := holds
      · omega
      · exact ⟨w,known,.inr ⟨deflated,⟨z,init,decoded⟩,length ▸ same⟩⟩

end

theorem write_delivers : Delivers (fun taken written => written = taken) writeProcessFunction := by
  intro taken data
  refine triple_pre (triple_iterate (I := fun soFar written => soFar ≤ data.length ∧ written = taken ++ data.take soFar) ?_
    (fun _ _ _ => trivial) 0) ?_
  · intro soFar
    refine triple_ask_bind (fun _ _ => trivial) fun answer => ?_
    generalize least : min answer ((data.length : Int) - soFar) = n
    refine triple_ite (fun _ => triple_pure _ fun s holds => ?_) fun positive => ?_
    · split
      · intro wrong
        cases wrong
      · exact holds
    · refine triple_bind (triple_modify (Q := fun _ written => soFar + n.toNat ≤ data.length ∧
        written = taken ++ data.take (soFar + n.toNat)) fun s ⟨inside,holds⟩ => ⟨by omega,?_⟩) fun _ => triple_pure _ fun s holds => ?_
      · rw [holds,append_assoc,← take_add]
      split
      · rename_i all
        intro _
        rw [holds.2,all,take_length]
      · split
        · intro wrong
          cases wrong
        · exact holds
  · exact fun s known => ⟨by omega,by simp [known]⟩
def Copied (size : Int) (taken : Bytes) (args : CopyProcessArgs) : Prop :=
  args.buf = taken ∧ args.bufLen = size - taken.length ∧ (taken = [] ∨ (taken.length : Int) ≤ size)

theorem copy_delivers (size : Int) : Delivers (Copied size) copyProcessFunction := by
  intro taken data
  refine triple_bind (triple_get (Q := fun args s => args = s ∧ Copied size taken args) fun s holds => ⟨rfl,holds⟩) fun args => ?_
  refine triple_ite (fun fits => ?_) fun _ => triple_pure _ fun _ _ wrong => by cases wrong
  refine triple_bind (triple_modify (Q := fun _ => Copied size (taken ++ data)) fun s holds => ?_) fun _ =>
    triple_pure _ fun _ holds _ => holds
  obtain ⟨-,copied,room,-⟩ := holds
  refine ⟨by rw [copied],?_,.inr ?_⟩
  · rw [length_append]
    dsimp only
    omega
  · rw [length_append]
    omega

private theorem extractToFile_contents {abi : Abi} {file : Bytes} {Z : Inflater} {oldOff : Nat} {e : ZipEntry} (plain : Plain abi e)
    {io : List Int} (done : (mzExtractZipEntryToFile abi file Z oldOff e [] io).value = some true) :
    Contents abi file Z e (mzExtractZipEntryToFile abi file Z oldOff e [] io).state := by
  obtain ⟨w,same,contents⟩ := (process_delivers write_delivers Z oldOff plain [] [] io rfl).1 true done rfl
  have written : (mzExtractZipEntryToFile abi file Z oldOff e [] io).state = w := same
  rwa [written]
private theorem readZipEntry_contents {abi : Abi} {file : Bytes} {Z : Inflater} {oldOff : Nat} {e : ZipEntry} (plain : Plain abi e)
    {bufLen : Int} {io : List Int} (done : (mzReadZipEntry abi file Z oldOff e ⟨[],bufLen⟩ io).value = some true) :
    ∃ w, (mzReadZipEntry abi file Z oldOff e ⟨[],bufLen⟩ io).state.buf = w ∧ (w = [] ∨ (w.length : Int) ≤ bufLen) ∧
      Contents abi file Z e w := by
  have start : Copied bufLen [] ⟨[],bufLen⟩ := ⟨rfl,by simp,.inl rfl⟩
  obtain ⟨w,copied,contents⟩ := (process_delivers (copy_delivers bufLen) Z oldOff plain [] ⟨[],bufLen⟩ io start).1 true done rfl
  exact ⟨w,copied.1,copied.2.2,contents⟩

/-! ## What is made of an entry -/

section
variable {T : Type} (abi : Abi) (mem : Mem) (file : Bytes) (flags : Flags) (timestamp : Option T)

def Touched (calls : List (Call T)) (path : Bytes) : Prop := ∀ t, timestamp = some t → .utime path t true ∈ calls
def Filled (Z : Inflater) (e : ZipEntry) (path : Bytes) (calls : List (Call T)) : Prop :=
  .creat path true ∈ calls ∧ (∃ w, .extract w true ∈ calls ∧ Contents abi file Z e w) ∧ Touched timestamp calls path
def Linked (Z : Inflater) (e : ZipEntry) (path : Bytes) (calls : List (Call T)) : Prop :=
  (∃ w more, .symlink (cString (w ++ more)) path true ∈ calls ∧ Contents abi file Z e w) ∧ Touched timestamp calls path

def IsLink (e : ZipEntry) : Prop := ¬ flags.MZ_EXTRACT_FILES_ONLY ∧ mzIsZipEntrySymlink e
instance (e : ZipEntry) : Decidable (IsLink flags e) := inferInstanceAs (Decidable (_ ∧ _))

/-- The entry was created, extracted completely and timestamped. -/
def Created (Z : Inflater) (e : ZipEntry) (path : Bytes) (calls : List (Call T)) : Prop :=
  if endsInSlash abi mem e then Hierarchy timestamp calls (path ++ [slash])
  else if IsLink flags e then Linked abi file timestamp Z e path calls
  else Filled abi file timestamp Z e path calls

/-- An entry that has to be created: without `MZ_EXTRACT_DRY_RUN`, and no directory with
    `MZ_EXTRACT_FILES_ONLY`. -/
def ToCreate (e : ZipEntry) : Prop :=
  flags.MZ_EXTRACT_DRY_RUN = false ∧ ¬ (endsInSlash abi mem e ∧ flags.MZ_EXTRACT_FILES_ONLY)

/-- A regular file, once created, can be written and touched. -/
def Writable (answers : Answers T) (e : ZipEntry) : Prop :=
  (mzExtractZipEntryToFile abi file answers.zlib answers.oldOff e [] answers.io).value = some true ∧
    (timestamp.isSome → answers.utime)
/-- A regular file can be written and touched, and a link is not to be touched. -/
def Unslipped (answers : Answers T) (e : ZipEntry) : Prop :=
  endsInSlash abi mem e ∨ if IsLink flags e then timestamp = none else Writable abi file timestamp answers e

end

section
variable {T : Type} {abi : Abi} {mem : Mem} {file : Bytes} {flags : Flags} {timestamp : Option T}
variable {answers : Answers T} {e : ZipEntry} {path : Bytes}

theorem Touched.mono {calls more : List (Call T)} (touched : Touched timestamp calls path) (kept : calls ⊆ more) :
    Touched timestamp more path := fun t given => kept (touched t given)
theorem Filled.mono {Z : Inflater} {calls more : List (Call T)} (filled : Filled abi file timestamp Z e path calls)
    (kept : calls ⊆ more) : Filled abi file timestamp Z e path more :=
  ⟨kept filled.1,filled.2.1.imp fun _ written => ⟨kept written.1,written.2⟩,filled.2.2.mono kept⟩

variable (abi file timestamp answers e path) in
theorem extractRegular_spec :
    ((extractRegular abi file timestamp answers e path).result = .ok () →
      (mzExtractZipEntryToFile abi file answers.zlib answers.oldOff e [] answers.io).value = some true ∧
      .creat path true ∈ (extractRegular abi file timestamp answers e path).trace ∧
      .extract (mzExtractZipEntryToFile abi file answers.zlib answers.oldOff e [] answers.io).state true ∈
        (extractRegular abi file timestamp answers e path).trace ∧
      Touched timestamp (extractRegular abi file timestamp answers e path).trace path) ∧
    ((extractRegular abi file timestamp answers e path).result = .error .shadowed →
      ¬ Writable abi file timestamp answers e) ∧
    ∀ w, .extract w true ∈ (extractRegular abi file timestamp answers e path).trace →
      Touched timestamp (extractRegular abi file timestamp answers e path).trace path →
      Writable abi file timestamp answers e := by
  unfold extractRegular Writable Touched
  generalize mzExtractZipEntryToFile abi file answers.zlib answers.oldOff e [] answers.io = run
  rcases run with ⟨_ | _ | _,w,rest⟩ <;> cases answers.creat <;> cases timestamp <;> cases answers.utime <;>
    simp [note_bind]

private theorem extractRegular_ok (plain : Plain abi e) (done : (extractRegular abi file timestamp answers e path).result = .ok ()) :
    Filled abi file timestamp answers.zlib e path (extractRegular abi file timestamp answers e path).trace := by
  obtain ⟨value,made,extracted,touched⟩ := (extractRegular_spec abi file timestamp answers e path).1 done
  exact ⟨made,⟨_,extracted,extractToFile_contents plain value⟩,touched⟩
private theorem wrap_le {x : Int} (positive : 0 ≤ x) : wrap 32 x ≤ x := by
  unfold wrap
  rw [Int.bmod_def]
  split <;> omega

variable (file answers path) in
theorem extractSymlink_cases (plain : Plain abi e) :
    (∃ reason, reason ≠ .shadowed ∧ (extractSymlink abi file answers e path).result = .error reason) ∨
    ∃ w more, extractSymlink abi file answers e path = ⟨.ok (),[.symlink (cString (w ++ more)) path true]⟩ ∧
      Contents abi file answers.zlib e w := by
  unfold extractSymlink
  split
  · exact .inl ⟨.failed,by decide,rfl⟩
  split
  · have copied (done : (mzReadZipEntry abi file answers.zlib answers.oldOff e ⟨[],wrap 32 e.uncompLen⟩
        answers.io).value = some true) := readZipEntry_contents plain done
    generalize mzReadZipEntry abi file answers.zlib answers.oldOff e ⟨[],wrap 32 e.uncompLen⟩ answers.io = run at copied
    rcases run with ⟨_ | _ | _,args,rest⟩
    · exact .inl ⟨.stuck,by decide,rfl⟩
    · exact .inl ⟨.failed,by decide,rfl⟩
    obtain ⟨w,same,length,contents⟩ := copied rfl
    dsimp only at same ⊢
    rw [if_neg (not_lt.mpr plain.uncompLen)]
    cases answers.symlink with
    | false => exact .inl ⟨.failed,by decide,rfl⟩
    | true =>
      have shorter := wrap_le plain.uncompLen
      have inside : w.length ≤ e.uncompLen.toNat := by
        rcases length with rfl | short
        · simp
        · omega
      have start := take_grow answers.fresh w le_rfl inside
      rw [take_length] at start
      have whole := take_append_drop w.length (grow answers.fresh (some w) e.uncompLen.toNat)
      rw [start] at whole
      rw [same,← whole]
      exact .inr ⟨w,_,rfl,contents⟩
  · exact .inl ⟨.failed,by decide,rfl⟩

private theorem extractSymlink_calls : Within (∃ target done, · = .symlink target path done) (extractSymlink abi file answers e path) := by
  unfold extractSymlink
  generalize mzReadZipEntry abi file answers.zlib answers.oldOff e ⟨[],wrap 32 e.uncompLen⟩ answers.io = run
  rcases run with ⟨_ | _ | _,args,rest⟩ <;> split_ifs <;> simp [Within,note_bind, *]

variable (file flags timestamp answers path) in
theorem createEntry_cases (other : endsInSlash abi mem e = false) : ∃ dirs : List (Call T),
    (∀ c ∈ dirs, ForDirs path.length c) ∧
      (createEntry abi mem file flags timestamp answers e path = ⟨.error .failed,dirs⟩ ∨
      (IsLink flags e ∧ createEntry abi mem file flags timestamp answers e path =
        ⟨(extractSymlink abi file answers e path).result,dirs ++ (extractSymlink abi file answers e path).trace⟩) ∨
      (¬ IsLink flags e ∧ createEntry abi mem file flags timestamp answers e path =
        ⟨(extractRegular abi file timestamp answers e path).result,
          dirs ++ (extractRegular abi file timestamp answers e path).trace⟩)) := by
  obtain ⟨done,result,-⟩ := dirCreateHierarchy_spec (E := Break) answers.dir timestamp path true
  refine ⟨_,dirCreateHierarchy_within (E := Break) answers.dir timestamp path,?_⟩
  unfold createEntry
  rw [if_neg (by simp [other]),bind_eq_ok result]
  cases done with
  | false =>
    rw [if_neg (by decide),stop_result,stop_trace,append_nil]
    exact .inl rfl
  | true =>
    rw [if_pos rfl]
    by_cases link : ¬ flags.MZ_EXTRACT_FILES_ONLY ∧ mzIsZipEntrySymlink e
    · exact .inr (.inl ⟨link,by rw [if_pos link]⟩)
    · exact .inr (.inr ⟨link,by rw [if_neg link]⟩)

private theorem createEntry_ok (plain : Plain abi e) (needed : ¬ (endsInSlash abi mem e ∧ flags.MZ_EXTRACT_FILES_ONLY))
    (unslipped : Unslipped abi mem file flags timestamp answers e)
    (done : (createEntry abi mem file flags timestamp answers e path).result = .ok ()) :
    Created abi mem file flags timestamp answers.zlib e path (createEntry abi mem file flags timestamp answers e path).trace := by
  unfold Created
  cases other : endsInSlash abi mem e with
  | true =>
    have folders : ¬ flags.MZ_EXTRACT_FILES_ONLY := fun only => needed ⟨other,only⟩
    obtain ⟨made,result,there⟩ := dirCreateHierarchy_spec (E := Break) answers.dir timestamp path false
    unfold createEntry at done ⊢
    rw [if_pos other,if_neg folders,bind_eq_ok result] at done ⊢
    cases made with
    | false => cases done
    | true =>
      obtain ⟨cpath,same,hierarchy⟩ := there rfl
      obtain rfl : path ++ [slash] = cpath := by simpa using same
      exact hierarchy.mono (subset_append_left _ _)
  | false =>
    obtain ⟨dirs,-,same | ⟨link,same⟩ | ⟨file,same⟩⟩ := createEntry_cases file flags timestamp
      answers path other
    · rw [same] at done
      cases done
    · rw [same] at done ⊢
      rw [if_pos link]
      have untimed := unslipped.resolve_left (by simp [other])
      rw [if_pos link] at untimed
      rcases extractSymlink_cases file answers path plain with
        ⟨reason,-,failed⟩ | ⟨w,more,linked,contents⟩
      · rw [failed] at done
        cases done
      refine ⟨⟨w,more,?_,contents⟩,fun t given => ?_⟩
      · rw [linked]
        simp
      · rw [untimed] at given
        cases given
    · rw [same] at done ⊢
      rw [if_neg file]
      exact (extractRegular_ok plain done).mono (subset_append_right _ _)

theorem createEntry_shadowed (plain : Plain abi e)
    (left : (createEntry abi mem file flags timestamp answers e path).result = .error .shadowed) :
    ¬ Unslipped abi mem file flags timestamp answers e := by
  cases other : endsInSlash abi mem e with
  | true =>
    obtain ⟨made,result,-⟩ := dirCreateHierarchy_spec (E := Break) answers.dir timestamp path false
    unfold createEntry at left
    rw [if_pos other] at left
    split at left
    · cases left
    · rw [bind_result result] at left
      split at left <;> cases left
  | false =>
    rintro (folder | unslipped)
    · rw [other] at folder
      cases folder
    revert unslipped
    obtain ⟨dirs,-,same | ⟨link,same⟩ | ⟨regular,same⟩⟩ := createEntry_cases file flags timestamp answers path other
    · rw [same] at left
      cases left
    · rw [same] at left
      rcases extractSymlink_cases file answers path plain with ⟨reason,other,failed⟩ | ⟨w,more,linked,-⟩
      · rw [failed] at left
        exact absurd (Except.error.inj left) other
      · rw [linked] at left
        cases left
    · rw [same] at left
      rw [if_neg regular]
      exact (extractRegular_spec _ _ _ _ _ _).2.1 left

theorem unslipped_of_created {after : List (Call T)} (callbacks : ∀ c ∈ after, ∃ p, c = .callback p)
    (created : Created abi mem file flags timestamp answers.zlib e path
      ((createEntry abi mem file flags timestamp answers e path).trace ++ after)) :
    Unslipped abi mem file flags timestamp answers e := by
  cases other : endsInSlash abi mem e with
  | true => exact .inl other
  | false =>
    right
    unfold Created at created
    rw [other,if_neg (by decide)] at created
    obtain ⟨dirs,above,ends⟩ := createEntry_cases file flags timestamp answers path other
    -- a call that is not for the directories and not of the callback is one for the entry itself
    have own {c : Call T} {calls : List (Call T)} (member : c ∈ dirs ++ calls ++ after) (entry : ¬ ForDirs path.length c)
        (call : ∀ p, c ≠ .callback p) : c ∈ calls := by
      rcases mem_append.mp member with before | last
      · exact (mem_append.mp before).resolve_left fun dir => entry (above c dir)
      · obtain ⟨p,same⟩ := callbacks c last
        exact absurd same (call p)
    rcases ends with same | ⟨link,same⟩ | ⟨regular,same⟩
    · rw [same,← append_nil dirs] at created
      split at created
      · obtain ⟨⟨w,more,linked,-⟩,-⟩ := created
        exact absurd (own linked (by simp [ForDirs]) (by simp)) not_mem_nil
      · exact absurd (own created.1 (by simp [ForDirs]) (by simp)) not_mem_nil
    · rw [same,if_pos link] at created
      rw [if_pos link]
      cases timestamp with
      | none => rfl
      | some t =>
        obtain ⟨target,done,wrong⟩ := extractSymlink_calls _ (own (created.2 t rfl) (by simp [ForDirs]) (by simp))
        cases wrong
    · rw [same,if_neg regular] at created
      rw [if_neg regular]
      obtain ⟨-,⟨w,extracted,-⟩,touched⟩ := created
      exact (extractRegular_spec abi file timestamp answers e path).2.2 w (own extracted (by simp [ForDirs]) (by simp))
        fun t given => own (touched t given) (by simp [ForDirs]) (by simp)

theorem Created.mono {Z : Inflater} {calls more : List (Call T)} (kept : calls ⊆ more)
    (created : Created abi mem file flags timestamp Z e path calls) : Created abi mem file flags timestamp Z e path more := by
  unfold Created at created ⊢
  split_ifs at created ⊢
  · exact created.mono kept
  · obtain ⟨⟨w,rest,linked,contents⟩,touched⟩ := created
    exact ⟨⟨w,rest,kept linked,contents⟩,touched.mono kept⟩
  · exact created.mono kept

variable {callback : Bool}

variable (abi mem file timestamp callback answers e path) in
theorem extractEntry_eq (wet : flags.MZ_EXTRACT_DRY_RUN = false) :
    (extractEntry abi mem file flags timestamp callback answers e path).result =
      (createEntry abi mem file flags timestamp answers e path).result ∧
    ∃ after, (∀ c ∈ after, ∃ p, c = .callback p) ∧
      (extractEntry abi mem file flags timestamp callback answers e path).trace =
        (createEntry abi mem file flags timestamp answers e path).trace ++ after := by
  unfold extractEntry
  rw [if_neg (by simp [wet])]
  generalize createEntry abi mem file flags timestamp answers e path = step
  cases ended : step.result with
  | error reason => exact ⟨by rw [bind_eq_error ended],[],by simp,by rw [bind_eq_error ended,append_nil]⟩
  | ok _ =>
    rw [bind_eq_ok ended]
    cases callback with
    | false => exact ⟨rfl,[],by simp,rfl⟩
    | true => exact ⟨rfl,[.callback path],by simp,rfl⟩

end

/-! ## The whole archive -/

section
variable {T : Type} {abi : Abi} {mem : Mem} {file : Bytes} {flags : Flags} {timestamp : Option T} {callback : Bool}
variable {answers : Nat → Answers T} {zipDir targetDir : Bytes}

variable (abi mem file flags timestamp callback answers zipDir targetDir) in
def visitOf (h : ZipEntry × Nat) : Visit T :=
  ⟨h.2, targetPath zipDir targetDir (h.1.name abi mem),
    (extractEntry abi mem file flags timestamp callback (answers h.2) h.1
      (targetPath zipDir targetDir (h.1.name abi mem))).trace⟩

/-- The loop is not left with only the inner `ok` set. -/
def Reported {α : Type} (x : Except Break α) : Prop := x ≠ .error .shadowed

theorem reported_bind {α β : Type} {x : Except Break α} {f : α → Except Break β} (first : Reported x)
    (rest : ∀ a, Reported (f a)) : Reported (x >>= f) := by
  cases x with
  | ok a => exact rest a
  | error reason => exact fun same => first (congrArg Except.error (Except.error.inj same))
theorem reported_memcpy (buf data : Bytes) (dest : Int) : Reported (memcpy buf dest data) := by
  unfold memcpy
  split <;> nofun
theorem reported_startPath (firstTime : Bool) (helper : MzPathHelper) (buf : Bytes) :
    Reported (startPath firstTime helper buf) := by
  unfold startPath
  split_ifs
  · nofun
  · nofun
  · refine reported_bind (reported_memcpy _ _ _) fun copied => ?_
    split_ifs
    · exact reported_bind (reported_memcpy _ _ _) fun _ => nofun
    · nofun
theorem reported_targetEntryPath (realloc : Bool) (fresh : Nat → UInt8) (helper : MzPathHelper) (name : Bytes) :
    Reported (targetEntryPath realloc fresh helper name) := by
  refine reported_bind ?_ fun grown => ?_
  · unfold growPath
    dsimp only
    split_ifs <;> nofun
  · split
    · nofun
    · refine reported_bind (reported_startPath _ _ _) fun ⟨_,_⟩ => ?_
      exact reported_bind (reported_memcpy _ _ _) fun _ => reported_bind (reported_memcpy _ _ _) fun _ => nofun

variable (file flags timestamp callback answers) in
theorem visitAll_spec (targetText : 0 ∉ targetDir) {hs : List (ZipEntry × Nat)} (named : ∀ h ∈ hs, Named abi mem h.1)
    {helper : MzPathHelper} (held : Helper zipDir targetDir helper) :
    (∀ v ∈ (visitAll abi mem file flags timestamp callback answers helper hs).visits,
      ∃ h ∈ hs, v = visitOf abi mem file flags timestamp callback answers zipDir targetDir h) ∧
    ((visitAll abi mem file flags timestamp callback answers helper hs).left = none → ∀ h ∈ hs,
      visitOf abi mem file flags timestamp callback answers zipDir targetDir h ∈
          (visitAll abi mem file flags timestamp callback answers helper hs).visits ∧
        (extractEntry abi mem file flags timestamp callback (answers h.2) h.1
          (targetPath zipDir targetDir (h.1.name abi mem))).result = .ok ()) ∧
    ((visitAll abi mem file flags timestamp callback answers helper hs).left = some .shadowed → ∃ h ∈ hs,
      (extractEntry abi mem file flags timestamp callback (answers h.2) h.1
        (targetPath zipDir targetDir (h.1.name abi mem))).result = .error .shadowed) := by
  induction hs generalizing helper with
  | nil => exact ⟨by simp [visitAll],by simp,by simp [visitAll]⟩
  | cons h hs ih =>
    have nameText := name_text (named h mem_cons_self)
    rw [visitAll]
    rcases visit_cases answers helper h.1 h.2 (fun helper => visitAll abi mem file flags timestamp callback answers helper hs) with
      ⟨reason,failed,visited⟩ | ⟨path,helper',found,⟨reason,stopped,visited⟩ | ⟨done,visited⟩⟩
    · rw [visited]
      refine ⟨by simp,by simp,fun slipped => ?_⟩
      exact absurd (by rw [failed,some.inj slipped]) (reported_targetEntryPath _ _ helper _)
    · obtain ⟨rfl,held'⟩ := targetEntryPath_ok nameText targetText held found
      rw [visited]
      refine ⟨fun v member => ⟨h,mem_cons_self,mem_singleton.mp member⟩,by simp,fun slipped => ?_⟩
      exact ⟨h,mem_cons_self,by rw [stopped,some.inj slipped]⟩
    · obtain ⟨rfl,held'⟩ := targetEntryPath_ok nameText targetText held found
      obtain ⟨visits,clean,slip⟩ := ih (fun f member => named f (mem_cons_of_mem _ member)) held'
      rw [visited]
      refine ⟨fun v member => ?_,fun ended f member => ?_,fun slipped => ?_⟩
      · rcases mem_cons.mp member with rfl | later
        · exact ⟨h,mem_cons_self,rfl⟩
        · obtain ⟨f,known,same⟩ := visits v later
          exact ⟨f,mem_cons_of_mem _ known,same⟩
      · rcases mem_cons.mp member with rfl | later
        · exact ⟨mem_cons_self,done⟩
        · exact ⟨mem_cons_of_mem _ (clean ended f later).1,(clean ended f later).2⟩
      · obtain ⟨f,known,same⟩ := slip slipped
        exact ⟨f,mem_cons_of_mem _ known,same⟩

theorem hits_index {start : Bytes} {es : List ZipEntry} {g h : ZipEntry × Nat} (first : g ∈ hits abi mem start 0 es)
    (second : h ∈ hits abi mem start 0 es) (index : g.2 = h.2) : g = h := by
  have known := mem_zipIdx_iff_getElem?.mp (mem_filter.mp first).1
  have known' := mem_zipIdx_iff_getElem?.mp (mem_filter.mp second).1
  rw [index,known'] at known
  exact Prod.ext (some.inj known).symm index
theorem ok_cases {w : Walk T} (returned : w.ok = some true) : w.left = none ∨ w.left = some .shadowed := by
  unfold Walk.ok at returned
  split at returned
  · exact .inl ‹_›
  · cases returned
  · exact .inr ‹_›
  · cases returned

theorem slipped_needed {h : ZipEntry × Nat} {path : Bytes} (plain : Plain abi h.1)
    (left : (extractEntry abi mem file flags timestamp callback (answers h.2) h.1 path).result = .error .shadowed) :
    ToCreate abi mem flags h.1 ∧ ¬ Unslipped abi mem file flags timestamp (answers h.2) h.1 := by
  have wet : flags.MZ_EXTRACT_DRY_RUN = false := by
    cases dry : flags.MZ_EXTRACT_DRY_RUN with
    | false => rfl
    | true =>
      unfold extractEntry at left
      rw [if_pos dry] at left
      split at left <;> cases left
  rw [(extractEntry_eq abi mem file timestamp (answers h.2) h.1 path callback wet).1] at left
  refine ⟨⟨wet,fun ⟨folder,only⟩ => ?_⟩,createEntry_shadowed plain left⟩
  unfold createEntry at left
  rw [if_pos folder,if_pos only] at left
  cases left

theorem plain_of_parsed {S : SafeIop abi} {map : MemMapping} {room : Bool} {calloc : Nat → Bool} {archive : Archive}
    (parsed : (parseZipArchive abi mem S map room calloc).result = .ok archive) {e : ZipEntry} (member : e ∈ archive.pEntries)
    (signs : abi.bits = 32 → 0 ≤ e.offset ∧ 0 ≤ e.compLen ∧ 0 ≤ e.uncompLen) : Plain abi e := by
  obtain ⟨p,same⟩ := parseZipArchive_entries parsed e member
  rcases abi.known with known | known
  · obtain ⟨offset,compLen,uncompLen⟩ := signs known
    refine ⟨offset,compLen,?_,uncompLen⟩
    have below : abi.long (peek4 abi mem (p + CENSIZ)) < ((2 ^ abi.bits : Nat) + 1) / 2 :=
      Int.bmod_lt (Nat.two_pow_pos _)
    rw [same]
    change abi.long (peek4 abi mem (p + CENSIZ)) < _
    rw [known] at below ⊢
    omega
  · have number {n : Nat} (small : n < 2 ^ 32) : abi.long n = n := long_small (by rw [known]; omega)
    have compLen : e.compLen = peek4 abi mem (p + CENSIZ) := by rw [same]; exact number (peek4_lt abi mem _)
    have size := peek4_lt abi mem (p + CENSIZ)
    refine ⟨?_,by omega,?_,?_⟩
    · have : e.offset = dataOffset abi mem map p := by rw [same]; exact number (unsigned_lt _ _)
      omega
    · rw [known]
      omega
    · have : e.uncompLen = peek4 abi mem (p + CENLEN) := by rw [same]; exact number (peek4_lt abi mem _)
      omega

end

/-- A run of `mzExtractRecursive` that returns true has created every entry completely exactly when
    every regular file among them can be written and touched and no link is to be touched. -/
theorem true_means_created_iff {T : Type} (abi : Abi) (mem : Mem) (S : SafeIop abi) (map : MemMapping) (room : Bool)
    (calloc : Nat → Bool) (archive : Archive) (parsed : (parseZipArchive abi mem S map room calloc).result = .ok archive)
    (file : Bytes) (flags : Flags) (timestamp : Option T) (callback malloc : Bool) (answers : Nat → Answers T)
    (zipDir targetDir : CText)
    (signs : abi.bits = 32 → ∀ h ∈ hits abi mem (nameStart zipDir.text) 0 archive.pEntries,
      0 ≤ h.1.offset ∧ 0 ≤ h.1.compLen ∧ 0 ≤ h.1.uncompLen)
    (returned : (mzExtractRecursive abi mem file flags timestamp callback malloc answers archive
      zipDir.text targetDir.text).ok = some true) :
    (∀ h ∈ hits abi mem (nameStart zipDir.text) 0 archive.pEntries, ToCreate abi mem flags h.1 →
      ∃ v ∈ (mzExtractRecursive abi mem file flags timestamp callback malloc answers archive zipDir.text
          targetDir.text).visits, v.index = h.2 ∧
        Created abi mem file flags timestamp (answers h.2).zlib h.1
          (targetPath zipDir.text targetDir.text (h.1.name abi mem)) v.calls) ↔
    ∀ h ∈ hits abi mem (nameStart zipDir.text) 0 archive.pEntries, ToCreate abi mem flags h.1 →
      Unslipped abi mem file flags timestamp (answers h.2) h.1 := by
  obtain ⟨cdOffset, -, -, listed, -⟩ := parseZipArchive_returns parsed
  have count : archive.pEntries.length = archive.numEntries := by rw [listed.count, length_records]
  have plain h (member : h ∈ hits abi mem (nameStart zipDir.text) 0 archive.pEntries) : Plain abi h.1 :=
    plain_of_parsed parsed (mem_hits member) fun known => signs known h member
  rcases mzExtractRecursive_eq malloc count listed.named listed.sorted zipDir targetDir with
    refused | ⟨helper, held, same⟩
  · rw [refused] at returned
    cases returned
  · rw [same] at returned ⊢
    obtain ⟨visits, clean, slip⟩ := visitAll_spec file flags timestamp callback answers targetDir.terminated
      (fun h (member : h ∈ hits abi mem (nameStart zipDir.text) 0 archive.pEntries) => listed.named _ (mem_hits member)) held
    constructor
    · intro created h member needed
      obtain ⟨v, visited, index, made⟩ := created h member needed
      obtain ⟨g, known, rfl⟩ := visits v visited
      obtain rfl : g = h := hits_index known member index
      obtain ⟨-, after, callbacks, trace⟩ := extractEntry_eq abi mem file timestamp (answers g.2) g.1
        (targetPath zipDir.text targetDir.text (g.1.name abi mem)) callback needed.1
      dsimp only [visitOf] at made
      rw [trace] at made
      exact unslipped_of_created callbacks made
    · intro unslipped h member needed
      rcases ok_cases returned with ended | slipped
      · obtain ⟨visited, done⟩ := clean ended h member
        obtain ⟨result, after, -, trace⟩ := extractEntry_eq abi mem file timestamp (answers h.2) h.1
          (targetPath zipDir.text targetDir.text (h.1.name abi mem)) callback needed.1
        rw [result] at done
        have made := createEntry_ok (plain h member) needed.2 (unslipped h member needed) done
        refine ⟨_, visited, rfl, made.mono ?_⟩
        dsimp only [visitOf]
        rw [trace]
        exact subset_append_left _ _
      · obtain ⟨f, known, left⟩ := slip slipped
        obtain ⟨needed', wrong⟩ := slipped_needed (plain f known) left
        exact absurd (unslipped f known needed') wrong

/-! ## A file of one byte -/

def oneByte : Bytes := localNamed [97, 47, 98] ++ [88] ++ centralNamed [97, 47, 98] 1 ++ endHeader 1 34
def oneByteMem : Mem := memoryAt 4096 oneByte
def oneByteParsed : Except Stop Archive :=
  (parseZipArchive lp64 oneByteMem (safeIop lp64) ⟨4096, 105⟩ true fun n => n * 32 < 2 ^ 64).result
def extractOneByte (archive : Archive) (io : List Int) : Walk Unit :=
  mzExtractRecursive lp64 oneByteMem oneByte ⟨false, false⟩ (some ()) false true (fun _ => working io) archive [97] [47, 116]

/-- The file is read and written. -/
theorem true_means_created_of_oneByte : ∃ archive, oneByteParsed = .ok archive ∧
    (extractOneByte archive [1, 1]).ok = some true ∧
    ∀ h ∈ hits lp64 oneByteMem [97, 47] 0 archive.pEntries, ToCreate lp64 oneByteMem ⟨false, false⟩ h.1 →
      ∃ v ∈ (extractOneByte archive [1, 1]).visits, v.index = h.2 ∧
        Created lp64 oneByteMem oneByte ⟨false, false⟩ (some ()) idle h.1
          (targetPath [97] [47, 116] (h.1.name lp64 oneByteMem)) v.calls := by
  have accepted : (oneByteParsed.map fun archive => ((extractOneByte archive [1, 1]).ok,
      archive.pEntries.all fun e => decide (¬ IsLink ⟨false, false⟩ e) &&
        decide ((mzExtractZipEntryToFile lp64 oneByte idle 0 e [] [1, 1]).value = some true))) =
      .ok (some true, true) := by decide +kernel
  cases parsed : oneByteParsed with
  | error reason =>
    rw [parsed] at accepted
    cases accepted
  | ok archive =>
    rw [parsed] at accepted
    obtain ⟨returned, written⟩ := Prod.mk.inj (Except.ok.inj accepted)
    refine ⟨archive, rfl, returned, ?_⟩
    refine (true_means_created_iff lp64 oneByteMem (safeIop lp64) ⟨4096, 105⟩ true (fun n => n * 32 < 2 ^ 64) archive parsed
      oneByte ⟨false, false⟩ (some ()) false true (fun _ => working [1, 1]) ⟨[97], by decide, by decide⟩
      ⟨[47, 116], by decide, by decide⟩ (fun narrow => absurd narrow (by decide)) returned).mpr fun h member _ => .inr ?_
    have file := all_eq_true.mp written h.1 (mem_hits member)
    rw [Bool.and_eq_true] at file
    rw [if_neg (of_decide_eq_true file.1)]
    exact ⟨of_decide_eq_true file.2, fun _ => rfl⟩

/-- The disk is full (`ENOSPC`): the file stays empty, and the result is true. -/
theorem full_disk_unnoticed : ∃ archive, oneByteParsed = .ok archive ∧ (extractOneByte archive [1, -28]).ok = some true ∧
    ∃ h ∈ hits lp64 oneByteMem [97, 47] 0 archive.pEntries, ToCreate lp64 oneByteMem ⟨false, false⟩ h.1 ∧
      ¬ ∃ v ∈ (extractOneByte archive [1, -28]).visits, v.index = h.2 ∧
        Created lp64 oneByteMem oneByte ⟨false, false⟩ (some ()) idle h.1
          (targetPath [97] [47, 116] (h.1.name lp64 oneByteMem)) v.calls := by
  have accepted : (oneByteParsed.map fun archive => ((extractOneByte archive [1, -28]).ok,
      (extractOneByte archive [1, -28]).visits.map Visit.calls,
      (hits lp64 oneByteMem [97, 47] 0 archive.pEntries).map fun h =>
        (endsInSlash lp64 oneByteMem h.1, decide (IsLink ⟨false, false⟩ h.1)))) =
      .ok (some true, [[.stat [47, 116, 47] .directory, .creat [47, 116, 47, 98] true, .extract [] false]],
        [(false, false)]) := by decide +kernel
  cases parsed : oneByteParsed with
  | error reason =>
    rw [parsed] at accepted
    cases accepted
  | ok archive =>
    rw [parsed] at accepted
    obtain ⟨returned, rest⟩ := Prod.mk.inj (Except.ok.inj accepted)
    obtain ⟨visits, kinds⟩ := Prod.mk.inj rest
    refine ⟨archive, rfl, returned, ?_⟩
    obtain ⟨h, member, kind⟩ := mem_map.mp (kinds ▸ mem_singleton_self (false, false))
    obtain ⟨file, link⟩ := Prod.mk.inj kind
    refine ⟨h, member, ⟨rfl, by simp⟩, fun ⟨v, visited, _, created⟩ => ?_⟩
    have calls := mem_singleton.mp (visits ▸ mem_map_of_mem visited)
    unfold Created at created
    rw [file, if_neg (by decide), if_neg (of_decide_eq_false link), calls] at created
    obtain ⟨-, ⟨w, written, -⟩, -⟩ := created
    simp at written

end Recovery.ExtractResult
