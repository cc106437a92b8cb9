import Recovery.ZipStreams

/-!
What ends up in the buffers of `mzReadZipEntry` and `mzExtractZipEntryToBuffer` and in the file of
`mzExtractZipEntryToFile`.
-/
namespace Recovery.ZipBuffers
open Memory Numbers Program Program.Prog Watching Option
open ZipArchive Extract ExtractResult ZipStreams

def dataStart (oldOff : Nat) (e : ZipEntry) : Nat := if e.offset < 0 then oldOff else e.offset.toNat
def startOf (oldOff : Nat) (e : ZipEntry) {Z : Inflater} (z : Z.State) : Inflating Z :=
  ⟨z, e.compLen, dataStart oldOff e, [], [], 0⟩

section
variable {σ : Type} (abi : Abi) (file : Bytes) {Z : Inflater} (code : Z.State → Bytes → Nat → Int)

/-- The calls of `inflate` in a run are answered by zlib. -/
def Honest (oldOff : Nat) (e : ZipEntry) (process : Bytes → Prog σ Int Bool) (s : σ) (io : List Int) : Prop :=
  e.compression = DEFLATED → ∀ z, Z.init = some z →
    Guided (inflateRound abi file process) (Right file code) (io.length + 1) (startOf oldOff e z) s io

def Data (oldOff : Nat) (e : ZipEntry) (w : Bytes) : Prop :=
  (e.compression = STORED ∧ w = (file.drop (dataStart oldOff e)).take (unsigned abi.bits e.compLen) ∧
    w.length = unsigned abi.bits e.compLen) ∨
  (e.compression = DEFLATED ∧ ∃ z, Z.init = some z ∧ StreamEnds abi file code (startOf oldOff e z) w e.uncompLen)

end

section
variable {σ : Type} {abi : Abi} {file : Bytes} {Z : Inflater} {code : Z.State → Bytes → Nat → Int} {oldOff : Nat}
variable {e : ZipEntry} {K : Bytes → σ → Prop} {process : Bytes → Prog σ Int Bool}

theorem data_unique {w w' : Bytes} (first : Data abi file code oldOff e w) (second : Data abi file code oldOff e w') :
    w = w' := by
  rcases first with ⟨stored,rfl,-⟩ | ⟨deflated,z,init,ends⟩
  · rcases second with ⟨-,rfl,-⟩ | ⟨deflated,-⟩
    · rfl
    · cases stored.symm.trans deflated
  · rcases second with ⟨stored,-⟩ | ⟨-,z',init',ends'⟩
    · cases stored.symm.trans deflated
    · obtain rfl := some.inj (init.symm.trans init')
      exact (streamEnds_unique ends ends').1

theorem process_stored (stored : e.compression = STORED) (process : Bytes → Prog σ Int Bool) :
    mzProcessZipEntryContents abi file Z oldOff e process =
      processStoredEntry abi file e (dataStart oldOff e) process :=
  if_pos stored
theorem process_deflated (deflated : e.compression = DEFLATED) (process : Bytes → Prog σ Int Bool) :
    mzProcessZipEntryContents abi file Z oldOff e process =
      processDeflatedEntry abi file Z e (dataStart oldOff e) process := by
  have other : e.compression ≠ STORED := by rw [deflated]; decide
  exact (if_neg other).trans (if_pos deflated)
theorem process_other (stored : e.compression ≠ STORED) (deflated : e.compression ≠ DEFLATED)
    (process : Bytes → Prog σ Int Bool) : mzProcessZipEntryContents abi file Z oldOff e process = pure false :=
  (if_neg stored).trans (if_neg deflated)
theorem deflated_none (init : Z.init = none) (pos : Nat) (process : Bytes → Prog σ Int Bool) (s : σ) (io : List Int) :
    processDeflatedEntry abi file Z e pos process s io = ⟨some (decide (-1 = e.uncompLen)),s,io⟩ := by
  unfold processDeflatedEntry
  rw [init]
  rfl
theorem deflated_some {z : Z.State} (init : Z.init = some z) (process : Bytes → Prog σ Int Bool) (s : σ)
    (io : List Int) :
    processDeflatedEntry abi file Z e (dataStart oldOff e) process s io =
      next (inflateLoop abi file process (startOf oldOff e z) s io)
        fun result => pure (decide (result = e.uncompLen)) := by
  unfold processDeflatedEntry
  rw [init]
  rfl

theorem deflated_state {z : Z.State} (init : Z.init = some z) (process : Bytes → Prog σ Int Bool) (s : σ)
    (io : List Int) :
    (processDeflatedEntry abi file Z e (dataStart oldOff e) process s io).state =
      (inflateLoop abi file process (startOf oldOff e z) s io).state := by
  rw [deflated_some init]
  exact bind_pure_state _ _ _ _

theorem process_data (deliver : Delivers K process) {s : σ} {io : List Int} (known : K [] s)
    (honest : Honest abi file code oldOff e process s io)
    (done : (mzProcessZipEntryContents abi file Z oldOff e process s io).value = some true) :
    (e.compression = DEFLATED ∧ e.uncompLen = -1) ∨
      ∃ w, Data abi file code oldOff e w ∧ K w (mzProcessZipEntryContents abi file Z oldOff e process s io).state := by
  by_cases stored : e.compression = STORED
  · rw [process_stored stored] at done ⊢
    obtain ⟨w,known,part,length⟩ := (stored_delivers deliver e (dataStart oldOff e) [] s io known).1 true done rfl
    exact .inr ⟨w,.inl ⟨stored,part,length⟩,known⟩
  by_cases deflated : e.compression = DEFLATED
  · rw [process_deflated deflated] at done ⊢
    cases init : Z.init with
    | none =>
      rw [deflated_none init] at done
      exact .inl ⟨deflated,(of_decide_eq_true (some.inj done)).symm⟩
    | some z =>
      rw [deflated_some init] at done ⊢
      cases returned : (inflateLoop abi file process (startOf oldOff e z) s io).value with
      | none =>
        rw [next_none returned] at done
        cases done
      | some result =>
        rw [next_some returned] at done ⊢
        obtain rfl : result = e.uncompLen := of_decide_eq_true (some.inj done)
        rcases guided_delivers deliver known (honest deflated z init) returned with failed | ⟨w,ends,known⟩
        · exact .inl ⟨deflated,failed⟩
        · exact .inr ⟨w,.inr ⟨deflated,z,init,ends⟩,known⟩
  · rw [process_other stored deflated] at done
    cases done

private theorem process_keeps {I : σ → Prop} (keeps : ∀ data, Triple I (process data) (fun _ => I) I) :
    Triple I (mzProcessZipEntryContents abi file Z oldOff e process) (fun _ => I) I := by
  -- a round that ends with any result, or with the variables of the next one
  have ends {β α : Type} (r : β ⊕ α) :
      Triple I (pure r : Prog σ Int (β ⊕ α)) (fun r s => r.elim (fun _ => I s) fun _ => I s) I :=
    triple_pure _ fun _ holds => by cases r <;> exact holds
  refine triple_ite (fun _ => ?_) fun _ => triple_ite (fun _ => ?_) fun _ => triple_pure _ fun _ holds => holds
  · refine stored_loop (I := fun _ => I) e _ (fun k count _ _ _ => ?_) (fun _ _ holds => ⟨holds,holds⟩) fun _ holds => holds
    exact triple_conseq (keeps _) (fun _ holds => holds) (fun ok s holds => by split <;> exact holds) fun _ holds => holds
  unfold processDeflatedEntry
  cases Z.init with
  | none => exact triple_pure _ fun _ holds => holds
  | some z =>
    refine triple_bind (Q := fun _ => I) ?_ fun _ => triple_pure _ fun _ holds => holds
    refine triple_iterate (I := fun _ => I) ?_ (fun _ _ holds => holds) _
    intro l
    have refills : Triple I (refill file l) (fun _ => I) I := by
      refine triple_ite (fun _ => ?_) fun _ => triple_pure _ fun _ holds => holds
      refine triple_ite (fun _ => triple_stuck fun _ holds => holds) fun _ => triple_ask_bind (fun _ holds => holds) fun answer => ?_
      exact triple_ite (fun _ => triple_pure _ fun _ holds => holds) fun _ => triple_pure _ fun _ holds => holds
    refine triple_bind refills fun r => ?_
    cases r with
    | none => exact ends _
    | some l =>
      refine triple_ask_bind (fun _ holds => holds) fun zerr => triple_ite (fun _ => ends _) fun _ => triple_ite (fun _ => ?_) fun _ => ends _
      exact triple_bind (keeps _) fun ok => triple_ite (fun _ => ends _) fun _ => ends _

/-! ## Room in a buffer -/

/-- What has been copied, and that it was copied into the room there was. -/
def InRoom (bufLen : Int) (args : CopyProcessArgs) : Prop :=
  args.bufLen = bufLen - args.buf.length ∧ (args.buf = [] ∨ 0 ≤ args.bufLen)
private theorem copy_keeps (bufLen : Int) (data : Bytes) :
    Triple (InRoom bufLen) (copyProcessFunction data) (fun _ => InRoom bufLen) (InRoom bufLen) := by
  refine triple_bind (triple_get (Q := fun args s => args = s ∧ InRoom bufLen args) fun s holds => ⟨rfl,holds⟩)
    fun args => ?_
  refine triple_ite (fun fits => ?_) fun _ => triple_pure _ fun s holds => holds.1 ▸ holds.2
  refine triple_bind (triple_modify (Q := fun _ => InRoom bufLen) fun s holds => ?_) fun _ =>
    triple_pure _ fun _ holds => holds
  obtain ⟨-,room,-⟩ := holds
  refine ⟨?_,.inr (by dsimp only; omega)⟩
  dsimp only
  rw [List.length_append]
  omega

private theorem read_room (bufLen : Int) (io : List Int) :
    ((mzReadZipEntry abi file Z oldOff e ⟨[],bufLen⟩ io).state.buf.length : Int) ≤ max bufLen 0 := by
  have kept : InRoom bufLen (mzReadZipEntry abi file Z oldOff e ⟨[],bufLen⟩ io).state :=
    triple_state (process_keeps (copy_keeps bufLen)) ⟨by simp,.inl rfl⟩ io
  obtain ⟨room,none | some⟩ := kept
  · rw [none]
    simp
  · omega

theorem buffer_collects (abi : Abi) : Collects (fun taken bec => bec.buffer = taken) (bufferProcessFunction abi) := by
  intro taken data bec known _
  exact ⟨⟨bec.buffer ++ data,wrap abi.bits (bec.len - data.length)⟩,fun _ => rfl,congrArg (· ++ data) known⟩
theorem toBuffer_run (s : BufferExtractCookie) (io : List Int) : mzExtractZipEntryToBuffer abi file Z oldOff e s io =
    next (mzProcessZipEntryContents abi file Z oldOff e (bufferProcessFunction abi) ⟨s.buffer,e.uncompLen⟩ io)
      fun ret => get >>= fun bec => pure (ret && decide (bec.len = 0)) := rfl
theorem toBuffer_state (s : BufferExtractCookie) (io : List Int) :
    (mzExtractZipEntryToBuffer abi file Z oldOff e s io).state =
      (mzProcessZipEntryContents abi file Z oldOff e (bufferProcessFunction abi) ⟨s.buffer,e.uncompLen⟩ io).state := by
  rw [toBuffer_run]
  cases value : (mzProcessZipEntryContents abi file Z oldOff e (bufferProcessFunction abi)
    ⟨s.buffer,e.uncompLen⟩ io).value with
  | none => rw [next_none value]
  | some ok =>
    rw [next_some value]
    rfl
private theorem readable_inside (pos total : Nat) : readable file pos total ≤ file.length - pos := by
  unfold readable
  split
  · assumption
  · exact Nat.mul_div_le _ _

end

section
variable (abi : Abi) (file : Bytes) {Z : Inflater} (code : Z.State → Bytes → Nat → Int) (oldOff : Nat) (e : ZipEntry)

/-- Neither function writes past its buffer, at any time of a run. -/
def WritesInside : Prop :=
  (∀ io, Honest abi file code oldOff e (bufferProcessFunction abi) ⟨[], e.uncompLen⟩ io →
    ((mzExtractZipEntryToBuffer abi file Z oldOff e ⟨[], 0⟩ io).state.buffer.length : Int) ≤ max e.uncompLen 0) ∧
  ∀ bufLen io, ((mzReadZipEntry abi file Z oldOff e ⟨[], bufLen⟩ io).state.buf.length : Int) ≤ max bufLen 0
/-- The data of the entry is no longer than the size it is given: what can be read of a stored one, and
    what zlib fills buffers with for a deflated one. -/
def NoLonger : Prop :=
  (e.compression = STORED →
    (readable file (dataStart oldOff e) (unsigned abi.bits e.compLen) : Int) ≤ max e.uncompLen 0) ∧
  (e.compression = DEFLATED → ∀ z, Z.init = some z → ∀ n,
    ((handedOut abi file code n (startOf oldOff e z)).length : Int) ≤ max e.uncompLen 0)

/-- The buffers are respected exactly for entries whose data is no longer than their size says:
    `mzExtractZipEntryToBuffer` takes whatever it is given. -/
theorem writes_inside_iff : WritesInside abi file code oldOff e ↔ NoLonger abi file code oldOff e := by
  constructor
  · rintro ⟨inside, -⟩
    constructor
    · intro stored
      obtain ⟨io, ok, t, ⟨collected, -⟩, runs⟩ := stored_can abi file (buffer_collects abi) e
        (dataStart oldOff e) (fun _ _ _ => trivial) ⟨[], e.uncompLen⟩ rfl
      have reached := inside io fun deflated => by cases stored.symm.trans deflated
      rw [toBuffer_state, process_stored stored, ← List.append_nil io, runs] at reached
      rw [collected, List.length_take, List.length_drop, Nat.min_eq_left (readable_inside _ _)] at reached
      exact reached
    · intro deflated z init n
      obtain ⟨guided, collected⟩ := handedOut_reached abi file code (buffer_collects abi) n (startOf oldOff e z)
        (s := ⟨[], e.uncompLen⟩) rfl (Nat.lt_add_one _)
      have reached := inside (answersFor abi file code n (startOf oldOff e z)) fun _ z' init' => by
        obtain rfl := Option.some.inj (init.symm.trans init')
        exact guided
      rw [toBuffer_state, process_deflated deflated, deflated_state init, inflateLoop_eq] at reached
      rwa [iterate, collected] at reached
  · intro short
    refine ⟨fun io honest => ?_, fun bufLen io => read_room bufLen io⟩
    rw [toBuffer_state]
    by_cases stored : e.compression = STORED
    · rw [process_stored stored]
      obtain ⟨k, few, collected⟩ := triple_state (stored_collects abi file (buffer_collects abi) e (dataStart oldOff e))
        (s := ⟨[], e.uncompLen⟩) rfl io
      have bound := short.1 stored
      rw [collected, List.length_take]
      omega
    by_cases deflated : e.compression = DEFLATED
    · rw [process_deflated deflated]
      cases init : Z.init with
      | none =>
        rw [deflated_none init]
        exact le_max_right _ _
      | some z =>
        rw [deflated_state init]
        obtain ⟨n, collected⟩ := guided_collects (buffer_collects abi) rfl (honest deflated z init)
        rw [collected]
        exact short.2 deflated z init n
    · rw [process_other stored deflated]
      exact le_max_right _ _

end

def noZlib : Inflater :=
  ⟨Unit, none, fun z _ _ _ => (z, 0, []), fun _ _ _ _ => Nat.zero_le _, fun _ _ _ _ => Nat.zero_le _⟩
def fiveBytes : Bytes := List.replicate 31 0 ++ [1, 2, 3, 4, 5]
def fiveForTwo : ZipEntry := ⟨1, 30, 31, 5, 2, STORED, 0, 0, 0, 0⟩

theorem fiveForTwo_overflows : ∃ io,
    Honest lp64 fiveBytes (Z := noZlib) (fun _ _ _ => 0) 0 fiveForTwo (bufferProcessFunction lp64) ⟨[], 2⟩ io ∧
    (mzExtractZipEntryToBuffer lp64 fiveBytes noZlib 0 fiveForTwo ⟨[], 0⟩ io).state.buffer = [1, 2, 3, 4, 5] :=
  ⟨[5], fun deflated => (by cases deflated), by decide⟩

/-! ## The same bytes -/

section
variable (abi : Abi) (file : Bytes) {Z : Inflater} (code : Z.State → Bytes → Nat → Int) (oldOff : Nat) (e : ZipEntry)

/-- Runs of the three functions that return true have made the same bytes, as many as the entry says. -/
def Agree : Prop := ∀ io io' io'',
  Honest abi file code oldOff e copyProcessFunction ⟨[], wrap 32 e.uncompLen⟩ io →
  Honest abi file code oldOff e (bufferProcessFunction abi) ⟨[], e.uncompLen⟩ io' →
  Honest abi file code oldOff e writeProcessFunction [] io'' →
  (mzReadZipEntry abi file Z oldOff e ⟨[], wrap 32 e.uncompLen⟩ io).value = some true →
  (mzExtractZipEntryToBuffer abi file Z oldOff e ⟨[], 0⟩ io').value = some true →
  (mzExtractZipEntryToFile abi file Z oldOff e [] io'').value = some true →
  (mzReadZipEntry abi file Z oldOff e ⟨[], wrap 32 e.uncompLen⟩ io).state.buf =
    (mzExtractZipEntryToFile abi file Z oldOff e [] io'').state ∧
  (mzExtractZipEntryToBuffer abi file Z oldOff e ⟨[], 0⟩ io').state.buffer =
    (mzExtractZipEntryToFile abi file Z oldOff e [] io'').state ∧
  ((mzExtractZipEntryToFile abi file Z oldOff e [] io'').state.length : Int) = e.uncompLen
/-- A buffer read that returns true has filled the buffer. -/
def ReadFills : Prop := ∀ io, Honest abi file code oldOff e copyProcessFunction ⟨[], wrap 32 e.uncompLen⟩ io →
  (mzReadZipEntry abi file Z oldOff e ⟨[], wrap 32 e.uncompLen⟩ io).value = some true →
  ((mzReadZipEntry abi file Z oldOff e ⟨[], wrap 32 e.uncompLen⟩ io).state.buf.length : Int) = e.uncompLen
/-- A stored entry that can be read into a buffer of its size has as many bytes as its size says, and no
    deflated one has the size that an error is reported with. -/
def SizeRight : Prop :=
  (e.compression = STORED → (unsigned abi.bits e.compLen = 0 ∨
      unsigned abi.bits e.compLen ≤ file.length - dataStart oldOff e ∧
        (unsigned abi.bits e.compLen : Int) ≤ wrap 32 e.uncompLen) →
    (unsigned abi.bits e.compLen : Int) = e.uncompLen) ∧
  (e.compression = DEFLATED → e.uncompLen = -1 → Z.init ≠ none ∧ e.compLen < 0)

end

section
variable {abi : Abi} {file : Bytes} {Z : Inflater} {code : Z.State → Bytes → Nat → Int} {oldOff : Nat} {e : ZipEntry}

private theorem toBuffer_value {s : BufferExtractCookie} {io : List Int}
    (done : (mzExtractZipEntryToBuffer abi file Z oldOff e s io).value = some true) :
    (mzProcessZipEntryContents abi file Z oldOff e (bufferProcessFunction abi) ⟨s.buffer,e.uncompLen⟩ io).value =
      some true := by
  rw [toBuffer_run] at done
  cases value : (mzProcessZipEntryContents abi file Z oldOff e (bufferProcessFunction abi)
    ⟨s.buffer,e.uncompLen⟩ io).value with
  | none =>
    rw [next_none value] at done
    cases done
  | some ret =>
    rw [next_some value] at done
    have both := Bool.and_eq_true_iff.mp (some.inj done)
    rw [both.1]
private theorem buffer_delivers (abi : Abi) : Delivers (fun taken bec => bec.buffer = taken) (bufferProcessFunction abi) :=
  fun taken data => triple_conseq (triple_collects (buffer_collects abi) taken data fun _ => True)
    (fun _ holds => holds) (fun _ _ holds _ => holds.2) fun _ _ => trivial

private theorem negative_never {σ : Type} {z : Z.State} (negative : e.compLen < 0) (process : Bytes → Prog σ Int Bool) (s : σ)
    (io : List Int) : (inflateLoop abi file process (startOf oldOff e z) s io).value = none := by
  have less : ¬ e.compLen > bufferSize := by omega
  have size : getSize (startOf oldOff e z) = e.compLen := if_neg less
  have stops : refill file (startOf oldOff e z) s io = ⟨none,s,io⟩ := by
    rw [refill_run,size,if_pos negative]
    rfl
  have round : inflateRound abi file process (startOf oldOff e z) s io = ⟨none,s,io⟩ := by
    have unfolded : inflateRound abi file process (startOf oldOff e z) s io =
        next (refill file (startOf oldOff e z) s io) _ := rfl
    rw [unfolded,stops,next_none rfl]
  rw [inflateLoop_eq,iterate,rounds,bind_run,round,next_none rfl]

private theorem readFills_of_sizeRight (right : SizeRight abi file (Z := Z) oldOff e) : ReadFills abi file code oldOff e := by
  intro io honest done
  have start : Copied (wrap 32 e.uncompLen) [] ⟨[],wrap 32 e.uncompLen⟩ := ⟨rfl,by simp,.inl rfl⟩
  rcases process_data (copy_delivers (wrap 32 e.uncompLen)) start honest done with
    ⟨deflated,size⟩ | ⟨w,data,copied,-,fits⟩
  · -- a size of -1 would hide an error, but then nothing is ever read
    obtain ⟨there,negative⟩ := right.2 deflated size
    obtain ⟨z,init⟩ := ne_none_iff_exists'.mp there
    unfold mzReadZipEntry at done
    rw [process_deflated deflated,deflated_some init,next_none (negative_never negative _ _ _)] at done
    cases done
  · change ((mzProcessZipEntryContents abi file Z oldOff e copyProcessFunction _ io).state.buf.length : Int) = _
    rw [copied]
    rcases data with ⟨stored,part,length⟩ | ⟨deflated,z,init,ends⟩
    · rw [length]
      refine right.1 stored ?_
      have inside : w.length ≤ file.length - dataStart oldOff e := by
        rw [part,List.length_take,List.length_drop]
        omega
      rw [← length]
      rcases fits with rfl | fits
      · exact .inl rfl
      · exact .inr ⟨inside,fits⟩
    · have total : e.uncompLen = abi.long (0 + w.length) := streamEnds_length ends rfl
      rw [Nat.zero_add] at total
      have small : w.length < 2 ^ 31 := by
        have := wrap_lt e.uncompLen
        rcases fits with rfl | fits
        · decide
        · omega
      rw [total,ZipBounds.long_small ?_]
      rcases abi.known with known | known <;> rw [known] <;> omega

theorem agree_of_readFills (fills : ReadFills abi file code oldOff e) : Agree abi file code oldOff e := by
  intro io io' io'' honest honest' honest'' read buffer written
  have filled := fills io honest read
  have start : Copied (wrap 32 e.uncompLen) [] ⟨[],wrap 32 e.uncompLen⟩ := ⟨rfl,by simp,.inl rfl⟩
  have size : ¬ (e.compression = DEFLATED ∧ e.uncompLen = -1) := by
    rintro ⟨-,size⟩
    omega
  obtain ⟨w,data,copied,-⟩ :=
    (process_data (copy_delivers (wrap 32 e.uncompLen)) start honest read).resolve_left size
  obtain ⟨w',data',collected⟩ :=
    (process_data (buffer_delivers abi) rfl honest' (toBuffer_value buffer)).resolve_left size
  obtain ⟨w'',data'',whole⟩ := (process_data write_delivers rfl honest'' written).resolve_left size
  obtain rfl := data_unique data data''
  obtain rfl := data_unique data data'
  have whole : (mzExtractZipEntryToFile abi file Z oldOff e [] io'').state = w := whole
  rw [toBuffer_state,whole]
  exact ⟨copied,collected,copied ▸ filled⟩

theorem copy_accepts (size : Int) : Accepts (Copied size) (fun n => (n : Int) ≤ size) copyProcessFunction := by
  intro taken data args copied fits
  obtain ⟨same,room,-⟩ := copied
  refine ⟨⟨args.buf ++ data,args.bufLen - data.length⟩,fun as => ?_,?_,?_,.inr ?_⟩
  · have enough : (data.length : Int) ≤ args.bufLen := by omega
    unfold copyProcessFunction
    rw [bind_run,get_run,next_some rfl,if_pos enough]
    rfl
  · rw [same]
  · dsimp only
    rw [room,List.length_append]
    omega
  · rw [List.length_append]
    exact fits
theorem failed_read {σ : Type} {z : Z.State} (positive : 0 ≤ e.compLen) (process : Bytes → Prog σ Int Bool) (s : σ) :
    inflateRound abi file process (startOf oldOff e z) s [-1] = ⟨some (.inr (-1)),s,[]⟩ := by
  have some : 0 ≤ getSize (startOf oldOff e z) := by
    unfold getSize
    split
    · omega
    · exact positive
  have failed : refill file (startOf oldOff e z) s [-1] = ⟨Option.some none,s,[]⟩ := by
    have bytes : readAt file (startOf oldOff e z).pos (getSize (startOf oldOff e z)).toNat (-1) = (-1,[]) := rfl
    rw [refill_run,if_neg (not_lt.mpr some)]
    dsimp only
    rw [bytes,if_neg (show ¬ (-1 : Int) = getSize (startOf oldOff e z) by omega)]
    rfl
  have unfolded : inflateRound abi file process (startOf oldOff e z) s [-1] =
      next (refill file (startOf oldOff e z) s [-1]) _ := rfl
  rw [unfolded,failed,next_some rfl]
  rfl
theorem sizeRight_of_readFills (fills : ReadFills abi file code oldOff e) : SizeRight abi file (Z := Z) oldOff e := by
  have start : Copied (wrap 32 e.uncompLen) [] ⟨[],wrap 32 e.uncompLen⟩ := ⟨rfl,by simp,.inl rfl⟩
  constructor
  · intro stored there
    have whole : unsigned abi.bits e.compLen ≤ file.length - dataStart oldOff e := by
      rcases there with nothing | ⟨inside,-⟩
      · omega
      · exact inside
    have all : readable file (dataStart oldOff e) (unsigned abi.bits e.compLen) = unsigned abi.bits e.compLen :=
      if_pos whole
    have fits : ∀ n, 0 < n → n ≤ readable file (dataStart oldOff e) (unsigned abi.bits e.compLen) →
        (n : Int) ≤ wrap 32 e.uncompLen := by
      intro n some few
      rcases there with nothing | ⟨-,fits⟩ <;> omega
    obtain ⟨io,ok,t,⟨copied,done⟩,runs⟩ := stored_can abi file (copy_accepts (wrap 32 e.uncompLen)) e
      (dataStart oldOff e) fits ⟨[],wrap 32 e.uncompLen⟩ start
    have read : mzReadZipEntry abi file Z oldOff e ⟨[],wrap 32 e.uncompLen⟩ io = ⟨some true,t,[]⟩ := by
      rw [decide_eq_true whole] at done
      unfold mzReadZipEntry
      rw [process_stored stored,← List.append_nil io,runs,done]
    have filled := fills io (fun deflated => by cases stored.symm.trans deflated) (by rw [read])
    rwa [read,copied.1,all,List.length_take,List.length_drop,Nat.min_eq_left whole] at filled
  · intro deflated size
    have there : Z.init ≠ none := by
      intro init
      have read : mzReadZipEntry abi file Z oldOff e ⟨[],wrap 32 e.uncompLen⟩ [] =
          ⟨some true,⟨[],wrap 32 e.uncompLen⟩,[]⟩ := by
        unfold mzReadZipEntry
        rw [process_deflated deflated,deflated_none init,size]
        rfl
      have filled := fills [] (fun _ z there => by cases init.symm.trans there) (by rw [read])
      rw [read,size] at filled
      cases filled
    refine ⟨there,?_⟩
    by_contra positive
    obtain ⟨z,init⟩ := ne_none_iff_exists'.mp there
    have round : inflateRound abi file copyProcessFunction (startOf oldOff e z) ⟨[],wrap 32 e.uncompLen⟩ [-1] =
        ⟨some (.inr (-1)),⟨[],wrap 32 e.uncompLen⟩,[]⟩ := failed_read (not_lt.mp positive) _ _
    have read : mzReadZipEntry abi file Z oldOff e ⟨[],wrap 32 e.uncompLen⟩ [-1] =
        ⟨some true,⟨[],wrap 32 e.uncompLen⟩,[]⟩ := by
      unfold mzReadZipEntry
      rw [process_deflated deflated,deflated_some init,inflateLoop_eq,iterate,rounds,bind_run,round,
        next_some rfl,size]
      rfl
    have honest : Honest abi file code oldOff e copyProcessFunction ⟨[],wrap 32 e.uncompLen⟩ [-1] := by
      intro _ z' init'
      obtain rfl := some.inj (init.symm.trans init')
      refine ⟨fun zerr answer => (by cases answer),fun c value => ?_⟩
      rw [round] at value
      cases value
    have filled := fills [-1] honest (by rw [read])
    rw [read,size] at filled
    cases filled

/-- The three functions agree and a successful buffer read is complete exactly for entries whose size is
    right: `mzReadZipEntry` never compares what it has got with the size. -/
theorem reads_complete_iff (abi : Abi) (file : Bytes) {Z : Inflater} (code : Z.State → Bytes → Nat → Int) (oldOff : Nat)
    (e : ZipEntry) : (Agree abi file code oldOff e ∧ ReadFills abi file code oldOff e) ↔
      SizeRight abi file (Z := Z) oldOff e := by
  constructor
  · rintro ⟨-, fills⟩
    exact sizeRight_of_readFills fills
  · intro right
    have fills : ReadFills abi file code oldOff e := readFills_of_sizeRight right
    exact ⟨agree_of_readFills fills, fills⟩

end

def twoForFive : ZipEntry := ⟨1, 30, 31, 2, 5, STORED, 0, 0, 0, 0⟩

theorem twoForFive_incomplete : ∃ io,
    Honest lp64 fiveBytes (Z := noZlib) (fun _ _ _ => 0) 0 twoForFive copyProcessFunction ⟨[], 5⟩ io ∧
    (mzReadZipEntry lp64 fiveBytes noZlib 0 twoForFive ⟨[], 5⟩ io).value = some true ∧
    (mzReadZipEntry lp64 fiveBytes noZlib 0 twoForFive ⟨[], 5⟩ io).state.buf = [1, 2] :=
  ⟨[2], fun deflated => (by cases deflated), by decide⟩

end Recovery.ZipBuffers
