import Recovery.Partition
import Recovery.Watching

/-!
The eMMC branch of `WriteToPartition`, watched: what each attempt wrote where, what the device held
when the verification began and what the verification read back.
-/
namespace Recovery.EmmcVerify
open Memory Program Program.Prog Storage Load Recovery.Partition Option
open Watching

/-! ## The watched program -/

structure Pass where
  /-- Where the writing begins. -/
  start : Nat
  /-- The bytes that each write took, with their place. -/
  writes : List (Nat × Bytes)
  /-- What the device held when the verification began. -/
  contents : Option Bytes
  /-- What the verification read. -/
  readBack : Bytes

structure Watched where
  storage : Storage
  /-- The attempts, the last one first. -/
  passes : List Pass
  /-- A call failed. -/
  refused : Bool

abbrev Watch := Prog Watched Answer

def watch (s : Storage) : Watched := ⟨s, [], false⟩
def Watched.onStorage (f : Storage → Storage) (w : Watched) : Watched := { w with storage := f w.storage }
def Watched.onPass (f : Pass → Pass) (w : Watched) : Watched :=
  { w with passes := match w.passes with
    | [] => []
    | pass :: rest => f pass :: rest }
def Watched.refuse (w : Watched) : Watched := { w with refused := true }
def Watched.begin (start : Nat) (w : Watched) : Watched := { w with passes := ⟨start, [], none, []⟩ :: w.passes }
def Pass.wrote (place : Nat) (bytes : Bytes) (pass : Pass) : Pass := { pass with writes := pass.writes ++ [(place, bytes)] }
def Pass.read (bytes : Bytes) (pass : Pass) : Pass := { pass with readBack := pass.readBack ++ bytes }
def Watched.verifies (device : Path) (w : Watched) : Watched :=
  w.onPass fun pass => { pass with contents := deviceData w.storage device }

def refusing {α : Type} (a : α) : Watch α := do
  modify Watched.refuse
  pure a

def watchWrite (device : Path) (data : Bytes) : Nat → Watch Bool :=
  iterate fun start =>
    if start < data.length then do
      let toWrite := min (data.length - start) (1 <<< 20)
      let answer ← ask
      modify (Watched.onStorage (disturb device answer.bytes))
      if answer.ok then do
        modify (Watched.onPass (Pass.wrote start ((data.drop start).take (min answer.count toWrite))))
        pure (.inl (start + min answer.count toWrite))
      else if answer.interrupted then pure (.inl start)
      else refusing (.inr false)
    else pure (.inr true)

def watchRead (device : Path) (p toRead : Nat) : Bytes → Watch (Option Bytes) :=
  iterate fun buffer =>
    if buffer.length < toRead then do
      let answer ← ask
      let w ← get
      match deviceData w.storage device with
      | none => refusing (.inr none)
      | some contents =>
        if answer.ok then
          let count := min answer.count (toRead - buffer.length)
          pure (.inl (buffer ++ (contents.drop (p + buffer.length)).take count))
        else if answer.interrupted then pure (.inl buffer)
        else refusing (.inr none)
    else pure (.inr (some buffer))

def watchVerify (device : Path) (data : Bytes) : Nat → Watch Verified :=
  iterate fun p =>
    if p < data.length then do
      let toRead := min (data.length - p) 4096
      match ← watchRead device p toRead [] with
      | none => pure (.inr .failed)
      | some buffer => do
        modify (Watched.onPass (Pass.read buffer))
        if buffer = (data.drop p).take toRead then pure (.inl (p + 4096)) else pure (.inr (.differs p))
    else pure (.inr .same)

def watchSync (device : Path) : Watch Unit := do
  let _ ← ask
  modify (Watched.onStorage fun s => s.setFile device ((s.files device).map fun node => { node with dirty := false }))

def watchAttempts (device : Path) (data : Bytes) : Nat → Nat → Watch Int
  | 0, _ => pure (-1)
  | left + 1, start => do
    modify (Watched.begin start)
    if ¬ (← watchWrite device data start) then pure (-1)
    else do
      watchSync device
      modify (Watched.verifies device)
      match ← watchVerify device data 0 with
      | .failed => pure (-1)
      | .differs p => watchAttempts device data left p
      | .same =>
        let closed ← ask
        if closed.ok then pure 0 else refusing (-1)

def watchEmmc (device : Path) (data : Bytes) : Watch Int := do
  let w ← get
  match w.storage.files device with
  | none => refusing (-1)
  | some node => do
    let opened ← ask
    if ¬ (opened.ok ∧ (node.fault = none ∨ node.fault = some .read)) then refusing (-1)
    else watchAttempts device data 2 0

/-! ## What is forgotten -/

theorem erases_refusing {α : Type} (a : α) : Erases Watched.storage (refusing a) (pure a) :=
  erases_note (fun _ => rfl) (erases_pure a)
private theorem watchWrite_erases (device : Path) (data : Bytes) (start : Nat) :
    Erases Watched.storage (watchWrite device data start) (emmcWrite device data.length start) := by
  refine erases_iterate (fun start => erases_ite ?_ (erases_pure _)) start
  refine erases_bind erases_ask fun answer => erases_bind (erases_modify fun _ => rfl) fun _ => ?_
  refine erases_ite (erases_note (fun _ => rfl) (erases_pure _)) (erases_ite (erases_pure _) (erases_refusing _))
theorem watchRead_erases (device : Path) (p toRead : Nat) (buffer : Bytes) :
    Erases Watched.storage (watchRead device p toRead buffer) (readBlock device p toRead buffer) := by
  refine erases_iterate (fun buffer => erases_ite ?_ (erases_pure _)) buffer
  refine erases_bind erases_ask fun answer => erases_get fun w => ?_
  cases deviceData w.storage device with
  | none => exact erases_refusing _
  | some contents => exact erases_ite (erases_pure _) (erases_ite (erases_pure _) (erases_refusing _))
private theorem watchVerify_erases (device : Path) (data : Bytes) (p : Nat) :
    Erases Watched.storage (watchVerify device data p) (emmcVerify device data p) := by
  refine erases_iterate (fun p => erases_ite ?_ (erases_pure _)) p
  refine erases_bind (watchRead_erases device p _ []) fun result => ?_
  cases result with
  | none => exact erases_pure _
  | some buffer => exact erases_note (fun _ => rfl) (erases_ite (erases_pure _) (erases_pure _))
private theorem watchAttempts_erases (device : Path) (data : Bytes) (left start : Nat) :
    Erases Watched.storage (watchAttempts device data left start) (emmcAttempts device data left start) := by
  induction left generalizing start with
  | zero => exact erases_pure _
  | succ left ih =>
    refine erases_note (fun _ => rfl) (erases_bind (watchWrite_erases device data start) fun ok => ?_)
    refine erases_ite (erases_pure _) (erases_bind (erases_bind erases_ask fun _ => erases_modify fun _ => rfl) fun _ => ?_)
    refine erases_note (fun _ => rfl) (erases_bind (watchVerify_erases device data 0) fun verified => ?_)
    cases verified with
    | failed => exact erases_pure _
    | differs p => exact ih p
    | same =>
      refine erases_bind erases_ask fun closed => ?_
      by_cases ok : closed.ok
      · simp only [ok,if_true]
        exact erases_pure _
      · simp only [ok]
        exact erases_refusing _
private theorem watchEmmc_erases (device : Path) (data : Bytes) :
    Erases Watched.storage (watchEmmc device data) (writeEmmc device data) := by
  refine erases_get fun w => ?_
  cases w.storage.files device with
  | none => exact erases_refusing _
  | some node =>
    exact erases_bind erases_ask fun opened => erases_ite (erases_refusing _) (watchAttempts_erases device data 2 0)

/-! ## The verification -/

private theorem watchRead_spec (device : Path) (p toRead : Nat) (wanted : 0 < toRead) (w : Watched) :
    Triple (fun t => t = w) (watchRead device p toRead [])
      (fun result t => (result = none → t = w.refuse) ∧ ∀ buffer, result = some buffer → t = w ∧
        ∃ contents, deviceData w.storage device = some contents ∧ buffer = (contents.drop p).take toRead)
      fun _ => True := by
  have noted : Triple (fun t => t = w) (watchRead device p toRead [])
      (fun result t => (result = none → t = w.refuse) ∧ ∀ buffer, result = some buffer → t = w) fun _ => True := by
    refine triple_iterate (I := fun _ t => t = w) (fun buffer => triple_ite (fun _ => ?_) fun _ => ?_)
      (fun _ _ _ => trivial) []
    · refine triple_ask_bind (fun _ _ => trivial) fun answer => ?_
      refine triple_bind (triple_get (Q := fun got t => got = t ∧ t = w) fun _ h => ⟨rfl,h⟩) fun got => ?_
      have refused : Triple (fun t => got = t ∧ t = w) (refusing (.inr none) : Watch (Bytes ⊕ Option Bytes))
          (fun r t => r.elim (fun _ => t = w) fun result =>
            (result = none → t = w.refuse) ∧ ∀ buffer, result = some buffer → t = w) fun _ => True := by
        refine triple_bind (triple_modify (Q := fun _ t => t = w.refuse) ?_) fun _ => triple_pure _ ?_
        · rintro t ⟨_,rfl⟩
          rfl
        · exact fun t same => ⟨fun _ => same,fun _ h => by cases h⟩
      cases deviceData got.storage device with
      | none => exact refused
      | some contents =>
        refine triple_ite (fun _ => triple_pure _ fun _ h => h.2) fun _ =>
          triple_ite (fun _ => triple_pure _ fun _ h => h.2) fun _ => refused
    · exact triple_pure _ fun t same => ⟨(fun h => by cases h),fun _ _ => same⟩
  have read := triple_erases (watchRead_erases device p toRead []) (readBlock_spec device p toRead wanted w.storage)
  refine triple_conseq (triple_and noted (triple_pre read fun t same => congrArg Watched.storage same)) (fun _ h => h) ?_
    fun _ _ => trivial
  rintro result t ⟨⟨failed,same⟩,_,held⟩
  exact ⟨failed,fun buffer found => ⟨same buffer found,held buffer found⟩⟩

/-- What a verification leaves: it only notes what it read. -/
structure Verifies (device : Path) (data : Bytes) (pass : Pass) (before : List Pass) (w : Watched) (r : Verified)
    (t : Watched) : Prop where
  storage : t.storage = w.storage
  passes : ∃ read, t.passes = { pass with readBack := read } :: before ∧ (r = .same → read = data)
  differs : ∀ p, r = .differs p → ∃ contents, deviceData w.storage device = some contents ∧ p < data.length ∧
    contents.take p = data.take p ∧ ¬ data <+: contents
  failed : t.refused = (w.refused || r = .failed)

variable {data contents : Bytes} {p start : Nat}

private theorem agrees_on {n : Nat} (before : contents.take p = data.take p)
    (block : (contents.drop p).take n = (data.drop p).take n) : contents.take (p + n) = data.take (p + n) := by
  rw [List.take_add,List.take_add,before,block]
private theorem take_block (more : p < data.length) :
    p + min (data.length - p) 4096 = min (p + 4096) data.length ∧
      data.take (p + min (data.length - p) 4096) = data.take (p + 4096) := by
  have sum : p + min (data.length - p) 4096 = min (p + 4096) data.length := by omega
  rw [sum,← List.take_eq_take_min]
  exact ⟨rfl,rfl⟩
private theorem block_of_prefix (starts : data <+: contents) {n : Nat} (inside : p + n ≤ data.length) :
    (contents.drop p).take n = (data.drop p).take n := by
  obtain ⟨rest,rfl⟩ := starts
  rw [List.drop_append_of_le_length (by omega),List.take_append_of_le_length (by rw [List.length_drop]; omega)]
theorem watchVerify_spec (device : Path) (data : Bytes) (pass : Pass) (before : List Pass) (fresh : pass.readBack = [])
    (w : Watched) (current : w.passes = pass :: before) :
    Triple (fun t => t = w) (watchVerify device data 0) (Verifies device data pass before w) fun _ => True := by
  refine triple_pre (triple_iterate (I := fun p t => t = { w with passes := { pass with readBack := data.take p } :: before } ∧
    (∀ contents, deviceData w.storage device = some contents → contents.take (min p data.length) = data.take p))
    (fun p => triple_ite (fun more => ?_) fun finished => triple_pure _ ?_) (fun _ _ _ => trivial) 0) ?_
  · refine triple_assume fun s inv => ?_
    obtain ⟨rfl,agrees⟩ := inv
    rw [Nat.min_eq_left more.le] at agrees
    refine triple_bind (watchRead_spec device p _ (by omega) _) fun result => ?_
    cases result with
    | none =>
      refine triple_pure _ ?_
      rintro t ⟨refused,_⟩
      rw [refused rfl]
      exact ⟨rfl,⟨_,rfl,fun h => by cases h⟩,(fun _ h => by cases h),by simp [Watched.refuse]⟩
    | some buffer =>
      refine triple_bind (triple_modify (Q := fun _ t => t = { w with passes :=
        { pass with readBack := data.take p ++ buffer } :: before } ∧ ∃ contents,
          deviceData w.storage device = some contents ∧ buffer = (contents.drop p).take (min (data.length - p) 4096)) ?_)
        fun _ => triple_ite (fun same => triple_pure _ ?_) fun other => triple_pure _ ?_
      · rintro t ⟨_,read⟩
        obtain ⟨rfl,held⟩ := read buffer rfl
        exact ⟨rfl,held⟩
      · rintro t ⟨rfl,contents,known,block⟩
        obtain ⟨sum,upTo⟩ := take_block more
        have further := agrees_on (agrees contents known) (block.symm.trans same)
        rw [same,← List.take_add,upTo]
        refine ⟨rfl,fun contents' known' => ?_⟩
        obtain rfl := some.inj (known.symm.trans known')
        rw [← sum,further,upTo]
      · rintro t ⟨rfl,contents,known,block⟩
        refine ⟨rfl,⟨_,rfl,fun h => by cases h⟩,?_,by simp⟩
        intro q found
        obtain rfl := Verified.differs.inj found
        refine ⟨contents,known,more,agrees contents known,fun starts => other ?_⟩
        rw [block]
        exact block_of_prefix starts (by omega)
  · rintro t ⟨rfl,agrees⟩
    have whole : data.take p = data := List.take_of_length_le (by omega)
    exact ⟨rfl,⟨data,by rw [whole],fun _ => rfl⟩,(fun _ h => by cases h),by simp⟩
  · rintro t rfl
    have same : t = { t with passes := { pass with readBack := data.take 0 } :: before } := by
      rw [List.take_zero,← fresh,← current]
    exact ⟨same,fun _ _ => by simp⟩

/-! ## The writes of an attempt -/

/-- The writes took the data from `start` up to `stop`. -/
def Covers (data : Bytes) (start stop : Nat) (writes : List (Nat × Bytes)) : Prop :=
  ∀ i, start ≤ i → i < stop → ∃ write ∈ writes, write.1 ≤ i ∧ i < write.1 + write.2.length ∧
    write.2[i - write.1]? = data[i]?

theorem covers_wrote {now n : Nat} {writes : List (Nat × Bytes)} (covers : Covers data start now writes)
    (inside : now + n ≤ data.length) : Covers data start (now + n) (writes ++ [(now, (data.drop now).take n)]) := by
  intro i low high
  by_cases earlier : i < now
  · obtain ⟨write,member,place⟩ := covers i low earlier
    exact ⟨write,List.mem_append_left _ member,place⟩
  · refine ⟨(now,(data.drop now).take n),by simp,by omega,?_,?_⟩
    · simp only [List.length_take,List.length_drop]
      omega
    · rw [List.getElem?_take_of_lt (by omega),List.getElem?_drop,Nat.add_sub_cancel' (by omega)]

/-- The attempt from `start` on has written up to `now`. -/
def Writing (data : Bytes) (start : Nat) (before : List Pass) (now : Nat) (t : Watched) : Prop :=
  t.refused = false ∧ ∃ writes, t.passes = ⟨start, writes, none, []⟩ :: before ∧ Covers data start now writes

theorem watchWrite_spec (device : Path) (data : Bytes) (start : Nat) (before : List Pass) :
    Triple (fun t => t.passes = ⟨start,[],none,[]⟩ :: before ∧ t.refused = false) (watchWrite device data start)
      (fun ok t => (ok = false → t.refused = true) ∧ (ok = true → Writing data start before data.length t))
      fun _ => True := by
  refine triple_pre (triple_iterate (I := Writing data start before)
    (fun now => triple_ite (fun more => ?_) fun finished => triple_pure _ ?_) (fun _ _ _ => trivial) start) ?_
  · refine triple_ask_bind (fun _ _ => trivial) fun answer => ?_
    refine triple_bind (triple_modify (Q := fun _ => Writing data start before now) fun _ h => h) fun _ => ?_
    refine triple_ite (fun _ => ?_) fun _ => triple_ite (fun _ => triple_pure _ fun _ h => h) fun _ => ?_
    · have next : ∀ t, Writing data start before now t → Writing data start before
          (now + min answer.count (min (data.length - now) (1 <<< 20))) (Watched.onPass (Pass.wrote now
            ((data.drop now).take (min answer.count (min (data.length - now) (1 <<< 20))))) t) := by
        rintro t ⟨quiet,writes,passes,covers⟩
        refine ⟨quiet,_,?_,covers_wrote covers (by omega)⟩
        simp only [Watched.onPass,passes]
        rfl
      exact triple_bind (triple_modify next) fun _ => triple_pure _ fun _ h => h
    · refine triple_bind (triple_modify (Q := fun _ t => t.refused = true) fun _ _ => rfl) fun _ => triple_pure _ ?_
      exact fun t refused => ⟨fun _ => refused,fun h => by cases h⟩
  · rintro t ⟨quiet,writes,passes,covers⟩
    exact ⟨(fun h => by cases h),fun _ => ⟨quiet,writes,passes,fun i low high => covers i low (by omega)⟩⟩
  · rintro t ⟨passes,quiet⟩
    exact ⟨quiet,[],passes,fun i low high => absurd high (by omega)⟩

/-! ## The attempts -/

structure Tried (device : Path) (data : Bytes) (start : Nat) (before : List Pass) (pass : Pass) (t : Watched) : Prop where
  passes : t.passes = pass :: before
  begins : pass.start = start
  covers : Covers data start data.length pass.writes
  contents : pass.contents = deviceData t.storage device
  quiet : t.refused = false

/-- The attempt found the first difference in the block at `p`. -/
def Differed (device : Path) (data : Bytes) (start : Nat) (before : List Pass) (p : Nat) (t : Watched) : Prop :=
  ∃ pass contents, Tried device data start before pass t ∧ pass.contents = some contents ∧ p < data.length ∧
    contents.take p = data.take p ∧ ¬ data <+: contents

theorem watchAttempts_rule {device : Path} {left : Nat} {before : List Pass}
    {Q : Int → Watched → Prop} (refused : ∀ t, t.refused = true → Q (-1) t)
    (same : ∀ t pass, Tried device data start before pass t → pass.readBack = data → Q 0 t)
    (again : ∀ p, Triple (Differed device data start before p) (watchAttempts device data left p) Q fun _ => True) :
    Triple (fun t => t.passes = before ∧ t.refused = false) (watchAttempts device data (left + 1) start) Q
      fun _ => True := by
  refine triple_bind (triple_modify (Q := fun _ t => t.passes = ⟨start,[],none,[]⟩ :: before ∧ t.refused = false) ?_)
    fun _ => triple_bind (watchWrite_spec device data start before) fun ok => triple_ite (fun stopped => ?_) fun goes => ?_
  · rintro t ⟨rfl,quiet⟩
    exact ⟨rfl,quiet⟩
  · have no : ok = false := by simpa using stopped
    exact triple_pure _ fun t post => refused t (post.1 no)
  have yes : ok = true := by simpa using goes
  refine triple_pre (B := Writing data start before data.length) ?_ fun t post => post.2 yes
  refine triple_bind (Q := fun _ => Writing data start before data.length) ?_ fun _ => ?_
  · exact triple_ask_bind (fun _ _ => trivial) fun _ => triple_modify fun _ h => h
  refine triple_bind (triple_modify (Q := fun _ t => ∃ pass, pass.readBack = [] ∧ Tried device data start before pass t) ?_)
    fun _ => triple_assume fun w tried => ?_
  · rintro t ⟨quiet,writes,passes,covers⟩
    refine ⟨⟨start,writes,deviceData t.storage device,[]⟩,rfl,?_,rfl,covers,rfl,quiet⟩
    simp only [Watched.verifies,Watched.onPass,passes]
  obtain ⟨pass,fresh,tried⟩ := tried
  refine triple_bind (watchVerify_spec device data pass before fresh w tried.passes) fun verified => ?_
  have kept {read : Bytes} {t : Watched} (storage : t.storage = w.storage)
      (passes : t.passes = { pass with readBack := read } :: before) (quiet : t.refused = false) :
      Tried device data start before { pass with readBack := read } t :=
    ⟨passes,tried.begins,tried.covers,tried.contents.trans (by rw [storage]),quiet⟩
  cases verified with
  | failed => exact triple_pure _ fun t post => refused t (by simp [post.failed])
  | differs p =>
    refine triple_pre (again p) ?_
    rintro t ⟨storage,⟨read,passes,_⟩,differs,failed⟩
    obtain ⟨contents,known,more,agrees,other⟩ := differs p rfl
    exact ⟨_,contents,kept storage passes (by simp [failed,tried.quiet]),tried.contents.trans known,more,agrees,
      other⟩
  | same =>
    refine triple_ask_bind (fun _ _ => trivial) fun closed => triple_ite (fun _ => ?_) fun _ => ?_
    · refine triple_pure _ ?_
      rintro t ⟨storage,⟨read,passes,whole⟩,_,failed⟩
      exact same t _ (kept storage passes (by simp [failed,tried.quiet])) (whole rfl)
    · exact triple_bind (triple_modify (Q := fun _ t => t.refused = true) fun _ _ => rfl) fun _ =>
        triple_pure _ fun t => refused t

/-- At the verification the device held what the writes of the attempt took. -/
def Stored (pass : Pass) : Prop := ∀ contents, pass.contents = some contents →
  ∀ write ∈ pass.writes, slice contents write.1 write.2.length = some write.2
/-- What was verified before the first difference stayed as it was. -/
def Intact (first second : Pass) : Prop := ∀ held contents, first.contents = some held →
  second.contents = some contents → contents.take second.start = held.take second.start
/-- No call failed, and a second attempt was stored and left the verified blocks alone. -/
def Behaved (w : Watched) : Prop :=
  w.refused = false ∧ ∀ second first, w.passes = [second, first] → Stored second ∧ Intact first second

theorem stored_prefix {held : Bytes} {writes : List (Nat × Bytes)}
    (covers : Covers data p data.length writes) (before : held.take p = data.take p)
    (stored : ∀ write ∈ writes, slice contents write.1 write.2.length = some write.2)
    (intact : contents.take p = held.take p) : data <+: contents := by
  rw [List.prefix_iff_getElem?]
  intro i small
  rw [← List.getElem?_eq_getElem small]
  by_cases early : i < p
  · have same := congrArg (fun bytes => bytes[i]?) (intact.trans before)
    simpa only [List.getElem?_take_of_lt early] using same
  obtain ⟨⟨place,bytes⟩,member,low,high,byte⟩ := covers i (by omega) small
  have taken := stored _ member
  simp only at low high byte taken
  unfold slice at taken
  split at taken
  · have same := congrArg (fun bytes => bytes[i - place]?) (some.inj taken)
    simp only [Int.toNat_natCast] at same
    rw [List.getElem?_take_of_lt (by omega),List.getElem?_drop,Nat.add_sub_cancel' low] at same
    exact same.trans byte
  · cases taken

def Kept (data : Bytes) (code : Int) (t : Watched) : Prop :=
  (code = 0 → ∃ pass before, t.passes = pass :: before ∧ pass.readBack = data) ∧ (Behaved t → code = 0)

theorem kept_refused (t : Watched) (refused : t.refused = true) : Kept data (-1) t :=
  ⟨fun h => absurd h (by decide),fun behaved => by simp [behaved.1] at refused⟩
theorem kept_same {device : Path} {before : List Pass} (t : Watched) (pass : Pass)
    (tried : Tried device data start before pass t) (same : pass.readBack = data) : Kept data 0 t :=
  ⟨fun _ => ⟨pass,before,tried.passes,same⟩,fun _ => rfl⟩
theorem watchAttempts_kept (device : Path) (data : Bytes) :
    Triple (fun t => t.passes = [] ∧ t.refused = false) (watchAttempts device data 2 0) (Kept data) fun _ => True := by
  refine watchAttempts_rule kept_refused kept_same fun p => triple_assume fun w differed => ?_
  obtain ⟨first,held,tried,firstHeld,_,agrees,_⟩ := differed
  refine triple_pre (B := fun t => t.passes = [first] ∧ t.refused = false)
    (watchAttempts_rule kept_refused kept_same fun q => triple_pure _ ?_) ?_
  · -- a second attempt that was stored does not differ
    rintro t ⟨second,contents,tried',secondHeld,_,_,other⟩
    refine ⟨fun h => absurd h (by decide),fun behaved => absurd ?_ other⟩
    obtain ⟨stored,intact⟩ := behaved.2 second first tried'.passes
    have same := intact held contents firstHeld secondHeld
    rw [tried'.begins] at same
    exact stored_prefix tried'.covers agrees (stored contents secondHeld) same
  · rintro t rfl
    exact ⟨tried.passes,tried.quiet⟩

theorem watchEmmc_kept (device : Path) (data : Bytes) (s : Storage) :
    Triple (fun t => t = watch s) (watchEmmc device data) (Kept data) fun _ => True := by
  have refused {P : Watched → Prop} : Triple P (refusing (-1) : Watch Int) (Kept data) fun _ => True :=
    triple_bind (triple_modify (Q := fun _ t => t.refused = true) fun _ _ => rfl) fun _ => triple_pure _ kept_refused
  refine triple_bind (triple_get (Q := fun got t => t = watch s) fun _ h => h) fun w => ?_
  cases w.storage.files device with
  | none => exact refused
  | some node =>
    refine triple_ask_bind (fun _ _ => trivial) fun opened =>
      triple_ite (fun _ => refused) fun _ => triple_pre (watchAttempts_kept device data) ?_
    rintro t rfl
    exact ⟨rfl,rfl⟩

/-! ## The call returns -/

def moves (a : Answer) : Bool := a.ok && decide (0 < a.count)
def Keeping (size : Nat) (a : Answer) : Prop := a.bytes.length = size
def Sized (device : Path) (size : Nat) (s : Storage) : Prop := ∀ node, s.files device = some node → node.data.length = size

theorem sized_disturb {device : Path} {size : Nat} {s : Storage} {bytes : Bytes} (keeps : bytes.length = size) :
    Sized device size (disturb device bytes s) := by
  intro node found
  simp only [disturb,setFile_same,map_eq_some_iff] at found
  obtain ⟨_,_,rfl⟩ := found
  exact keeps
theorem sized_deviceData {device : Path} {size : Nat} {s : Storage} (sized : Sized device size s)
    (read : deviceData s device = some contents) : contents.length = size := by
  obtain ⟨node,found,data⟩ := bind_eq_some_iff.mp read
  split at data
  · obtain rfl := some.inj data
    exact sized node found
  · cases data

variable {device : Path} {size : Nat}

theorem emmcWrite_ends (len start : Nat) : Ends moves (Keeping size) (len - start) (Sized device size)
    (emmcWrite device len start) fun _ => Sized device size := by
  refine ends_iterate (fun start => len - start) (I := fun _ => Sized device size)
    (round_ask (Q := fun _ => Sized device size) (fun start (more : start < len) => by omega) ?_ ?_) start
  rotate_left
  · exact fun _ _ _ sized => sized
  intro start a s as more sized keeps
  have after : Sized device size (disturb device a.bytes s) := sized_disturb keeps
  by_cases ok : a.ok = true
  · refine ⟨.inl (start + min a.count (min (len - start) (1 <<< 20))),_,by simp only [bind_run,modify_run,next,ok]; rfl,
      after,by omega,fun advances => ?_⟩
    have some : 0 < a.count := by simpa [moves,ok] using advances
    omega
  · have still : moves a = false := by simp [moves,ok]
    by_cases interrupted : a.interrupted = true
    · exact ⟨.inl start,_,by simp only [bind_run,modify_run,next,ok,interrupted]; rfl,after,le_rfl,
        fun advances => by rw [still] at advances; cases advances⟩
    · exact ⟨.inr false,_,by simp only [bind_run,modify_run,next,ok,interrupted]; rfl,after⟩
theorem readBlock_ends {toRead : Nat} (inside : p + toRead ≤ size) (buffer : Bytes) :
    Ends moves (Keeping size) (toRead - buffer.length) (Sized device size) (readBlock device p toRead buffer)
      fun _ => Sized device size := by
  refine ends_iterate (fun buffer => toRead - buffer.length) (I := fun _ => Sized device size)
    (round_ask (Q := fun _ => Sized device size) (fun buffer (more : buffer.length < toRead) => by omega) ?_ ?_) buffer
  rotate_left
  · exact fun _ _ _ sized => sized
  intro buffer a s as more sized keeps
  cases read : deviceData s device with
  | none => exact ⟨.inr none,s,by simp only [bind_run,get_run,next,read]; rfl,sized⟩
  | some contents =>
    have length := sized_deviceData sized read
    by_cases ok : a.ok = true
    · refine ⟨.inl (buffer ++ (contents.drop (p + buffer.length)).take (min a.count (toRead - buffer.length))),s,
        by simp only [bind_run,get_run,next,read,ok]; rfl,sized,?_,fun advances => ?_⟩
      · simp only [List.length_append]
        omega
      · have some : 0 < a.count := by simpa [moves,ok] using advances
        simp only [List.length_append,List.length_take,List.length_drop]
        omega
    · have still : moves a = false := by simp [moves,ok]
      by_cases interrupted : a.interrupted = true
      · exact ⟨.inl buffer,s,by simp only [bind_run,get_run,next,read,ok,interrupted]; rfl,sized,le_rfl,
          fun advances => by rw [still] at advances; cases advances⟩
      · exact ⟨.inr none,s,by simp only [bind_run,get_run,next,read,ok,interrupted]; rfl,sized⟩

theorem emmcVerify_ends (inside : data.length ≤ size) (p : Nat) :
    Ends moves (Keeping size) (data.length - p) (Sized device size) (emmcVerify device data p)
      fun _ => Sized device size := by
  refine ends_iterate (fun p => data.length - p) (I := fun _ => Sized device size) ?_ p
  intro p s as sized sound enough
  simp only at enough
  by_cases more : p < data.length
  · simp only [more,if_true]
    obtain ⟨result,used,value,sized',split,count⟩ :=
      readBlock_ends (by omega : p + min (data.length - p) 4096 ≤ size) [] s as sized sound (by
        omega)
    rw [bind_run,next_some value]
    cases result with
    | none => exact ⟨.inr .failed,used,rfl,split,sized',by omega⟩
    | some buffer =>
      by_cases same : buffer = (data.drop p).take (min (data.length - p) 4096)
      · simp only [same,if_true]
        exact ⟨.inl (p + 4096),used,rfl,split,sized',by omega,Or.inr (by omega)⟩
      · simp only [same,if_false]
        exact ⟨.inr (.differs p),used,rfl,split,sized',by omega⟩
  · simp only [more,if_false]
    exact ⟨.inr .same,[],rfl,rfl,sized,Nat.zero_le _⟩
theorem fsync_ends : Ends moves (Keeping size) 1 (Sized device size) (fsync device) fun _ => Sized device size := by
  refine ends_bind (m := 0) (ends_ask fun _ _ _ sized => sized) fun _ => ends_modify fun s sized node found => ?_
  simp only [setFile_same,map_eq_some_iff] at found
  obtain ⟨held,known,rfl⟩ := found
  exact sized held known
theorem emmcAttempts_ends (inside : data.length ≤ size) (left start : Nat) :
    Ends moves (Keeping size) (left * (2 * data.length + 2)) (Sized device size) (emmcAttempts device data left start)
      fun _ _ => True := by
  induction left generalizing start with
  | zero => exact ends_pure _ fun _ _ => trivial
  | succ left ih =>
    have total : (left + 1) * (2 * data.length + 2) = left * (2 * data.length + 2) + (2 * data.length + 2) := Nat.succ_mul _ _
    refine ends_more (n := (data.length - start) + (1 + (data.length + (left * (2 * data.length + 2) + 1)))) ?_ ?_
    · refine ends_bind (emmcWrite_ends data.length start) fun ok => ends_ite (fun _ => ends_pure _ fun _ _ => trivial) fun _ => ?_
      refine ends_bind fsync_ends fun _ => ends_bind (emmcVerify_ends inside 0) fun verified => ?_
      cases verified with
      | failed => exact ends_pure _ fun _ _ => trivial
      | differs p => exact ends_more (ih p) (by omega)
      | same =>
        refine ends_more (n := 1 + 0) ?_ (by omega)
        exact ends_bind (ends_ask fun _ _ _ h => h) fun _ => ends_pure _ fun _ _ => trivial
    · omega
theorem writeEmmc_ends (inside : data.length ≤ size) :
    Ends moves (Keeping size) (2 * (2 * data.length + 2) + 1) (Sized device size) (writeEmmc device data)
      fun _ _ => True := by
  refine ends_get fun s sized => ?_
  cases s.files device with
  | none => exact ends_pure _ fun _ _ => trivial
  | some node =>
    rw [Nat.add_comm]
    refine ends_bind (Q := fun _ => Sized device size) (ends_ask fun _ t _ same => same ▸ sized) fun opened => ?_
    exact ends_ite (fun _ => ends_pure _ fun _ _ => trivial) fun _ => emmcAttempts_ends inside 2 0

/-! ## `WriteToPartition` -/

/-- Whatever the device does, a return of 0 means that the last verification read back exactly the data.
    On a device that is long enough and takes and gives bytes again and again the call returns, and with
    0 if nothing failed. -/
theorem write_emmc_verified {target device : Path} (found : partitionOf (tokens target) = .ok (.emmc device))
    (data : Bytes) (s : Storage) :
    (∀ as, (writeToPartition data target s as).value = some 0 → ∃ pass before,
      (watchEmmc device data (watch s) as).state.passes = pass :: before ∧ pass.readBack = data) ∧
    ∀ size, data.length ≤ size → Sized device size s → ∀ f : Nat → Answer, (∀ n, Keeping size (f n)) →
      (∀ k, ∃ j ≥ k, moves (f j) = true) → ∃ n code,
        (writeToPartition data target s ((List.range n).map f)).value = some code ∧
        (Behaved (watchEmmc device data (watch s) ((List.range n).map f)).state → code = 0) := by
  have emmc : writeToPartition data target = writeEmmc device data := by rw [writeToPartition, found]
  have value (as : List Answer) : (watchEmmc device data (watch s) as).value = (writeEmmc device data s as).value :=
    congrArg Outcome.value (watchEmmc_erases device data (watch s) as)
  rw [emmc]
  constructor
  · intro as returned
    exact ((watchEmmc_kept device data s (watch s) as rfl).1 0 ((value as).trans returned)).1 rfl
  intro size inside sized f keeps fair
  obtain ⟨n, enough⟩ := enough_advances fair (2 * (2 * data.length + 2) + 1)
  have sound : ∀ a ∈ (List.range n).map f, Keeping size a := by
    intro a member
    obtain ⟨k, _, rfl⟩ := List.mem_map.mp member
    exact keeps k
  obtain ⟨code, _, returned, _⟩ := writeEmmc_ends inside s _ sized sound enough
  exact ⟨n, code, returned, ((watchEmmc_kept device data s (watch s) _ rfl).1 code ((value _).trans returned)).2⟩

/-! A device that stores one wrong byte in the first attempt. -/

def bootDevice : Path := "/dev/boot".toList
def bootStorage : Storage :=
  ⟨fun path => if path = bootDevice then some ⟨false, ⟨0, 0, 0⟩, [0, 0, 0, 0], none, false⟩ else none, fun _ => none,
    fun _ => false, fun _ => true⟩
def stores (bytes : Bytes) : Answer := { count := 4, bytes := bytes }
/-- The answers to the open, and to the write, the sync and the read of the first attempt; then all is stored. -/
def wrongOnce (n : Nat) : Answer := if n < 4 then stores [1, 9, 3, 4] else stores [1, 2, 3, 4]

theorem wrongOnce_verified :
    (∃ pass before, (watchEmmc bootDevice [1, 2, 3, 4] (watch bootStorage) ((List.range 8).map wrongOnce)).state.passes =
      pass :: before ∧ pass.readBack = [1, 2, 3, 4]) ∧
    ∃ n code, (writeToPartition [1, 2, 3, 4] "EMMC:/dev/boot".toList bootStorage
        ((List.range n).map wrongOnce)).value = some code ∧
      (Behaved (watchEmmc bootDevice [1, 2, 3, 4] (watch bootStorage) ((List.range n).map wrongOnce)).state →
        code = 0) := by
  have target : partitionOf (tokens "EMMC:/dev/boot".toList) = .ok (.emmc bootDevice) := by decide
  have verified := write_emmc_verified target [1, 2, 3, 4] bootStorage
  refine ⟨verified.1 _ (by decide +kernel), verified.2 4 (by decide) ?_ wrongOnce ?_ ?_⟩
  · intro node found
    have data : node.data = [0, 0, 0, 0] := by
      have here : bootStorage.files bootDevice = some ⟨false, ⟨0, 0, 0⟩, [0, 0, 0, 0], none, false⟩ := by decide
      obtain rfl := Option.some.inj (here.symm.trans found)
      rfl
    rw [data]
    rfl
  · intro n
    unfold wrongOnce
    split <;> rfl
  · intro k
    refine ⟨k, le_rfl, ?_⟩
    unfold wrongOnce
    split <;> rfl

end Recovery.EmmcVerify
