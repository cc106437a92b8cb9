import Recovery.Mtd

/-!
Which blocks the writer and the reader of a partition use.
-/
namespace Recovery.MtdBlocks
open Memory Chunking Mtd List

section
variable {p : MtdPartition} (chip : Chip p) {k : Nat} {data : Bytes} {rest : List Nat} {ctx : Writing p}

/-! ## The writer -/

/-- The writer can write the data to the block: the block is not said to be bad, and a try
    succeeds. -/
def Accepts (k : Nat) (data : Bytes) : Bool :=
  (chip.badBlock k = .good ∨ chip.badBlock k = .unsupported) && (retries chip k data).isSome

/-- What a block that is written changes: it is the next one that accepts the data, and the
    blocks before `k` stay as they are. -/
structure Wrote (k bound : Nat) (data : Bytes) (ctx ctx' : Writing p) (j : Nat) : Prop where
  low : k ≤ j
  high : j < bound
  accepts : Accepts chip j data = true
  refused : ∀ i, k ≤ i → i < j → Accepts chip i data = false
  pos : ctx'.pos = j + 1
  written : ctx'.written = ctx.written ++ [(j, data)]
  holds : ctx'.flash.block j = data
  frame : ∀ i < k, ctx'.flash.block i = ctx.flash.block i

private theorem retries_holds {retry : Nat} (found : retries chip k data = some retry) :
    (chip.attempt k retry data).holds = data := by
  have same {retry : Nat} (good : (chip.attempt k retry data).succeeds data = true) :
      (chip.attempt k retry data).holds = data := by
    simp only [Attempt.succeeds,Bool.and_eq_true,beq_iff_eq] at good
    exact good.2
  unfold retries at found
  split at found
  · cases found
    exact same ‹_›
  · split at found
    · cases found
      exact same ‹_›
    · cases found

/-! One block of the loop: it is passed, lost to a failed write, or holds the data. -/

private theorem writeLoop_passed
    (bad : ¬ (chip.badBlock k = .good ∨ chip.badBlock k = .unsupported)) : writeLoop chip data (k :: rest) ctx =
      writeLoop chip data rest { ctx with bad_block_offsets := ctx.bad_block_offsets ++ [k] } := by
  rw [writeLoop]
  cases answer : chip.badBlock k with
  | bad => rfl
  | error => rfl
  | good => exact absurd (.inl answer) bad
  | unsupported => exact absurd (.inr answer) bad
private theorem writeLoop_lost
    (allowed : chip.badBlock k = .good ∨ chip.badBlock k = .unsupported) (lost : retries chip k data = none) :
    writeLoop chip data (k :: rest) ctx = writeLoop chip data rest { ctx with
      flash := ctx.flash.set k _ (chip.erase_length k (chip.attempt k 1 data).holds)
      bad_block_offsets := ctx.bad_block_offsets ++ [k] } := by
  rcases allowed with answer | answer <;> rw [writeLoop,answer,lost]
private theorem writeLoop_put {retry : Nat}
    (allowed : chip.badBlock k = .good ∨ chip.badBlock k = .unsupported) (put : retries chip k data = some retry) :
    writeLoop chip data (k :: rest) ctx = some { ctx with
      pos := k + 1
      flash := ctx.flash.set k _ (chip.attempt_length k retry data)
      written := ctx.written ++ [(k, data)] } := by
  rcases allowed with answer | answer <;> rw [writeLoop,answer,put]

variable {ctx' : Writing p} {j : Nat} {n : Nat} {s : Writing p} {blocks : List Bytes}

private theorem writeLoop_spec
    (done : writeLoop chip data (List.range' k n) ctx = some ctx') : ∃ j, Wrote chip k (k + n) data ctx ctx' j := by
  induction n generalizing k ctx with
  | zero => cases done
  | succ n ih =>
    rw [range'_succ] at done
    have skip {ctx₀ : Writing p} (later : writeLoop chip data (range' (k + 1) n) ctx₀ = some ctx')
        (refuses : Accepts chip k data = false) (same : ctx₀.written = ctx.written)
        (before : ∀ i < k, ctx₀.flash.block i = ctx.flash.block i) : ∃ j, Wrote chip k (k + (n + 1)) data ctx ctx' j := by
      obtain ⟨j,wrote⟩ := ih later
      have low := wrote.low
      have high := wrote.high
      refine ⟨j,by omega,by omega,wrote.accepts,fun i least less => ?_,wrote.pos,by rw [wrote.written,same],
        wrote.holds,fun i less => ?_⟩
      · rcases Nat.eq_or_lt_of_le least with rfl | after
        · exact refuses
        · exact wrote.refused i after less
      · rw [wrote.frame i (by omega),before i less]
    by_cases allowed : chip.badBlock k = .good ∨ chip.badBlock k = .unsupported
    · cases retried : retries chip k data with
      | none =>
        rw [writeLoop_lost chip allowed retried] at done
        exact skip done (by simp [Accepts,retried]) rfl fun i less => by simp [Flash.set,show i ≠ k by omega]
      | some retry =>
        rw [writeLoop_put chip allowed retried] at done
        obtain rfl := Option.some.inj done
        refine ⟨k,le_rfl,by omega,by simpa [Accepts,retried] using allowed,fun i _ _ => by omega,rfl,rfl,?_,
          fun i less => ?_⟩
        · simp [Flash.set,retries_holds chip retried]
        · simp [Flash.set,show i ≠ k by omega]
    · rw [writeLoop_passed chip allowed] at done
      exact skip done (by simp [Accepts,allowed]) rfl fun _ _ => rfl
private theorem write_block_spec (done : write_block chip ctx data = some ctx') :
    ∃ j, Wrote chip ctx.pos p.blocks data ctx ctx' j := by
  obtain ⟨j,wrote⟩ := writeLoop_spec chip done
  have low := wrote.low
  have high := wrote.high
  exact ⟨j,low,by omega,wrote.accepts,wrote.refused,wrote.pos,wrote.written,wrote.holds,wrote.frame⟩

/-! ## The loop of `mtd_write_data` -/

private theorem writeWhole_eq (enough : n * p.erase_size ≤ data.length) :
    putAll p.erase_size (write_block chip) ⟨s,[]⟩ data =
      (writeWhole chip n s data).bind fun r => putAll p.erase_size (write_block chip) ⟨r.1,[]⟩ r.2 := by
  induction n generalizing s data with
  | zero => rfl
  | succ n ih =>
    have positive := p.erase_pos
    rw [Nat.succ_mul] at enough
    rw [writeWhole,if_pos (by omega)]
    conv_lhs => rw [← take_append_drop p.erase_size data]
    have length : (data.take p.erase_size).length = p.erase_size := by
      rw [length_take]
      omega
    have some : data.take p.erase_size ≠ [] := by
      intro none
      rw [none] at length
      simp at length
      omega
    rw [putAll_append,putAll_full some (by simpa using length),nil_append]
    cases write_block chip s (data.take p.erase_size) with
    | none => rfl
    | some t => exact ih (by rw [length_drop]; omega)
private theorem writeWhole_rest {t : Writing p} {rest : Bytes} (enough : n * p.erase_size ≤ data.length)
    (done : writeWhole chip n s data = some (t, rest)) : rest = data.drop (n * p.erase_size) := by
  induction n generalizing s data with
  | zero =>
    cases done
    simp
  | succ n ih =>
    rw [Nat.succ_mul] at enough
    rw [writeWhole,if_pos (by omega)] at done
    cases wrote : write_block chip s (data.take p.erase_size) with
    | none =>
      rw [wrote] at done
      cases done
    | some u =>
      rw [wrote] at done
      have := ih (by rw [length_drop]; omega) done
      rw [this,drop_drop,Nat.succ_mul,Nat.add_comm]

theorem wholeRounds_eq {fuel : Nat}
    (enough : data.length - data.length / p.erase_size * p.erase_size ≤ fuel)
    (ih : ∀ ctx : MtdWriteContext p, ∀ rest : Bytes, ctx.stored.length < p.erase_size → rest.length ≤ fuel →
      writeRounds chip fuel ctx rest = putAll p.erase_size (write_block chip) ctx rest) :
    ((writeWhole chip (data.length / p.erase_size) s data).bind fun r => writeRounds chip fuel ⟨r.1,[]⟩ r.2) =
      putAll p.erase_size (write_block chip) ⟨s,[]⟩ data := by
  have whole : data.length / p.erase_size * p.erase_size ≤ data.length := Nat.div_mul_le_self _ _
  rw [writeWhole_eq chip whole]
  cases wrote : writeWhole chip (data.length / p.erase_size) s data with
  | none => rfl
  | some r =>
    have rest := writeWhole_rest chip whole wrote
    refine ih ⟨r.1,[]⟩ r.2 p.erase_pos ?_
    rwa [rest,length_drop]

theorem writeRounds_nil (fuel : Nat) (ctx : MtdWriteContext p) : writeRounds chip fuel ctx [] = some ctx := by
  cases fuel <;> rfl

theorem writeRounds_eq {fuel : Nat} {ctx : MtdWriteContext p} (short : ctx.stored.length < p.erase_size)
    (enough : data.length ≤ fuel) : writeRounds chip fuel ctx data = putAll p.erase_size (write_block chip) ctx data := by
  induction fuel generalizing ctx data with
  | zero =>
    obtain rfl : data = [] := length_eq_zero_iff.mp (by omega)
    rfl
  | succ fuel ih =>
    unfold writeRounds
    by_cases none : data = []
    · rw [if_pos none,none]
      rfl
    have some : 0 < data.length := length_pos_iff.mpr none
    rw [if_neg none]
    unfold coalesce
    by_cases buffered : ctx.stored.length > 0 ∨ data.length < p.erase_size
    · rw [if_pos buffered]
      dsimp only
      by_cases less : data.length < p.erase_size - ctx.stored.length
      · have length : (ctx.stored ++ data).length = ctx.stored.length + data.length := length_append
        rw [take_of_length_le (by omega),drop_of_length_le (by omega),flush,if_neg (by dsimp only; omega),
          putAll_short (by omega)]
        simp only [Option.bind_eq_bind,Option.bind_some]
        rw [if_neg (by omega),writeRounds_nil]
      · have taken : (data.take (p.erase_size - ctx.stored.length)).length = p.erase_size - ctx.stored.length := by
          rw [length_take]
          omega
        have full : (ctx.stored ++ data.take (p.erase_size - ctx.stored.length)).length = p.erase_size := by
          rw [length_append,taken]
          omega
        have nonempty : data.take (p.erase_size - ctx.stored.length) ≠ [] := by
          rw [← length_pos_iff,taken]
          omega
        conv_rhs => rw [← take_append_drop (p.erase_size - ctx.stored.length) data]
        rw [putAll_append,putAll_full nonempty (by rw [taken]; omega),flush,if_pos full]
        cases write_block chip ctx.state (ctx.stored ++ data.take (p.erase_size - ctx.stored.length)) with
        | none => rfl
        | some s =>
          refine wholeRounds_eq chip ?_ fun ctx rest => ih
          rw [length_drop]
          omega
    · rw [if_neg buffered]
      have empty : ctx.stored = [] := length_eq_zero_iff.mp (by omega)
      have positive := p.erase_pos
      obtain ⟨s,stored⟩ := ctx
      obtain rfl : stored = [] := empty
      have one : 1 ≤ data.length / p.erase_size := (Nat.one_le_div_iff positive).mpr (by omega)
      have size := Nat.le_mul_of_pos_left p.erase_size one
      have idle : flush chip ⟨s,[]⟩ = Option.some ⟨s,[]⟩ := if_neg (by simp; omega)
      dsimp only
      rw [idle]
      exact wholeRounds_eq chip (by omega) fun ctx rest => ih
theorem mtd_write_data_eq {ctx : MtdWriteContext p} (short : ctx.stored.length < p.erase_size) :
    mtd_write_data chip ctx data = putAll p.erase_size (write_block chip) ctx data := writeRounds_eq chip short le_rfl

/-! ## A whole run of the writer -/

/-- The data that the writer has still to write when it comes to a block. -/
def remaining (pieces : List Bytes) : Nat → List Bytes
  | 0 => pieces
  | k + 1 =>
    match remaining pieces k with
    | [] => []
    | data :: rest => if Accepts chip k data then rest else data :: rest

theorem remaining_refused {pieces rest : List Bytes}
    (now : remaining chip pieces k = data :: rest) (refused : ∀ i, k ≤ i → i < j → Accepts chip i data = false)
    {i : Nat} (low : k ≤ i) (high : i ≤ j) : remaining chip pieces i = data :: rest := by
  induction i, low using Nat.le_induction with
  | base => exact now
  | succ i low ih => simp [remaining,ih (by omega),refused i low (by omega)]
theorem remaining_accepted {pieces rest : List Bytes}
    (now : remaining chip pieces k = data :: rest) (accepts : Accepts chip k data = true) :
    remaining chip pieces (k + 1) = rest := by simp [remaining,now,accepts]

/-- The data was tried at each block up to the position, and the blocks that were written are
    those that accepted it. -/
def Placed (written : List (Nat × Bytes)) (pos : Nat) : Prop :=
  ∀ rest, remaining chip (written.map Prod.snd ++ rest) pos = rest ∧ ∀ i < pos, ∃ data later,
    remaining chip (written.map Prod.snd ++ rest) i = data :: later ∧
      (i ∈ written.map Prod.fst ↔ Accepts chip i data = true)

theorem Placed.step {written : List (Nat × Bytes)} {pos : Nat} (placed : Placed chip written pos)
    (below : ∀ w ∈ written, w.1 < pos) (low : pos ≤ j) (accepts : Accepts chip j data = true)
    (refused : ∀ i, pos ≤ i → i < j → Accepts chip i data = false) : Placed chip (written ++ [(j, data)]) (j + 1) := by
  intro rest
  obtain ⟨now,before⟩ := placed (data :: rest)
  have same : (written ++ [(j,data)]).map Prod.snd ++ rest = written.map Prod.snd ++ data :: rest := by simp
  rw [same]
  refine ⟨remaining_accepted chip (remaining_refused chip now refused low le_rfl) accepts,fun i less => ?_⟩
  have numbers : i ∈ (written ++ [(j,data)]).map Prod.fst ↔ i ∈ written.map Prod.fst ∨ i = j := by simp
  rcases Nat.lt_or_ge i pos with early | late
  · obtain ⟨tried,later,still,here⟩ := before i early
    refine ⟨tried,later,still,?_⟩
    rw [numbers,← here,or_iff_left (by omega)]
  refine ⟨data,rest,remaining_refused chip now refused late (by omega),?_⟩
  have unknown : i ∉ written.map Prod.fst := by
    intro member
    obtain ⟨w,known,rfl⟩ := mem_map.mp member
    have := below w known
    omega
  rw [numbers,or_iff_right unknown]
  constructor
  · rintro rfl
    exact accepts
  · intro accepted
    by_contra other
    rw [refused i late (by omega)] at accepted
    cases accepted

/-- The blocks that were written: their numbers go up, the last one is just before the
    position, they hold their data, and each was the first to accept it. -/
structure Written (ctx : Writing p) : Prop where
  increasing : (ctx.written.map Prod.fst).Pairwise (· < ·)
  below : ∀ w ∈ ctx.written, w.1 < ctx.pos
  bound : ctx.pos ≤ p.blocks
  last : ctx.pos = 0 ∨ ∃ w ∈ ctx.written, ctx.pos = w.1 + 1
  holds : ∀ w ∈ ctx.written, ctx.flash.block w.1 = w.2
  whole : ∀ w ∈ ctx.written, w.2.length = p.erase_size
  placed : Placed chip ctx.written ctx.pos

theorem Written.step (written : Written chip ctx)
    (length : data.length = p.erase_size) (done : write_block chip ctx data = some ctx') :
    Written chip ctx' ∧ ctx'.written.map Prod.snd = ctx.written.map Prod.snd ++ [data] := by
  obtain ⟨j,wrote⟩ := write_block_spec chip done
  have low := wrote.low
  have high := wrote.high
  have place := wrote.pos
  have members : ∀ w, w ∈ ctx'.written ↔ w ∈ ctx.written ∨ w = (j,data) := by
    intro w
    rw [wrote.written]
    simp
  refine ⟨⟨?_,fun w member => ?_,by omega,.inr ⟨(j,data),(members _).mpr (.inr rfl),place⟩,fun w member => ?_,
    fun w member => ?_,?_⟩,by rw [wrote.written]; simp⟩
  · rw [wrote.written,map_append,pairwise_append]
    refine ⟨written.increasing,by simp,fun i member k last => ?_⟩
    obtain ⟨w,known,rfl⟩ := mem_map.mp member
    have := written.below w known
    simp only [map_cons,map_nil,mem_singleton] at last
    omega
  · rcases (members w).mp member with known | rfl
    · have := written.below w known
      omega
    · omega
  · rcases (members w).mp member with known | rfl
    · rw [wrote.frame w.1 (written.below w known),written.holds w known]
    · exact wrote.holds
  · rcases (members w).mp member with known | rfl
    · exact written.whole w known
    · exact length
  · rw [wrote.written,place]
    exact written.placed.step chip written.below low wrote.accepts wrote.refused

/-- What has been taken from the user: the blocks that were written, and the buffer. -/
structure Streamed (taken : Bytes) (ctx : MtdWriteContext p) : Prop where
  written : Written chip ctx.state
  short : ctx.stored.length < p.erase_size
  stream : (ctx.state.written.map Prod.snd).flatten ++ ctx.stored = taken

theorem Streamed.one {taken : Bytes} {ctx ctx' : MtdWriteContext p} {x : UInt8} (streamed : Streamed chip taken ctx)
    (done : putOne p.erase_size (write_block chip) ctx x = some ctx') : Streamed chip (taken ++ [x]) ctx' := by
  have short := streamed.short
  unfold putOne at done
  split at done
  · rename_i full
    cases wrote : write_block chip ctx.state (ctx.stored ++ [x]) with
    | none =>
      rw [wrote] at done
      cases done
    | some s =>
      rw [wrote] at done
      obtain rfl := Option.some.inj done
      obtain ⟨written,blocks⟩ := streamed.written.step chip (by rw [length_append]; exact full) wrote
      refine ⟨written,p.erase_pos,?_⟩
      rw [blocks,flatten_append,← streamed.stream]
      simp
  · rename_i more
    obtain rfl := Option.some.inj done
    refine ⟨streamed.written,?_,?_⟩
    · rw [length_append,length_singleton]
      omega
    · rw [← streamed.stream,append_assoc]
theorem Streamed.all {taken : Bytes} {ctx ctx' : MtdWriteContext p} (streamed : Streamed chip taken ctx)
    (done : putAll p.erase_size (write_block chip) ctx data = some ctx') : Streamed chip (taken ++ data) ctx' :=
  putAll_keeps (fun _ _ _ _ holds one => holds.one chip one) streamed done

theorem writes_eq {writes : List Bytes} {taken : Bytes} {ctx : MtdWriteContext p} (streamed : Streamed chip taken ctx) :
    writes.foldlM (mtd_write_data chip) ctx = putAll p.erase_size (write_block chip) ctx writes.flatten := by
  induction writes generalizing taken ctx with
  | nil => rfl
  | cons data writes ih =>
    rw [foldlM_cons,mtd_write_data_eq chip streamed.short,flatten_cons,putAll_append]
    cases put : putAll p.erase_size (write_block chip) ctx data with
    | none => rfl
    | some q => exact ih (streamed.all chip put)

/-- The data with zero bytes up to the end of its last block. -/
def padded (size : Nat) (data : Bytes) : Bytes := data ++ List.replicate ((size - data.length % size) % size) 0

theorem start_streamed (flash : Flash p) : Streamed chip [] (⟨⟨0,flash,[],[]⟩,[]⟩ : MtdWriteContext p) :=
  ⟨⟨List.Pairwise.nil,by simp,Nat.zero_le _,.inl rfl,by simp,by simp,fun _ => ⟨rfl,by simp⟩⟩,p.erase_pos,rfl⟩

theorem eraseBlocks_zero (ctx : MtdWriteContext p) (total : Int) :
    eraseBlocks chip ctx total 0 = if 0 ≤ total then some (ctx, ctx.state.pos) else none := by
  unfold eraseBlocks
  by_cases counted : 0 ≤ total
  · rw [if_neg (not_lt.mpr counted),if_pos counted]
    rfl
  · rw [if_pos (not_le.mp counted),if_neg counted]

theorem mtd_write_close_eq (closed : Bool) (ctx : MtdWriteContext p) :
    mtd_write_close chip closed ctx = (writePending chip ctx).bind fun q =>
      if closed ∧ 0 ≤ p.blocksLeft q.state.pos then some q else none := by
  unfold mtd_write_close mtd_erase_blocks
  have erases (q : MtdWriteContext p) (total : Int) : ((eraseBlocks chip q total (if (0 : Int) < 0 then total else 0)).bind
      fun r => if closed then some r.1 else none) = if closed ∧ 0 ≤ total then some q else none := by
    rw [if_neg (lt_irrefl 0),eraseBlocks_zero]
    by_cases counted : 0 ≤ total
    · cases closed <;> simp [counted]
    · simp [counted]
  rw [Option.bind_eq_bind,Option.bind_eq_bind,Option.bind_assoc]
  exact congrArg _ (funext fun q => erases q (p.blocksLeft q.state.pos))

theorem length_blocks (written : Written chip ctx) :
    (ctx.written.map Prod.snd).flatten.length = ctx.written.length * p.erase_size := by
  rw [length_flatten,map_map]
  have same : ctx.written.map (length ∘ Prod.snd) = ctx.written.map fun _ => p.erase_size :=
    map_congr_left fun w member => written.whole w member
  rw [same]
  simp

theorem writePartition_spec {flash : Flash p} {writes : List Bytes} {closed : Bool}
    (done : writePartition chip flash writes closed = some ctx) :
    Written chip ctx ∧ (ctx.written.map Prod.snd).flatten = padded p.erase_size writes.flatten := by
  unfold writePartition at done
  rw [writes_eq chip (start_streamed chip flash)] at done
  cases put : putAll p.erase_size (write_block chip) ⟨⟨0,flash,[],[]⟩,[]⟩ writes.flatten with
  | none =>
    rw [put] at done
    cases done
  | some q =>
    rw [put] at done
    have streamed := (start_streamed chip flash).all chip put
    rw [nil_append] at streamed
    have short := streamed.short
    have rest : writes.flatten.length % p.erase_size = q.stored.length := by
      rw [← streamed.stream,length_append,length_blocks chip streamed.written,Nat.add_comm,Nat.add_mul_mod_self_right,
        Nat.mod_eq_of_lt short]
    have last {final : MtdWriteContext p} (pended : writePending chip q = some final) : final.state = ctx := by
      simp only [Option.bind_eq_bind,Option.bind_some,mtd_write_close_eq,pended] at done
      by_cases finishes : closed ∧ 0 ≤ p.blocksLeft final.state.pos
      · rw [if_pos finishes] at done
        exact Option.some.inj done
      · rw [if_neg finishes] at done
        cases done
    unfold padded
    rw [rest]
    by_cases pending : q.stored.length > 0
    · cases wrote : write_block chip q.state (q.stored ++ replicate (p.erase_size - q.stored.length) 0) with
      | none =>
        simp [mtd_write_close_eq,writePending,if_pos pending,wrote] at done
      | some s =>
        obtain rfl : s = ctx := last (by rw [writePending,if_pos pending,wrote]; rfl)
        obtain ⟨written,blocks⟩ := streamed.written.step chip (by simp; omega) wrote
        refine ⟨written,?_⟩
        rw [blocks,flatten_append,← streamed.stream,Nat.mod_eq_of_lt (by omega)]
        simp
    · obtain rfl : q.state = ctx := last (if_neg pending)
      have empty : q.stored = [] := length_eq_zero_iff.mp (by omega)
      refine ⟨streamed.written,?_⟩
      rw [← streamed.stream,empty]
      simp

/-! ## The reader -/

/-- A block just before could not be read and added errors to the count, which is then
    compared with an old count. -/
def stale : Nat → Bool
  | 0 => false
  | k + 1 => !chip.readable k && (stale k || decide (chip.failures k > 0))
def Takes (k : Nat) : Bool :=
  chip.readable k && decide (chip.failures k = 0) && !stale chip k && decide (chip.badWhenRead k = .good)
/-- The blocks that the reader returns from a position on. -/
def taken (k : Nat) : List Nat := (p.blocksFrom k).filter (Takes chip)

theorem stale_after (takes : Takes chip k = true) : stale chip (k + 1) = false := by
  simp only [Takes,Bool.and_eq_true] at takes
  simp [stale,takes.1.1.1]

theorem readLoop_spec (flash : Flash p) {before failed : Nat} (low : before ≤ failed)
    (old : stale chip k = true ↔ failed ≠ before) : ((List.range' k n).find? (Takes chip) = none ∧
      readLoop chip flash before (List.range' k n) failed = none) ∨
    ∃ j count, (List.range' k n).find? (Takes chip) = some j ∧
      readLoop chip flash before (List.range' k n) failed = some ((j, flash.block j), ⟨j + 1,count⟩) := by
  induction n generalizing k before failed with
  | zero => exact .inl ⟨rfl,rfl⟩
  | succ n ih =>
    rw [range'_succ,find?_cons,readLoop]
    cases readable : chip.readable k with
    | false =>
      have skips : Takes chip k = false := by simp [Takes,readable]
      rw [if_pos rfl,skips]
      refine ih (by omega) ?_
      simp only [stale,readable,Bool.not_false,Bool.true_and,Bool.or_eq_true,decide_eq_true_eq,old]
      omega
    | true =>
      have fresh : stale chip (k + 1) = false := by simp [stale,readable]
      rw [if_neg (by decide)]
      by_cases raised : failed + chip.failures k ≠ before
      · have skips : Takes chip k = false := by
          by_contra takes
          simp only [Takes,Bool.not_eq_false,Bool.and_eq_true,decide_eq_true_eq,Bool.not_eq_true'] at takes
          have := (not_congr old).mp (by simp [takes.1.2])
          omega
        rw [if_pos raised,skips]
        exact ih le_rfl (by simp [fresh])
      · rw [if_neg raised]
        have clean : chip.failures k = 0 ∧ failed = before := by omega
        have notStale : stale chip k = false := by
          by_contra wrong
          exact (old.mp (by simpa using wrong)) clean.2
        by_cases good : chip.badWhenRead k = .good
        · have takes : Takes chip k = true := by simp [Takes,readable,clean.1,notStale,good]
          rw [if_neg (by simp [good]),takes]
          exact .inr ⟨k,_,rfl,rfl⟩
        · have skips : Takes chip k = false := by simp [Takes,good]
          rw [if_pos good,skips]
          exact ih (by omega) (by simp [fresh]; omega)

theorem taken_none (none : (p.blocksFrom k).find? (Takes chip) = none) : taken chip k = [] := by
  rw [find?_eq_none] at none
  exact filter_eq_nil_iff.mpr none
theorem taken_some (found : (p.blocksFrom k).find? (Takes chip) = some j) :
    Takes chip j = true ∧ taken chip k = j :: taken chip (j + 1) := by
  obtain ⟨takes,skipped,rest,split,skips⟩ := find?_eq_some_iff_append.mp found
  refine ⟨takes,?_⟩
  rw [taken,split,filter_append,filter_eq_nil_iff.mpr (by simpa using skips),nil_append,
    filter_cons_of_pos takes,taken]
  -- What follows the block in the list are the blocks after it.
  obtain ⟨n,short,-,after⟩ := range'_eq_append_iff.mp split
  obtain ⟨rfl,positive,rfl⟩ := range'_eq_cons_iff.mp after.symm
  have count : p.blocks - k - n - 1 = p.blocks - (k + n * 1 + 1) := by omega
  rw [count,MtdPartition.blocksFrom]

theorem read_block_spec (flash : Flash p) (failed : Nat) (fresh : stale chip k = false) :
    (taken chip k = [] ∧ read_block chip flash ⟨k,failed⟩ = none) ∨
    ∃ j count, stale chip (j + 1) = false ∧ taken chip k = j :: taken chip (j + 1) ∧
      read_block chip flash ⟨k,failed⟩ = some ((j, flash.block j), ⟨j + 1,count⟩) := by
  rcases readLoop_spec chip flash (n := p.blocks - k) (le_refl failed) (by simp [fresh] : stale chip k = true ↔ _) with
    ⟨none,fails⟩ | ⟨j,count,found,reads⟩
  · exact .inl ⟨taken_none chip none,fails⟩
  · obtain ⟨takes,next⟩ := taken_some chip found
    exact .inr ⟨j,count,stale_after chip takes,next,reads⟩

theorem readBlocks_spec (flash : Flash p) {blocks : List Nat} (failed : Nat)
    (fresh : stale chip k = false) (all : taken chip k = blocks) :
    (blocks.length < n ∧ readBlocks chip flash n ⟨k,failed⟩ = none) ∨
    ∃ r, n ≤ blocks.length ∧
      readBlocks chip flash n ⟨k,failed⟩ = some ((blocks.take n).map fun j => (j, flash.block j), r) := by
  induction n generalizing k failed blocks with
  | zero => exact .inr ⟨⟨k,failed⟩,Nat.zero_le _,by rw [take_zero]; rfl⟩
  | succ n ih =>
    rcases read_block_spec chip flash failed fresh with ⟨nothing,fails⟩ | ⟨j,count,fresh,next,reads⟩
    · have none : blocks = [] := all.symm.trans nothing
      exact .inl ⟨by simp [none],by simp [readBlocks,fails]⟩
    obtain ⟨others,rfl,after⟩ : ∃ others, blocks = j :: others ∧ taken chip (j + 1) = others :=
      ⟨_,all.symm.trans next,rfl⟩
    rcases ih count fresh after with ⟨few,fails⟩ | ⟨r,many,rest⟩
    · exact .inl ⟨by simpa using few,by simp [readBlocks,reads,fails]⟩
    · exact .inr ⟨r,by simpa using many,by simp [readBlocks,reads,rest]⟩

/-! ## Writer and reader -/

def pieces (size : Nat) (data : Bytes) : List Bytes :=
  (List.range (data.length / size)).map fun n => (data.drop (n * size)).take size
theorem pieces_stream {size : Nat} {tail : Bytes} (short : tail.length < size)
    (whole : ∀ block ∈ blocks, block.length = size) : pieces size (blocks.flatten ++ tail) = blocks := by
  induction blocks with
  | nil => simp [pieces,Nat.div_eq_of_lt short]
  | cons block rest ih =>
    have first : block.length = size := whole block mem_cons_self
    have later := ih fun other member => whole other (mem_cons_of_mem _ member)
    unfold pieces at later ⊢
    rw [flatten_cons,append_assoc,length_append,first,Nat.add_div_left _ (by omega),
      range_succ_eq_map,map_cons,map_map]
    refine congrArg₂ _ (by simp [← first]) (Eq.trans (map_congr_left fun n _ => ?_) later)
    rw [Function.comp_apply,Nat.succ_mul,Nat.add_comm,← drop_drop,← first,drop_left]
theorem pieces_flatten {size : Nat} (positive : 0 < size)
    (whole : ∀ block ∈ blocks, block.length = size) : pieces size blocks.flatten = blocks := by
  simpa using pieces_stream (show ([] : Bytes).length < size from positive) whole

/-- At each block that the writer tries, the reader takes the block just if the writer could
    write to it. -/
def Agrees (data : Bytes) : Prop :=
  ∀ k < p.blocks, ∀ piece ∈ (remaining chip (pieces p.erase_size data) k).head?, Takes chip k = Accepts chip k piece

theorem take_taken_iff {numbers : List Nat} {pos : Nat} (increasing : numbers.Pairwise (· < ·))
    (below : ∀ k ∈ numbers, k < pos) (bound : pos ≤ p.blocks) (last : pos = 0 ∨ ∃ k ∈ numbers, pos = k + 1) :
    numbers <+: taken chip 0 ↔ ∀ k < pos, Takes chip k = true ↔ k ∈ numbers := by
  have members (k : Nat) (less : k < pos) : k ∈ taken chip 0 ↔ Takes chip k = true := by
    simp only [taken,MtdPartition.blocksFrom,mem_filter,mem_range'_1,and_iff_right_iff_imp]
    omega
  have sorted : (taken chip 0).Pairwise (· < ·) := List.Pairwise.filter _ pairwise_lt_range'
  constructor
  · rintro ⟨later,split⟩ k less
    rw [← members k less,← split,mem_append]
    refine ⟨fun member => ?_,.inl⟩
    rcases member with known | after
    · exact known
    -- What follows the prefix is greater than its last number.
    rcases last with none | ⟨final,known,rfl⟩
    · omega
    · rw [← split,pairwise_append] at sorted
      have := sorted.2.2 final known k after
      omega
  · intro same
    have front : (range' 0 pos).filter (Takes chip) = numbers := by
      refine List.Perm.eq_of_pairwise (fun i k _ _ less more => absurd (less.trans more) (lt_irrefl i))
        (List.Pairwise.filter _ pairwise_lt_range') increasing ?_
      refine (perm_ext_iff_of_nodup ((nodup_range').filter _) (increasing.imp Nat.ne_of_lt)).mpr fun k => ?_
      simp only [mem_filter,mem_range'_1]
      constructor
      · rintro ⟨less,takes⟩
        exact (same k (by omega)).mp takes
      · intro known
        have less := below k known
        exact ⟨by omega,(same k less).mpr known⟩
    rw [taken,MtdPartition.blocksFrom,Nat.sub_zero,← front]
    obtain ⟨more,split⟩ := Nat.exists_eq_add_of_le bound
    rw [split,← range'_append_1,filter_append]
    exact prefix_append _ _

theorem remaining_nil {pos : Nat} (done : remaining chip blocks pos = []) (after : pos ≤ k) :
    remaining chip blocks k = [] := by
  induction k, after using Nat.le_induction with
  | base => exact done
  | succ k after ih => simp [remaining,ih]

theorem agrees_iff (written : Written chip ctx)
    (stream : (ctx.written.map Prod.snd).flatten = data) :
    Agrees chip data ↔ ∀ k < ctx.pos, Takes chip k = true ↔ k ∈ ctx.written.map Prod.fst := by
  have cut : pieces p.erase_size data = ctx.written.map Prod.snd ++ [] := by
    rw [append_nil,← stream]
    refine pieces_flatten p.erase_pos fun block member => ?_
    obtain ⟨w,known,rfl⟩ := mem_map.mp member
    exact written.whole w known
  obtain ⟨all,tried⟩ := written.placed []
  unfold Agrees
  rw [cut]
  constructor
  · intro agrees k less
    obtain ⟨piece,later,still,here⟩ := tried k less
    rw [here,agrees k (less.trans_le written.bound) piece (by rw [still]; rfl)]
  intro same k _ piece member
  rcases Nat.lt_or_ge k ctx.pos with less | more
  · obtain ⟨other,later,still,here⟩ := tried k less
    rw [still,head?_cons,Option.mem_some_iff] at member
    rw [Bool.eq_iff_iff,same k less,here,member]
  · rw [remaining_nil chip all more] at member
    cases member

theorem written_prefix_iff (written : Written chip ctx)
    (stream : (ctx.written.map Prod.snd).flatten = data) :
    ctx.written.map Prod.fst <+: taken chip 0 ↔ Agrees chip data := by
  have below : ∀ k ∈ ctx.written.map Prod.fst, k < ctx.pos := by
    intro k member
    obtain ⟨w,known,rfl⟩ := mem_map.mp member
    exact written.below w known
  have last : ctx.pos = 0 ∨ ∃ k ∈ ctx.written.map Prod.fst, ctx.pos = k + 1 := by
    rcases written.last with none | ⟨w,known,place⟩
    · exact .inl none
    · exact .inr ⟨w.1,mem_map_of_mem known,place⟩
  rw [take_taken_iff chip written.increasing below written.bound last,agrees_iff chip written stream]

theorem readBlocks_written_iff (written : Written chip ctx) (failed : Nat) :
    (readBlocks chip ctx.flash ctx.written.length ⟨0,failed⟩).map Prod.fst = some ctx.written ↔
      ctx.written.map Prod.fst <+: taken chip 0 := by
  have numbered : (ctx.written.map Prod.fst).map (fun j => (j,ctx.flash.block j)) = ctx.written := by
    rw [map_map]
    conv_rhs => rw [← map_id ctx.written]
    refine map_congr_left fun w member => ?_
    simp [written.holds w member]
  obtain ⟨blocks,all⟩ : ∃ blocks, taken chip 0 = blocks := ⟨_,rfl⟩
  rw [all,prefix_iff_eq_take,length_map]
  rcases readBlocks_spec chip ctx.flash (n := ctx.written.length) failed rfl all with ⟨few,fails⟩ | ⟨r,many,reads⟩
  · rw [fails]
    refine ⟨nofun,fun same => ?_⟩
    have length := congrArg length same
    simp only [length_map,length_take] at length
    omega
  · rw [reads,Option.map_some,Option.some.injEq]
    constructor
    · intro same
      conv_lhs => rw [← same]
      rw [map_map]
      exact map_id _
    · intro same
      rw [← same,numbered]

/-- The reader returns the blocks that the writer reported as written, exactly when it agrees
    with the writer on each block that the writer tried. -/
theorem reader_returns_written_iff {flash : Flash p} {writes : List Bytes} {closed : Bool} {ctx : Writing p}
    (done : writePartition chip flash writes closed = some ctx) (failed : Nat) :
    (readBlocks chip ctx.flash ctx.written.length ⟨0, failed⟩).map Prod.fst = some ctx.written ↔
      Agrees chip (padded p.erase_size writes.flatten) := by
  obtain ⟨written, stream⟩ := writePartition_spec chip done
  rw [readBlocks_written_iff chip written, written_prefix_iff chip written stream]

end

/-! A partition of two blocks of one byte, with a first block that holds no data. -/

def twoBlocks : MtdPartition := ⟨2, 1, by decide⟩
/-- All is well with the second block. The first one answers `unsupported` or `good` to
    `MEMGETBADBLOCK`, and each try to write it leaves a 0. -/
def weakFirst (first : BadBlock) : Chip twoBlocks where
  badBlock k := if k = 0 then first else .good
  attempt k _ data := ⟨true, true, if k = 0 then [0] else [data.headD 0]⟩
  erase _ _ := [255]
  readable _ := true
  failures _ := 0
  badWhenRead k := if k = 0 then first else .good
  attempt_length k _ _ := by
    dsimp only
    split <;> rfl
  erase_length _ _ := rfl
def blank : Flash twoBlocks := ⟨fun _ => [255], fun _ => rfl⟩

/-- The blocks that were written, and as many of those that are then read. -/
def writtenAndRead (chip : Chip twoBlocks) (writes : List Bytes) : Option (List (Nat × Bytes) × Option (List (Nat × Bytes))) :=
  (writePartition chip blank writes true).map fun ctx =>
    (ctx.written, (readBlocks chip ctx.flash ctx.written.length ⟨0, 0⟩).map Prod.fst)

/-- The first block is given up, without a mark, and then it is read in place of the data. -/
theorem given_up_block_read : writtenAndRead (weakFirst .good) [[7]] = some ([(1, [7])], some [(0, [255])]) := by
  decide +kernel

/-- A block that is said to be bad is passed over by both. -/
theorem reader_returns_written_past_bad : ∃ ctx, writePartition (weakFirst .bad) blank [[7]] true = some ctx ∧
    ((readBlocks (weakFirst .bad) ctx.flash ctx.written.length ⟨0, 0⟩).map Prod.fst = some ctx.written ↔
      Agrees (weakFirst .bad) (padded 1 [7])) := by
  have some : (writePartition (weakFirst .bad) blank [[7]] true).isSome = true := by decide +kernel
  obtain ⟨ctx, done⟩ := Option.isSome_iff_exists.mp some
  exact ⟨ctx, done, reader_returns_written_iff (weakFirst .bad) done 0⟩

end Recovery.MtdBlocks
