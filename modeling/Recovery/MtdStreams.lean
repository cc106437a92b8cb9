import Recovery.MtdBlocks

/-!
What is read from a partition against what was written to it.
-/
namespace Recovery.MtdStreams
open Memory Chunking Mtd MtdBlocks List

section
variable {p : MtdPartition} (chip : Chip p)

/-! ## The loop of `mtd_read_data` -/

def fetch (flash : Flash p) (ctx : Reading) : Option (Bytes × Reading) :=
  (read_block chip flash ctx).map fun r => (r.1.2, r.2)

variable {flash : Flash p}

theorem readLoop_length {before failed k : Nat} {ks : List Nat} {block : Bytes} {ctx : Reading}
    (reads : readLoop chip flash before ks failed = some ((k, block), ctx)) : block.length = p.erase_size := by
  induction ks generalizing before failed with
  | nil => cases reads
  | cons pos rest ih =>
    rw [readLoop] at reads
    split at reads
    · exact ih reads
    split at reads
    · exact ih reads
    split at reads
    · exact ih reads
    · cases reads
      exact flash.whole k
theorem fetch_length {ctx ctx' : Reading} {block : Bytes}
    (reads : fetch chip flash ctx = some (block, ctx')) : block.length = p.erase_size := by
  obtain ⟨r,found,same⟩ := Option.map_eq_some_iff.mp reads
  cases same
  exact readLoop_length chip found

private theorem readWhole_eq (flash : Flash p) (n : Nat) (s : Reading) :
    getMany (fetch chip flash) (n * p.erase_size) ⟨s,[]⟩ =
      (readWhole chip flash n s).map fun r => (r.1, ⟨r.2,[]⟩) := by
  induction n generalizing s with
  | zero => simp [getMany,readWhole]
  | succ n ih =>
    have positive := p.erase_pos
    rw [Nat.succ_mul,Nat.add_comm,getMany_add,getMany_fetch (by omega),readWhole]
    cases found : read_block chip flash s with
    | none => simp [fetch,found]
    | some r =>
      obtain ⟨⟨k,block⟩,t⟩ := r
      have fetched : fetch chip flash s = some (block,t) := by simp [fetch,found]
      have length := fetch_length chip fetched
      have some : block ≠ [] := length_pos_iff.mp (by omega)
      rw [fetched,Option.bind_some,if_neg some,getMany_left (by simp [length]),Option.bind_some]
      dsimp only
      rw [take_of_length_le (by omega),drop_of_length_le (by omega),ih]
      simp only [Option.bind_eq_bind,Option.bind_some,Option.map_map]
      cases readWhole chip flash n t <;> rfl
private theorem readWhole_length {n : Nat} {s t : Reading} {data : Bytes}
    (reads : readWhole chip flash n s = some (data, t)) : data.length = n * p.erase_size := by
  induction n generalizing s data with
  | zero =>
    cases reads
    simp
  | succ n ih =>
    rw [readWhole] at reads
    cases found : read_block chip flash s with
    | none =>
      rw [found] at reads
      cases reads
    | some r =>
      obtain ⟨⟨k,block⟩,u⟩ := r
      rw [found] at reads
      simp only [Option.bind_eq_bind,Option.bind_some] at reads
      cases later : readWhole chip flash n u with
      | none =>
        rw [later] at reads
        cases reads
      | some q =>
        rw [later] at reads
        cases reads
        rw [length_append,ih later,readLoop_length chip found,Nat.succ_mul,Nat.add_comm]

private theorem readRounds_last {fuel len : Nat} {s : Reading} {buffer : Bytes} (less : len < buffer.length) :
    readRounds chip flash (fuel + 1) ⟨s,buffer⟩ len = getMany (fetch chip flash) len ⟨s,buffer⟩ := by
  rw [getMany_left (g := ⟨s,buffer⟩) less.le,readRounds]
  by_cases none : len = 0
  · simp [none]
  rw [if_neg none]
  have more : (copyLeft ⟨s,buffer⟩ len).2.left.length ≠ 0 := by
    simp only [copyLeft,length_drop]
    omega
  exact if_neg more

private theorem readRounds_empty {fuel len : Nat} {s : Reading} {copied : Bytes} :
    ((readWhole chip flash (len / p.erase_size) s).bind fun (data, state) =>
      if len - data.length = 0 then some (copied ++ data, ⟨state,[]⟩)
      else (read_block chip flash state).bind fun ((_, buffer), state) =>
        (readRounds chip flash (fuel + 1) ⟨state,buffer⟩ (len - data.length)).bind fun (rest, ctx) =>
          some (copied ++ data ++ rest, ctx)) =
      (getMany (fetch chip flash) len ⟨s,[]⟩).map fun r => (copied ++ r.1, r.2) := by
  have positive := p.erase_pos
  conv_rhs => rw [← Nat.div_add_mod len p.erase_size,Nat.mul_comm,getMany_add,readWhole_eq]
  cases whole : readWhole chip flash (len / p.erase_size) s with
  | none => rfl
  | some r =>
    obtain ⟨data,state⟩ := r
    have length := readWhole_length chip whole
    have rest : len - data.length = len % p.erase_size := by
      rw [length,Nat.mod_eq_sub_div_mul]
    have less := Nat.mod_lt len positive
    simp only [Option.bind_some,Option.map_some,rest]
    by_cases none : len % p.erase_size = 0
    · rw [if_pos none,none]
      simp [getMany]
    rw [if_neg none,getMany_fetch none]
    cases found : read_block chip flash state with
    | none => simp [fetch,found]
    | some q =>
      obtain ⟨⟨k,buffer⟩,t⟩ := q
      have fetched : fetch chip flash state = some (buffer,t) := by simp [fetch,found]
      have full := fetch_length chip fetched
      have some : buffer ≠ [] := length_pos_iff.mp (by omega)
      rw [fetched,Option.bind_some,Option.bind_some,if_neg some,readRounds_last chip (by dsimp only; omega)]
      cases getMany (fetch chip flash) (len % p.erase_size) ⟨t,buffer⟩ with
      | none => rfl
      | some u => simp

private theorem mtd_read_data_eq (flash : Flash p) (ctx : MtdReadContext) (len : Nat) :
    mtd_read_data chip flash ctx len = getMany (fetch chip flash) len ctx := by
  obtain ⟨s,left⟩ := ctx
  unfold mtd_read_data
  cases len with
  | zero => rfl
  | succ n =>
    rw [readRounds,if_neg (by omega)]
    by_cases more : n + 1 < left.length
    · have rest : (copyLeft ⟨s,left⟩ (n + 1)).2.left.length ≠ 0 := by
        simp only [copyLeft,length_drop]
        omega
      rw [getMany_left (g := ⟨s,left⟩) more.le]
      exact if_neg rest
    · have all : left.take (n + 1) = left := take_of_length_le (by omega)
      have none : left.drop (n + 1) = [] := drop_of_length_le (by omega)
      have copied : copyLeft ⟨s,left⟩ (n + 1) = (left,⟨s,[]⟩) := by rw [copyLeft,all,none]
      rw [copied]
      obtain ⟨m,split⟩ : ∃ m, n + 1 = left.length + m := ⟨n + 1 - left.length,by omega⟩
      have after : n + 1 - left.length = m := by omega
      conv_rhs => rw [split,getMany_add,getMany_left (g := ⟨s,left⟩) (by simp)]
      simp only [after,length_nil,if_true,Option.bind_eq_bind,Option.bind_some,take_length,
        drop_length]
      exact readRounds_empty chip

/-! ## The stream that is read -/

def contents (flash : Flash p) (numbers : List Nat) : Bytes := (numbers.map flash.block).flatten

private theorem fetch_spec (flash : Flash p) (s : Reading) (fresh : stale chip s.pos = false) :
    (contents flash (taken chip s.pos) = [] ∧ fetch chip flash s = none) ∨
    ∃ block t, block ≠ [] ∧ stale chip t.pos = false ∧
      contents flash (taken chip s.pos) = block ++ contents flash (taken chip t.pos) ∧
      fetch chip flash s = some (block, t) := by
  obtain ⟨k,failed⟩ := s
  rcases read_block_spec chip flash failed fresh with ⟨none,fails⟩ | ⟨j,count,fresh',next,reads⟩
  · exact .inl ⟨by rw [none]; rfl,by rw [fetch,fails]; rfl⟩
  refine .inr ⟨flash.block j,⟨j + 1,count⟩,?_,fresh',?_,by rw [fetch,reads]; rfl⟩
  · have positive := p.erase_pos
    have whole := flash.whole j
    exact length_pos_iff.mp (by omega)
  · rw [next,contents,map_cons,flatten_cons]
    rfl

private theorem readAll_spec (lens : List Nat) (ctx : MtdReadContext) {all : Bytes}
    (fresh : stale chip ctx.state.pos = false) (same : ctx.left ++ contents flash (taken chip ctx.state.pos) = all) :
    (all.length < lens.sum ∧ readAll chip flash ctx lens = none) ∨
    ∃ pieces ctx', lens.sum ≤ all.length ∧ readAll chip flash ctx lens = some (pieces, ctx') ∧
      pieces.flatten = all.take lens.sum ∧ pieces.map List.length = lens := by
  induction lens generalizing ctx all with
  | nil => exact .inr ⟨[],ctx,by simp,rfl,by simp,rfl⟩
  | cons len lens ih =>
    rw [readAll,mtd_read_data_eq]
    rcases getMany_stream (n := len) (fetch_spec chip flash) fresh same with
      ⟨few,fails⟩ | ⟨ctx',many,fresh',same',gets⟩
    · left
      rw [fails]
      exact ⟨by rw [sum_cons]; omega,rfl⟩
    rw [gets]
    rcases ih ctx' fresh' same' with ⟨few,fails⟩ | ⟨pieces,final,enough,reads,joined,lengths⟩
    · left
      rw [length_drop] at few
      exact ⟨by rw [sum_cons]; omega,by simp [fails]⟩
    right
    rw [length_drop] at enough
    refine ⟨all.take len :: pieces,final,by rw [sum_cons]; omega,by simp [reads],?_,?_⟩
    · rw [flatten_cons,joined,sum_cons,take_add]
    · simp [lengths,many]

theorem readPartition_spec {all : Bytes} (same : contents flash (taken chip 0) = all)
    (failed : Nat) (lens : List Nat) :
    (all.length < lens.sum ∧ readPartition chip flash failed lens = none) ∨
    ∃ pieces, lens.sum ≤ all.length ∧ readPartition chip flash failed lens = some pieces ∧
      pieces.flatten = all.take lens.sum ∧ pieces.map List.length = lens := by
  rcases readAll_spec chip lens ⟨⟨0,failed⟩,[]⟩ rfl (by rw [nil_append,same]) with
    ⟨few,fails⟩ | ⟨pieces,ctx,enough,reads,joined,lengths⟩
  · exact .inl ⟨few,by rw [readPartition,fails,Option.map_none]⟩
  · exact .inr ⟨pieces,enough,by rw [readPartition,reads,Option.map_some],joined,lengths⟩

/-- However the reads are cut, they return the data. -/
def Returns (flash : Flash p) (data : Bytes) : Prop := ∀ failed lens, lens.sum ≤ data.length → ∃ pieces,
  readPartition chip flash failed lens = some pieces ∧ pieces.flatten = data.take lens.sum ∧ pieces.map List.length = lens

/-! ## Factory-bad blocks -/

/-- The bad blocks are reported by `MEMGETBADBLOCK`; all others erase, write and read as they
    should. What comes of reading a bad block is open. -/
structure Factory (bad : Nat → Bool) : Prop where
  reported : ∀ k, bad k = true → chip.badBlock k = .bad ∧ chip.badWhenRead k = .bad
  good : ∀ k, bad k = false → chip.badBlock k = .good ∧ chip.badWhenRead k = .good
  reads : ∀ k, bad k = false → chip.readable k = true ∧ chip.failures k = 0
  writes : ∀ k data, bad k = false → data.length = p.erase_size → chip.attempt k 0 data = ⟨true, true, data⟩

variable {chip} {bad : Nat → Bool}

theorem Factory.retries_eq (factory : Factory chip bad) {k : Nat} {data : Bytes} (fine : bad k = false)
    (length : data.length = p.erase_size) : retries chip k data = some 0 := by
  simp [retries,Attempt.succeeds,factory.writes k data fine length]
theorem Factory.accepts (factory : Factory chip bad) (k : Nat) {data : Bytes} (length : data.length = p.erase_size) :
    Accepts chip k data = !bad k := by
  cases wrong : bad k with
  | true => simp [Accepts,factory.reported k wrong]
  | false => simp [Accepts,factory.good k wrong,factory.retries_eq wrong length]
theorem Factory.takes (factory : Factory chip bad) (k : Nat) : Takes chip k = (!bad k && !stale chip k) := by
  cases wrong : bad k with
  | true => simp [Takes,factory.reported k wrong]
  | false => simp [Takes,factory.good k wrong,factory.reads k wrong]

private theorem remaining_subset (blocks : List Bytes) (k : Nat) : remaining chip blocks k ⊆ blocks := by
  induction k with
  | zero => exact fun _ member => member
  | succ k ih =>
    rw [remaining]
    split
    · simp
    rename_i data rest now
    rw [now] at ih
    split
    · exact fun _ member => ih (mem_cons_of_mem _ member)
    · exact ih
theorem pieces_length {size : Nat} {data piece : Bytes} (member : piece ∈ pieces size data) : piece.length = size := by
  obtain ⟨n,less,rfl⟩ := mem_map.mp member
  have whole := Nat.div_mul_le_self data.length size
  have before : (n + 1) * size ≤ data.length / size * size := Nat.mul_le_mul_right _ (mem_range.mp less)
  rw [Nat.succ_mul] at before
  rw [length_take,length_drop]
  omega

theorem Factory.agrees (factory : Factory chip bad) (fresh : ∀ k < p.blocks, bad k = false → stale chip k = false)
    (data : Bytes) : Agrees chip data := by
  intro k less piece member
  have piece_length := pieces_length (remaining_subset _ k (mem_of_mem_head? member))
  rw [factory.accepts k piece_length,factory.takes]
  cases wrong : bad k with
  | true => rfl
  | false => simp [fresh k less wrong]

theorem returns_of_agrees {ctx : Writing p} (written : Written chip ctx) {data : Bytes}
    (stream : (ctx.written.map Prod.snd).flatten = data) (agrees : Agrees chip data) :
    Returns chip ctx.flash data := by
  obtain ⟨later,split⟩ := (written_prefix_iff chip written stream).mpr agrees
  have front : contents ctx.flash (ctx.written.map Prod.fst) = data := by
    rw [contents,map_map,← stream]
    exact congrArg _ (map_congr_left fun w member => written.holds w member)
  have all : contents ctx.flash (taken chip 0) = data ++ contents ctx.flash later := by
    rw [← split,← front]
    simp only [contents,map_append,flatten_append]
  intro failed lens enough
  rcases readPartition_spec chip all failed lens with ⟨few,-⟩ | ⟨pieces,-,reads,joined,lengths⟩
  · rw [length_append] at few
    omega
  · exact ⟨pieces,reads,by rw [joined,take_append_of_le_length enough],lengths⟩

/-! The other direction: data that shows which blocks are read. -/

theorem write_good (factory : Factory chip bad) {data : Bytes} (length : data.length = p.erase_size) {ctx : Writing p}
    {j : Nat} (low : ctx.pos ≤ j) (high : j < p.blocks) (fine : bad j = false)
    (wrong : ∀ i, ctx.pos ≤ i → i < j → bad i = true) : ∃ ctx', write_block chip ctx data = some ctx' ∧
      ctx'.pos = j + 1 ∧ ∀ i, ctx'.flash.block i = if i = j then data else ctx.flash.block i := by
  have loop {n : Nat} : ∀ {k : Nat} {ctx : Writing p}, k ≤ j → j < k + n → (∀ i, k ≤ i → i < j → bad i = true) →
      ∃ ctx', writeLoop chip data (range' k n) ctx = some ctx' ∧ ctx'.pos = j + 1 ∧
        ∀ i, ctx'.flash.block i = if i = j then data else ctx.flash.block i := by
    induction n with
    | zero => omega
    | succ n ih =>
      intro k ctx low high wrong
      rw [range'_succ,writeLoop]
      rcases Nat.eq_or_lt_of_le low with rfl | before
      · rw [(factory.good k fine).1]
        simp only [factory.retries_eq fine length]
        refine ⟨_,rfl,rfl,fun i => ?_⟩
        simp only [Flash.set,factory.writes k data fine length]
      · rw [(factory.reported k (wrong k le_rfl before)).1]
        exact ih before (by omega) fun i after less => wrong i (by omega) less
  exact loop low (by omega) wrong

theorem write_whole {data : Bytes} (length : data.length = p.erase_size) (s : Writing p) :
    mtd_write_data chip ⟨s,[]⟩ data = (write_block chip s data).map fun t => ⟨t,[]⟩ := by
  have positive := p.erase_pos
  have empty : (⟨s,[]⟩ : MtdWriteContext p).stored.length < p.erase_size := positive
  rw [mtd_write_data_eq chip empty,putAll_full (length_pos_iff.mp (by omega)) (by simpa using length),
    nil_append]

def filled (p : MtdPartition) (x : UInt8) : Bytes := List.replicate p.erase_size x
theorem filled_length (x : UInt8) : (filled p x).length = p.erase_size := length_replicate

theorem write_up_to (factory : Factory chip bad) {k : Nat} (high : k < p.blocks) (ctx : Writing p) (low : ctx.pos ≤ k)
    (zeros : ∀ i, ctx.flash.block i = filled p 0) : ∃ n ctx',
      (List.replicate n (filled p 0)).foldlM (mtd_write_data chip) ⟨ctx,[]⟩ = some ⟨ctx',[]⟩ ∧ ctx'.pos ≤ k ∧
      (∀ i, ctx'.pos ≤ i → i < k → bad i = true) ∧ ∀ i, ctx'.flash.block i = filled p 0 := by
  induction distance : k - ctx.pos using Nat.strong_induction_on generalizing ctx with
  | _ distance ih =>
    by_cases none : ∀ i, ctx.pos ≤ i → i < k → bad i = true
    · exact ⟨0,ctx,rfl,low,none,zeros⟩
    push Not at none
    classical
    let j := Nat.find none
    obtain ⟨after,before,fine⟩ : ctx.pos ≤ j ∧ j < k ∧ bad j ≠ true := Nat.find_spec none
    have wrong (i : Nat) (least : ctx.pos ≤ i) (less : i < j) : bad i = true := by
      by_contra fine
      exact Nat.find_min none less ⟨least,less.trans before,fine⟩
    obtain ⟨ctx₁,wrote,place,blocks⟩ :=
      write_good factory (filled_length 0) after (before.trans high) (by simpa using fine) wrong
    obtain ⟨n,ctx',run,rest⟩ := ih (k - ctx₁.pos) (by omega) ctx₁ (by omega)
      (fun i => by rw [blocks i,zeros i,ite_self]) rfl
    refine ⟨n + 1,ctx',?_,rest⟩
    rw [replicate_succ,foldlM_cons,write_whole (filled_length 0),wrote]
    exact run

theorem blocksLeft_nonneg (small : p.size < 2 ^ 31) (pos : Nat) : 0 ≤ p.blocksLeft pos := by
  have less : (p.size - pos * p.erase_size) / p.erase_size ≤ p.size :=
    (Nat.div_le_self _ _).trans (Nat.sub_le _ _)
  unfold MtdPartition.blocksLeft
  generalize (p.size - pos * p.erase_size) / p.erase_size = count at less
  rw [wrap_small (by omega) (by omega)]
  exact Int.natCast_nonneg _
theorem close_empty (small : p.size < 2 ^ 31) (s : Writing p) : mtd_write_close chip true ⟨s,[]⟩ = some ⟨s,[]⟩ := by
  have idle : writePending chip ⟨s,[]⟩ = some ⟨s,[]⟩ := if_neg (Nat.lt_irrefl 0)
  rw [mtd_write_close_eq,idle,Option.bind_some,if_pos ⟨rfl,blocksLeft_nonneg small s.pos⟩]
theorem writePartition_some {writes : List Bytes} {closed : Bool} {q r : MtdWriteContext p}
    (runs : writes.foldlM (mtd_write_data chip) ⟨⟨0,flash,[],[]⟩,[]⟩ = some q)
    (closes : mtd_write_close chip closed q = some r) : writePartition chip flash writes closed = some r.state := by
  rw [writePartition,runs,Option.bind_eq_bind,Option.bind_some,closes]
  rfl

theorem write_marked (factory : Factory chip bad) (small : p.size < 2 ^ 31) {k : Nat} (high : k < p.blocks)
    (fine : bad k = false) : ∃ flash n ctx,
      writePartition chip flash (List.replicate n (filled p 0) ++ [filled p 1]) true = some ctx ∧
      ∀ i, ctx.flash.block i = if i = k then filled p 1 else filled p 0 := by
  let flash : Flash p := ⟨fun _ => filled p 0,fun _ => filled_length 0⟩
  obtain ⟨n,ctx,run,low,wrong,zeros⟩ :=
    write_up_to factory high ⟨0,flash,[],[]⟩ (Nat.zero_le k) fun _ => rfl
  obtain ⟨ctx',wrote,place,blocks⟩ := write_good factory (filled_length 1) low high fine wrong
  refine ⟨flash,n,ctx',writePartition_some (r := ⟨ctx',[]⟩) ?_ (close_empty small ctx'),fun i => by
    rw [blocks i,zeros i]⟩
  rw [foldlM_append,run,Option.bind_eq_bind,Option.bind_some,foldlM_cons,write_whole (filled_length 1),
    wrote]
  rfl

theorem contents_take (flash : Flash p) (numbers : List Nat) (n : Nat) :
    (contents flash numbers).take (n * p.erase_size) = contents flash (numbers.take n) := by
  induction n generalizing numbers with
  | zero => simp [contents]
  | succ n ih =>
    cases numbers with
    | nil => simp [contents]
    | cons k rest =>
      have later := ih rest
      simp only [contents,map_cons,flatten_cons,take_succ_cons] at later ⊢
      rw [take_append,flash.whole,take_of_length_le (by rw [flash.whole]; exact Nat.le_mul_of_pos_left _ (by omega)),
        Nat.succ_mul,Nat.add_sub_cancel,later]

theorem padded_whole {size : Nat} {data : Bytes} (whole : data.length % size = 0) : padded size data = data := by
  simp [padded,whole]

theorem takes_of_returns {n k : Nat} (marked : ∀ i, flash.block i = if i = k then filled p 1 else filled p 0)
    (returns : Returns chip flash (List.replicate n (filled p 0) ++ [filled p 1]).flatten) : Takes chip k = true := by
  let blocks := replicate n (filled p 0) ++ [filled p 1]
  have whole : ∀ block ∈ blocks, block.length = p.erase_size := by
    intro block member
    rcases mem_append.mp member with zero | one
    · rw [eq_of_mem_replicate zero,filled_length]
    · rw [mem_singleton.mp one,filled_length]
  have total : blocks.flatten.length = (n + 1) * p.erase_size := by
    simp [blocks,filled,Nat.succ_mul]
  obtain ⟨pieces',reads,joined,-⟩ := returns 0 [blocks.flatten.length] (by simp [blocks])
  rcases readPartition_spec chip rfl 0 [blocks.flatten.length] with ⟨-,fails⟩ | ⟨pieces'',enough,same,all,-⟩
  · rw [fails] at reads
    cases reads
  · rw [reads] at same
    cases same
    have equal : contents flash ((taken chip 0).take (n + 1)) = blocks.flatten := by
      rw [← contents_take,← total,← sum_singleton (x := blocks.flatten.length),← all,joined,
        sum_singleton]
      exact take_length
    have cut := congrArg (pieces p.erase_size) equal
    rw [pieces_flatten p.erase_pos whole,contents,pieces_flatten p.erase_pos] at cut
    · have last : filled p 1 ∈ blocks := mem_append_right _ (mem_singleton_self _)
      rw [← cut] at last
      obtain ⟨j,member,one⟩ := mem_map.mp last
      obtain rfl : j = k := by
        by_contra other
        rw [marked,if_neg other] at one
        have := congrArg (head? ·) one
        simp [filled,head?_replicate,p.erase_pos.ne'] at this
      exact (mem_filter.mp (mem_of_mem_take member)).2
    · intro block member
      obtain ⟨j,-,rfl⟩ := mem_map.mp member
      exact flash.whole j

/-- What was written is read, for all data and all ways to cut the writes and the reads, exactly
    when no good block is read with an old error count. -/
theorem reads_return_writes_iff (factory : Factory chip bad) (small : p.size < 2 ^ 31) :
    (∀ flash writes closed ctx, writePartition chip flash writes closed = some ctx →
      Returns chip ctx.flash (padded p.erase_size writes.flatten)) ↔
    ∀ k < p.blocks, bad k = false → stale chip k = false := by
  constructor
  · intro all k high fine
    obtain ⟨flash, n, ctx, done, marked⟩ := write_marked factory small high fine
    have returns := all flash _ true ctx done
    rw [padded_whole (by simp [filled, ← Nat.succ_mul])] at returns
    have takes := takes_of_returns marked returns
    rw [factory.takes, Bool.and_eq_true] at takes
    simpa using takes.2
  · intro fresh flash writes closed ctx done
    obtain ⟨written, stream⟩ := writePartition_spec chip done
    exact returns_of_agrees written stream (factory.agrees fresh _)

end

/-! Three blocks of one byte, of which the first is bad. -/

def threeBlocks : MtdPartition := ⟨3, 1, Nat.zero_lt_one⟩
/-- Reading the first block adds an error to the count; it fails, or returns something. -/
def badFirst (readable : Bool) : Chip threeBlocks where
  badBlock k := if k = 0 then .bad else .good
  attempt _ _ data := ⟨true, true, [data.headD 0]⟩
  erase _ _ := [255]
  readable k := readable || k != 0
  failures k := if k = 0 then 1 else 0
  badWhenRead k := if k = 0 then .bad else .good
  attempt_length _ _ _ := rfl
  erase_length _ _ := by decide
theorem badFirst_factory (readable : Bool) : Factory (badFirst readable) (fun k => k == 0) where
  reported k wrong := by simp_all [badFirst]
  good k fine := by simp_all [badFirst]
  reads k fine := by simp_all [badFirst]
  writes k data _ length := by
    obtain ⟨x,rfl⟩ := length_eq_one_iff.mp length
    rfl
def erased : Flash threeBlocks := ⟨fun _ => [255], fun _ => by decide⟩

/-- When the bad block cannot be read, the good block after it is passed over, too. -/
theorem bad_block_hides_next : Factory (badFirst false) (fun k => k == 0) ∧ threeBlocks.size < 2 ^ 31 ∧
    (writePartition (badFirst false) erased [[7]] true).map (fun ctx => readPartition (badFirst false) ctx.flash 0 [1]) =
      some (some [[255]]) :=
  ⟨badFirst_factory false, by decide, by decide +kernel⟩

/-- When it can be read, all data comes back. -/
theorem reads_return_writes_past_bad : Factory (badFirst true) (fun k => k == 0) ∧ threeBlocks.size < 2 ^ 31 ∧
    ((∀ flash writes closed ctx, writePartition (badFirst true) flash writes closed = some ctx →
      Returns (badFirst true) ctx.flash (padded threeBlocks.erase_size writes.flatten)) ↔
    ∀ k < threeBlocks.blocks, (k == 0) = false → stale (badFirst true) k = false) :=
  ⟨badFirst_factory true, by decide, reads_return_writes_iff (badFirst_factory true) (by decide)⟩

end Recovery.MtdStreams
