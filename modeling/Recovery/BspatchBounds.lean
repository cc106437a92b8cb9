import Recovery.BspatchSteps

/-!
The bytes that `ApplyBSDiffPatchMem` touches: where its accesses stay inside of the old and the new
data, and where a return of 0 means that all of the output was written.
-/
namespace Recovery.BspatchBounds
open Memory Numbers Tracing Tracing.Traced BspatchSteps List
open StoredLibs (triple)

/-! ## Single bytes -/

/-- The values of the int index of the add loop up to a count. -/
inductive Index (count : Int) : Int → Prop
  | zero : Index count 0
  | succ {i : Int} (before : Index count i) (goes : i < count) : Index count (wrap 32 (i + 1))

def Writes (oldSize : Int) : Access → Int → Prop
  | .filled pos count, place => ∃ i < count, place = pos + (i : Nat)
  | .added oldpos newpos count, place => ∃ i, Index count i ∧ i < count ∧
      0 ≤ wrap 64 (oldpos + i) ∧ wrap 64 (oldpos + i) < oldSize ∧ place = wrap 64 (newpos + i)
def Reads (oldSize : Int) : Access → Int → Prop
  | .filled _ _, _ => False
  | .added oldpos _ count, place => ∃ i, Index count i ∧ i < count ∧
      0 ≤ wrap 64 (oldpos + i) ∧ wrap 64 (oldpos + i) < oldSize ∧ place = wrap 64 (oldpos + i)

/-- All accesses are inside, and a return of 0 leaves no byte of the output unwritten. -/
structure Bounded (oldSize newSize : Int) (run : Steps Unit) : Prop where
  writes : ∀ access ∈ run.trace, ∀ i, Writes oldSize access i → 0 ≤ i ∧ i < newSize
  reads : ∀ access ∈ run.trace, ∀ i, Reads oldSize access i → 0 ≤ i ∧ i < oldSize
  whole : run.result = .ok () → ∀ i, 0 ≤ i → i < newSize → ∃ access ∈ run.trace, Writes oldSize access i

private theorem reads_inside {oldSize : Int} {access : Access} {i : Int} (reads : Reads oldSize access i) :
    0 ≤ i ∧ i < oldSize := by
  cases access with
  | filled => exact reads.elim
  | added oldpos newpos count =>
    obtain ⟨_,_,_,low,high,rfl⟩ := reads
    exact ⟨low,high⟩
private theorem index_small {count i : Int} (low : 0 ≤ count) (small : count < 2 ^ 31) (index : Index count i) :
    0 ≤ i ∧ i ≤ count := by
  induction index with
  | zero => exact ⟨le_rfl,low⟩
  | @succ i before goes ih =>
    have same : wrap 32 (i + 1) = i + 1 := wrap_small (by omega) (by omega)
    omega

/-! ## A triple whose counts fit -/

/-- A triple that is reached: those before it pass the checks and are served. -/
inductive Reached (newSize : Int) (s : Streams) (newpos : Int) : Streams → Int → Prop
  | start : Reached newSize s newpos s newpos
  | next {t : Streams} {place : Int} (before : Reached newSize s newpos t place) (more : place < newSize)
      (passes : Passes newSize t place) (there : unsigned 32 (ctrl t.control 1) ≤ t.extra.out.length) :
      Reached newSize s newpos t.behind (next t place)

/-- The counts fit an int and an unsigned int and the places do not wrap, unless the decompressor
    reports an error before it comes to the end of the output. -/
structure Fits (newSize : Int) (s : Streams) (newpos : Int) : Prop where
  diff : Opens newSize s newpos → (newpos + ctrl s.control 0 < 2 ^ 63 ∧ ctrl s.control 0 < 2 ^ 31) ∨
    (s.diff.out.length ≤ newSize - newpos ∧ s.diff.out.length < unsigned 32 (ctrl s.control 0))
  extra : Passes newSize s newpos → (middle s newpos + ctrl s.control 1 < 2 ^ 63 ∧ ctrl s.control 1 < 2 ^ 32) ∨
    (s.extra.out.length ≤ newSize - middle s newpos ∧ s.extra.out.length < unsigned 32 (ctrl s.control 1))

def Inside (oldSize newSize : Int) (access : Access) : Prop := ∀ i, Writes oldSize access i → 0 ≤ i ∧ i < newSize

variable {oldSize newSize oldpos newpos : Int} {s : Streams}

theorem inside_filled {pos : Int} {count : Nat} (low : 0 ≤ pos) (high : pos + count ≤ newSize) :
    Inside oldSize newSize (.filled pos count) := by
  rintro i ⟨j,small,rfl⟩
  omega
theorem inside_filled_iff {pos : Int} {count : Nat} (low : 0 ≤ pos) (below : pos ≤ newSize) :
    Inside oldSize newSize (.filled pos count) ↔ pos + count ≤ newSize := by
  refine ⟨fun inside => ?_,inside_filled low⟩
  by_contra beyond
  have last := inside (pos + (count - 1 : Nat)) ⟨count - 1,by omega,rfl⟩
  omega
private theorem inside_added {count : Int} (low : 0 ≤ newpos) (positive : 0 ≤ count) (small : count < 2 ^ 31)
    (high : newpos + count ≤ newSize) (fits : newSize < 2 ^ 63) : Inside oldSize newSize (.added oldpos newpos count) := by
  rintro i ⟨j,index,goes,_,_,rfl⟩
  have range := index_small positive small index
  rw [wrap_small (by omega) (by omega : newpos + j < 2 ^ 63)]
  omega

theorem middle_fits (low : 0 ≤ newpos) (opens : Opens newSize s newpos) (fits : newpos + ctrl s.control 0 < 2 ^ 63) :
    middle s newpos = newpos + ctrl s.control 0 ∧ newpos + ctrl s.control 0 ≤ newSize := by
  have count := opens.count0
  have room := opens.room
  have same : wrap 64 (newpos + ctrl s.control 0) = newpos + ctrl s.control 0 := wrap_small (by omega) fits
  rw [same] at room
  exact ⟨same,room⟩
theorem next_fits (low : 0 ≤ middle s newpos) (passes : Passes newSize s newpos)
    (fits : middle s newpos + ctrl s.control 1 < 2 ^ 63) :
    next s newpos = middle s newpos + ctrl s.control 1 ∧ middle s newpos + ctrl s.control 1 ≤ newSize := by
  have count := passes.count1
  have room : wrap 64 (middle s newpos + ctrl s.control 1) ≤ newSize := passes.further
  have same : wrap 64 (middle s newpos + ctrl s.control 1) = middle s newpos + ctrl s.control 1 :=
    wrap_small (by omega) fits
  rw [same] at room
  exact ⟨same,room⟩
theorem unsigned_fits {x : Int} (low : 0 ≤ x) (high : x < 2 ^ 32) : (unsigned 32 x : Int) = x := by
  unfold unsigned
  omega

private theorem offtin_lt (buf : Bytes) : offtin buf < 2 ^ 63 := by
  have byte (i : Nat) : byteAt buf i < 256 := (buf.getD i 0).toNat_lt
  have low : byteAt buf 7 &&& 0x7F ≤ 0x7F := Nat.and_le_right
  have b0 := byte 0
  have b1 := byte 1
  have b2 := byte 2
  have b3 := byte 3
  have b4 := byte 4
  have b5 := byte 5
  have b6 := byte 6
  unfold offtin
  simp only
  split <;> omega

theorem ctrl_lt (stream : Stream) (k : Nat) : ctrl stream k < 2 ^ 63 := offtin_lt _

/-! ## The accesses of a round -/

def Written (oldSize first last : Int) (trace : List Access) : Prop :=
  ∀ i, first ≤ i → i < last → ∃ access ∈ trace, Writes oldSize access i

theorem written_filled {pos stop : Int} {count : Nat} (reaches : stop ≤ pos + count) {trace : List Access}
    (member : .filled pos count ∈ trace) : Written oldSize pos stop trace := by
  intro i low high
  exact ⟨_,member,(i - pos).toNat,by omega,by omega⟩

theorem firstHalf_inside (low : 0 ≤ newpos) (fitsNew : newSize < 2 ^ 63) (opens : Opens newSize s newpos)
    (fits : newpos + ctrl s.control 0 < 2 ^ 63) (small : ctrl s.control 0 < 2 ^ 31) :
    ∀ access ∈ firstHalf s oldpos newpos, Inside oldSize newSize access := by
  have count := opens.count0
  have room := (middle_fits low opens fits).2
  have whole := unsigned_fits count (by omega)
  simp only [firstHalf,mem_cons,not_mem_nil,or_false,forall_eq_or_imp,forall_eq]
  exact ⟨inside_filled low (by omega),inside_added low count small room fitsNew⟩

variable (oldSize) in
/-- A round from a place of the output at which the counts fit stays inside; when the loop goes on
    it has written everything up to the next place. -/
theorem round_inside (low : 0 ≤ newpos) (fitsNew : newSize < 2 ^ 63) (fits : Fits newSize s newpos)
    (more : newpos < newSize) {run : Steps (Streams × Int × Int)} (round : Round newSize s oldpos newpos run) :
    (∀ access ∈ run.trace, Inside oldSize newSize access) ∧ ∀ t old place, run.result = .ok (t, old, place) →
      t = s.behind ∧ old = nextOld s oldpos ∧ place = next s newpos ∧ Passes newSize s newpos ∧
      unsigned 32 (ctrl s.control 1) ≤ s.extra.out.length ∧ newpos ≤ place ∧ place ≤ newSize ∧
      Written oldSize newpos place run.trace := by
  cases round with
  | control short => simp
  | corrupt read bad => simp
  | diff opens short =>
    simp only [mem_singleton,forall_eq,reduceCtorEq,false_implies,implies_true,and_true]
    refine inside_filled low ?_
    rcases fits.diff opens with ⟨first,small⟩ | ⟨supply,_⟩
    · have room := (middle_fits low opens first).2
      have whole := unsigned_fits opens.count0 (by omega)
      omega
    · omega
  | count opens there large =>
    rcases fits.diff opens with ⟨_,small⟩ | ⟨_,short⟩ <;> omega
  | overrun opens there small bad =>
    simp only [reduceCtorEq,false_implies,implies_true,and_true]
    rcases fits.diff opens with ⟨first,_⟩ | ⟨_,short⟩
    · exact firstHalf_inside low fitsNew opens first small
    · omega
  | extra passes short =>
    simp only [reduceCtorEq,false_implies,implies_true,and_true]
    rcases fits.diff passes.toOpens with ⟨first,_⟩ | ⟨_,bad⟩
    · have place := middle_fits low passes.toOpens first
      have count := passes.count0
      refine forall_mem_append.mpr ⟨firstHalf_inside low fitsNew passes.toOpens first passes.small,forall_mem_singleton.mpr (inside_filled (by omega) ?_)⟩
      rcases fits.extra passes with ⟨second,small⟩ | ⟨supply,_⟩
      · have room := (next_fits (by omega) passes second).2
        have whole := unsigned_fits passes.count1 small
        omega
      · omega
    · exact absurd passes.diff (by omega)
  | done passes there =>
    rcases fits.diff passes.toOpens with ⟨first,_⟩ | ⟨_,bad⟩
    · rcases fits.extra passes with ⟨second,small⟩ | ⟨_,bad⟩
      · have place := middle_fits low passes.toOpens first
        have count := passes.count0
        have behind := next_fits (by omega) passes second
        have whole := unsigned_fits passes.count0 (by have := passes.small; omega)
        have whole' := unsigned_fits passes.count1 small
        refine ⟨forall_mem_append.mpr ⟨firstHalf_inside low fitsNew passes.toOpens first passes.small,
          forall_mem_singleton.mpr (inside_filled (by omega) (by omega))⟩,?_⟩
        intro t old q equal
        obtain ⟨rfl,rfl,rfl⟩ : s.behind = t ∧ nextOld s oldpos = old ∧ next s newpos = q := by simpa using equal
        refine ⟨rfl,rfl,rfl,passes,there,by omega,by omega,fun i after before => ?_⟩
        by_cases early : i < middle s newpos
        · exact written_filled (by omega) (mem_append_left _ mem_cons_self) i after early
        · exact written_filled (by omega) (mem_append_right _ mem_cons_self) i (by omega) before
      · omega
    · exact absurd passes.diff (by omega)

/-! ## The loop -/

variable {t : Streams}

private theorem reached_behind (more : newpos < newSize) (passes : Passes newSize s newpos)
    (there : unsigned 32 (ctrl s.control 1) ≤ s.extra.out.length) {place : Int}
    (reached : Reached newSize s.behind (next s newpos) t place) : Reached newSize s newpos t place := by
  induction reached with
  | start => exact .next .start more passes there
  | next _ more' passes' there' ih => exact .next ih more' passes' there'
theorem reached_cases {place : Int} (reached : Reached newSize s newpos t place) :
    (t = s ∧ place = newpos) ∨ (newpos < newSize ∧ Passes newSize s newpos ∧
      unsigned 32 (ctrl s.control 1) ≤ s.extra.out.length ∧ Reached newSize s.behind (next s newpos) t place) := by
  induction reached with
  | start => exact .inl ⟨rfl,rfl⟩
  | next before more passes there ih =>
    rcases ih with ⟨rfl,rfl⟩ | ⟨first,passed,served,later⟩
    · exact .inr ⟨more,passes,there,.start⟩
    · exact .inr ⟨first,passed,served,.next later more passes there⟩

/-- If the counts of all triples that are reached fit, the accesses stay inside, and a return of 0
    leaves no byte unwritten. -/
theorem patchLoop_inside (fitsNew : newSize < 2 ^ 63) (fuel : Nat) (low : 0 ≤ newpos)
    (fits : ∀ t place, Reached newSize s newpos t place → place < newSize → Fits newSize t place) :
    (∀ access ∈ (patchLoop newSize fuel s oldpos newpos).trace, Inside oldSize newSize access) ∧
      ((patchLoop newSize fuel s oldpos newpos).result = .ok () →
        Written oldSize newpos newSize (patchLoop newSize fuel s oldpos newpos).trace) := by
  induction fuel generalizing s oldpos newpos with
  | zero => simp [patchLoop]
  | succ fuel ih =>
    rw [patchLoop]
    by_cases more : newpos < newSize
    · rw [if_pos more]
      obtain ⟨inside,goes⟩ := round_inside oldSize low fitsNew (fits s newpos .start more) more
        (applyTriple_round newSize s oldpos newpos)
      cases ended : (applyTriple newSize s oldpos newpos).result with
      | error e =>
        rw [bind_eq_error ended]
        exact ⟨inside,fun h => by cases h⟩
      | ok triple =>
        obtain ⟨t,old,place⟩ := triple
        obtain ⟨rfl,rfl,rfl,passes,there,further,_,written⟩ := goes t old place ended
        have behind : ∀ t place, Reached newSize s.behind (next s newpos) t place → place < newSize →
            Fits newSize t place := fun t place reached => fits t place (reached_behind more passes there reached)
        rw [bind_eq_ok ended]
        refine ⟨forall_mem_append.mpr ⟨inside,(ih (by omega) behind).1⟩,fun ok i after before => ?_⟩
        by_cases early : i < next s newpos
        · obtain ⟨access,member,writes⟩ := written i after early
          exact ⟨access,mem_append_left _ member,writes⟩
        · obtain ⟨access,member,writes⟩ := (ih (by omega) behind).2 ok i (by omega) before
          exact ⟨access,mem_append_right _ member,writes⟩
    · rw [if_neg more]
      exact ⟨by simp,fun _ i after before => by omega⟩

private theorem round_fills (opens : Opens newSize s newpos) {run : Steps (Streams × Int × Int)}
    (round : Round newSize s oldpos newpos run) :
    .filled newpos (min (unsigned 32 (ctrl s.control 0)) s.diff.out.length) ∈ run.trace := by
  cases round with
  | control short => exact absurd opens.read (by omega)
  | corrupt read bad => exact absurd opens bad
  | diff _ short => simp [min_eq_right short.le]
  | count _ there => simp [firstHalf,min_eq_left there]
  | overrun _ there => simp [firstHalf,min_eq_left there]
  | extra passes => simp [firstHalf,min_eq_left passes.diff]
  | done passes => simp [firstHalf,min_eq_left passes.diff]
private theorem round_fills_extra (passes : Passes newSize s newpos) {run : Steps (Streams × Int × Int)}
    (round : Round newSize s oldpos newpos run) :
    .filled (middle s newpos) (min (unsigned 32 (ctrl s.control 1)) s.extra.out.length) ∈ run.trace := by
  cases round with
  | control short => exact absurd passes.read (by omega)
  | corrupt read bad => exact absurd passes.toOpens bad
  | diff _ short => exact absurd passes.diff (by omega)
  | count _ _ large => exact absurd passes.small (by omega)
  | overrun _ _ _ bad => exact absurd passes.further (not_le.mpr bad)
  | extra _ short => simp [min_eq_right short.le]
  | done _ there => simp [min_eq_left there]
theorem wraps_asks {place count : Int} (below : place ≤ newSize) (small : newSize < 2 ^ 31)
    (bound : count < 2 ^ 63) (wraps : 2 ^ 63 ≤ place + count) : newSize - place < unsigned 32 count := by
  unfold unsigned
  omega
theorem fits_of_inside (small : newSize < 2 ^ 31) (low : 0 ≤ newpos) (more : newpos < newSize)
    {run : Steps (Streams × Int × Int)} (round : Round newSize s oldpos newpos run)
    (inside : ∀ access ∈ run.trace, Inside oldSize newSize access) : Fits newSize s newpos := by
  have first (opens : Opens newSize s newpos) : (newpos + ctrl s.control 0 < 2 ^ 63 ∧ ctrl s.control 0 < 2 ^ 31) ∨
      (s.diff.out.length ≤ newSize - newpos ∧ s.diff.out.length < unsigned 32 (ctrl s.control 0)) := by
    rcases lt_or_ge (newpos + ctrl s.control 0) (2 ^ 63) with fits | wraps
    · have room := (middle_fits low opens fits).2
      exact .inl ⟨fits,by omega⟩
    · have asks := wraps_asks more.le small (ctrl_lt _ 0) wraps
      have filled := (inside_filled_iff low more.le).mp (inside _ (round_fills opens round))
      exact .inr (by omega)
  refine ⟨first,fun passes => ?_⟩
  rcases first passes.toOpens with ⟨fits,_⟩ | ⟨_,short⟩
  · obtain ⟨place,room⟩ := middle_fits low passes.toOpens fits
    have count := passes.count0
    rcases lt_or_ge (middle s newpos + ctrl s.control 1) (2 ^ 63) with fits | wraps
    · have room := (next_fits (by omega) passes fits).2
      exact .inl ⟨fits,by omega⟩
    · have asks := wraps_asks (by omega : middle s newpos ≤ newSize) small (ctrl_lt _ 1) wraps
      have filled := (inside_filled_iff (by omega) (by omega)).mp (inside _ (round_fills_extra passes round))
      exact .inr (by omega)
  · exact absurd passes.diff (by omega)

/-- For an output below 2 GiB the accesses stay inside only if the counts of all triples that are
    reached fit. -/
theorem fits_of_loop_inside (small : newSize < 2 ^ 31) {fuel : Nat} (enough : s.control.out.length < 24 * fuel)
    (low : 0 ≤ newpos)
    (inside : ∀ access ∈ (patchLoop newSize fuel s oldpos newpos).trace, Inside oldSize newSize access)
    {place : Int} (reached : Reached newSize s newpos t place) (more : place < newSize) :
    Fits newSize t place := by
  induction fuel generalizing s oldpos newpos with
  | zero => omega
  | succ fuel ih =>
    have round := applyTriple_round newSize s oldpos newpos
    rw [patchLoop] at inside
    rcases reached_cases reached with ⟨rfl,rfl⟩ | ⟨goes,passes,there,later⟩
    · rw [if_pos more] at inside
      exact fits_of_inside small low more round (within_bind.mp inside).1
    rw [if_pos goes] at inside
    obtain ⟨here,behind⟩ := within_bind.mp inside
    have fits := fits_of_inside small low goes round here
    have result : (applyTriple newSize s oldpos newpos).result = .ok (s.behind,nextOld s oldpos,next s newpos) := by
      generalize applyTriple newSize s oldpos newpos = run at round
      cases round with
      | control short => exact absurd passes.read (by omega)
      | corrupt read bad => exact absurd passes.toOpens bad
      | diff _ short => exact absurd passes.diff (by omega)
      | count _ _ large => exact absurd passes.small (by omega)
      | overrun _ _ _ bad => exact absurd passes.further (not_le.mpr bad)
      | extra _ short => omega
      | done _ _ => rfl
    have step := (round_inside oldSize low (by omega) fits goes round).2 _ _ _ result
    have read := passes.read
    have positive : 0 ≤ next s newpos := by omega
    refine ih ?_ positive (behind _ result) later
    simp only [Streams.behind,length_drop]
    omega

/-- If the counts of all triples that are reached fit, the call stays inside of the old and the new data
    and a return of 0 leaves nothing unwritten; below 2 GiB only then. -/
theorem patch_bounded_iff (oldSize newSize : Int) (fitsNew : newSize < 2 ^ 63) (s : Streams) :
    ((∀ t place, Reached newSize s 0 t place → place < newSize → Fits newSize t place) →
      Bounded oldSize newSize (patchLoop newSize (s.control.out.length + 1) s 0 0)) ∧
    (newSize < 2 ^ 31 → Bounded oldSize newSize (patchLoop newSize (s.control.out.length + 1) s 0 0) →
      ∀ t place, Reached newSize s 0 t place → place < newSize → Fits newSize t place) := by
  constructor
  · intro fits
    obtain ⟨inside, written⟩ := patchLoop_inside fitsNew (s.control.out.length + 1) le_rfl fits
    exact ⟨inside, fun _ _ _ => reads_inside, fun ok i low high => written ok i low high⟩
  · intro small bounded t place reached more
    exact fits_of_loop_inside small (by omega) le_rfl bounded.writes reached more

/-! A patch whose only triple adds four bytes, and one whose second count runs beyond the end. -/

def plainStreams : Streams := ⟨⟨triple 4 0 0, .ended⟩, ⟨[1, 2, 3, 4], .ended⟩, ⟨[], .ended⟩⟩
def wrapStreams : Streams :=
  ⟨⟨triple 1 0 0 ++ triple (2 ^ 63 - 1) 0 0, .ended⟩, ⟨List.replicate 10 7, .ended⟩, ⟨[], .ended⟩⟩

theorem plainStreams_bounded : Bounded 4 4 (patchLoop 4 25 plainStreams 0 0) := by
  refine (patch_bounded_iff 4 4 (by decide) plainStreams).1 fun t place reached more => ?_
  rcases reached_cases reached with ⟨rfl, rfl⟩ | ⟨_, _, _, later⟩
  · exact ⟨fun _ => Or.inl (by decide +kernel), fun _ => Or.inl (by decide +kernel)⟩
  · rcases reached_cases later with ⟨_, rfl⟩ | ⟨beyond, _⟩
    · exact absurd more (by decide)
    · exact absurd beyond (by decide)
theorem wrapStreams_unbounded : ¬ Bounded 4 4 (patchLoop 4 49 wrapStreams 0 0) := by
  have second : .filled 1 9 ∈ (patchLoop 4 49 wrapStreams 0 0).trace := by decide +kernel
  intro bounded
  have outside := bounded.writes _ second 9 ⟨8, by decide, by decide⟩
  exact absurd outside.2 (by decide)

end Recovery.BspatchBounds
