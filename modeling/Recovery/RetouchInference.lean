import Recovery.RetouchOverlap

/-!
Calls of `retouch_mask_data` on any binary, and what a call that only infers the offset finds behind
one that has written it.
-/
namespace Recovery.RetouchInference
open Memory Retouch RetouchMasking RetouchOverlap List Option

/-! ## Accesses -/

section Inside
variable {bOffs pOffs rOffs : Int} {binary : Bytes}

theorem slice_inside {off : Int} {n : Nat} (low : 0 ≤ off) (high : off + n ≤ binary.length) :
    ∃ r, slice binary off n = some r := ⟨_,if_pos ⟨low,high⟩⟩
private theorem entryAt_inside {ptr : Int} (low : 0 ≤ ptr) (high : ptr + 8 ≤ binary.length) (offsPrev : Int)
    (contPrev : Nat) : ∃ e, entryAt binary ptr offsPrev contPrev = some e := by
  obtain ⟨first,read⟩ : ∃ r, slice binary ptr 1 = some r := slice_inside low (by omega)
  have size := entrySize_le (first.getD 0 0)
  obtain ⟨input,all⟩ : ∃ r, slice binary ptr (entrySize (first.getD 0 0)) = some r := slice_inside low (by omega)
  simp only [entryAt,read,all,bind_eq_bind,bind_some]
  exact ⟨_,rfl⟩
private theorem writeEntry_inside (desired : Option Int) {entry : Int} (original : Nat) (low : 0 ≤ entry)
    (high : entry + 4 ≤ binary.length) : ∃ written, writeEntry desired binary entry original = some written := by
  cases desired with
  | none => exact ⟨binary,rfl⟩
  | some target =>
    refine ⟨_,if_pos ⟨low,?_⟩⟩
    exact high

private theorem maskStep_inside (desired : Option Int) {st : MaskState} (start : 0 ≤ bOffs) (low : bOffs ≤ st.ptr)
    (more : st.ptr < rOffs) (gap : rOffs + 12 = pOffs) (room : pOffs + 8 ≤ st.binary.length) :
    ∃ good st', maskStep desired bOffs pOffs st = some (good, st') ∧ st.ptr < st'.ptr := by
  obtain ⟨e,found⟩ : ∃ e, entryAt st.binary st.ptr st.offsPrev st.contPrev = some e :=
    entryAt_inside (by omega) (by omega) _ _
  have size := entryAt_size found
  by_cases rejected : Rejected bOffs e
  · refine ⟨false,_,maskStep_rejected found rejected,?_⟩
    dsimp only
    omega
  have accepted := rejected
  unfold Rejected at accepted
  have place : 0 ≤ target pOffs e ∧ target pOffs e + 4 ≤ st.binary.length := by
    unfold target
    split <;> omega
  obtain ⟨binary,written⟩ := writeEntry_inside desired e.original place.1 place.2
  have length := writeEntry_length written
  obtain ⟨stored,read⟩ : ∃ r, slice binary (target pOffs e) 4 = some r := slice_inside place.1 (by omega)
  refine ⟨true,_,maskStep_accepted found rejected written read,?_⟩
  dsimp only
  omega
private theorem maskLoop_inside (desired : Option Int) {fuel : Nat} {st : MaskState} (start : 0 ≤ bOffs) (low : bOffs ≤ st.ptr)
    (gap : rOffs + 12 = pOffs) (room : pOffs + 8 ≤ st.binary.length) (enough : rOffs - st.ptr < fuel)
    (fueled : 0 < fuel) :
    ∃ good last, maskLoop desired bOffs pOffs rOffs fuel st = some (good, last) := by
  induction fuel generalizing st with
  | zero => omega
  | succ fuel ih =>
    rw [maskLoop]
    by_cases more : st.ptr < rOffs
    · rw [if_pos more]
      obtain ⟨good,next,step,behind⟩ := maskStep_inside desired start low more gap room
      have length := maskStep_length step
      rw [step,bind_eq_bind,bind_some]
      cases good with
      | true => exact ih (by omega) (by omega) (by omega) (by omega)
      | false => exact ⟨false,next,rfl⟩
    · rw [if_neg more]
      exact ⟨true,st,rfl⟩
private theorem maskEntries_inside (desired : Option Int) (low : 0 ≤ rOffs) (gap : rOffs + 12 = pOffs)
    (room : pOffs + 8 = binary.length) : ∃ masked, maskEntries binary desired pOffs rOffs = some masked := by
  obtain ⟨blobSize,found⟩ : ∃ r, slice binary (rOffs + 8) 4 = some r := slice_inside (by omega) (by omega)
  simp only [maskEntries,found,bind_eq_bind,bind_some]
  split
  · exact ⟨_,rfl⟩
  rename_i start
  generalize wrap 32 (rOffs - leVal blobSize) = bOffs at start ⊢
  obtain ⟨good,last,run⟩ : ∃ good last, maskLoop desired bOffs pOffs rOffs (binary.length + 1)
      ⟨binary,bOffs,0,0,desired.getD 0,false,false⟩ = some (good,last) :=
    maskLoop_inside desired (Int.not_lt.mp start) (Int.le_refl _) gap (by dsimp only; omega) (by dsimp only; omega)
      (by omega)
  rw [run,bind_some]
  split
  · exact ⟨_,rfl⟩
  split
  · exact ⟨_,rfl⟩
  split
  · exact ⟨_,rfl⟩
  · exact ⟨_,rfl⟩

/-- Whatever a binary holds, a call returns, and has touched nothing outside of the binary. -/
theorem masking_stays_inside (binary : Bytes) (small : binary.length < 2 ^ 31) (desired : Option Int) :
    ∃ masked, retouchMaskData binary binary.length desired = some masked := by
  have prelink : wrap 32 ((binary.length : Int) - prelinkInfoSize) = binary.length - 8 :=
    wrap_small (by unfold prelinkInfoSize; omega) (by unfold prelinkInfoSize; omega)
  have retouch : wrap 32 ((binary.length : Int) - 8 - retouchInfoSize) = binary.length - 20 := by
    unfold retouchInfoSize
    rw [wrap_small (by omega) (by omega)]
    omega
  simp only [retouchMaskData, prelink, retouch]
  split
  · exact ⟨_, rfl⟩
  rename_i room
  obtain ⟨pTag, found⟩ : ∃ r, slice binary ((binary.length : Int) - 8 + 4) 4 = some r :=
    slice_inside (by omega) (by omega)
  rw [found, Option.bind_eq_bind, Option.bind_some]
  split
  · exact ⟨_, rfl⟩
  obtain ⟨rTag, found⟩ : ∃ r, slice binary ((binary.length : Int) - 20) 8 = some r :=
    slice_inside (by omega) (by omega)
  rw [found, Option.bind_some]
  split
  · exact ⟨_, rfl⟩
  · exact maskEntries_inside desired (by omega) (by omega) (by omega)

end Inside

/-- A binary of no more than its trailers, whose list would be longer than any binary. -/
def endlessList : Bytes := retouchTag ++ [255, 255, 255, 255] ++ [0, 0, 0, 0] ++ prelinkTag
theorem endlessList_stays_inside : ∃ masked, retouchMaskData endlessList endlessList.length (some 4096) = some masked :=
  masking_stays_inside endlessList (by decide) (some 4096)

/-! ## Inference -/

section Inference
variable {bOffs pOffs rOffs d : Int}

def Disjoint (pOffs : Int) (a b : Entry) : Prop :=
  target pOffs a + 4 ≤ target pOffs b ∨ target pOffs b + 4 ≤ target pOffs a

theorem entriesFrom_end {list : Bytes} {fuel : Nat} {ptr offsPrev : Int} {contPrev : Nat} (done : ¬ ptr < rOffs) :
    entriesFrom list bOffs rOffs (fuel + 1) ptr offsPrev contPrev = [] := by
  rw [entriesFrom,if_neg done]
private theorem holds_of_uncovered {a b : Bytes} {e : Entry} {es : List Entry} (holds : Holds d pOffs a e)
    (length : b.length = a.length) (same : ∀ i, ¬ Covers pOffs es i → b[i]? = a[i]?)
    (disjoint : ∀ other ∈ es, Disjoint pOffs e other) : Holds d pOffs b e := by
  have low := (slice_some holds).1
  unfold Holds at holds ⊢
  rw [← holds]
  obtain ⟨k,place⟩ : ∃ k : Nat, target pOffs e = k := ⟨(target pOffs e).toNat,by omega⟩
  rw [place]
  refine slice_congr length fun i above below => same i ?_
  rintro ⟨other,member,covers⟩
  have apart := disjoint other member
  unfold Disjoint at apart
  omega

private theorem maskLoop_holds (list : Bytes) (gap : rOffs + 8 ≤ pOffs) (fuel : Nat) (st : MaskState)
    (same : SameList bOffs pOffs list st.binary) (low : bOffs ≤ st.ptr)
    (apart : ∀ e ∈ entriesFrom list bOffs rOffs fuel st.ptr st.offsPrev st.contPrev, Apart bOffs e)
    (disjoint : (entriesFrom list bOffs rOffs fuel st.ptr st.offsPrev st.contPrev).Pairwise (Disjoint pOffs))
    {last : MaskState} (run : maskLoop (some d) bOffs pOffs rOffs fuel st = some (true, last)) :
    ∀ e ∈ entriesFrom list bOffs rOffs fuel st.ptr st.offsPrev st.contPrev, Holds d pOffs last.binary e := by
  induction fuel generalizing st with
  | zero => cases run
  | succ fuel ih =>
    by_cases more : st.ptr < rOffs
    swap
    · simp [entriesFrom_end more]
    obtain ⟨wrong,-⟩ | ⟨e,binary,found,accepted,written,run⟩ := maskLoop_round gap same low more run
    · cases wrong
    rw [entriesFrom_cons more found accepted] at apart disjoint ⊢
    obtain ⟨first,rest⟩ := pairwise_cons.mp disjoint
    have later : ∀ other ∈ _, Apart bOffs other := fun other member => apart other (mem_cons_of_mem _ member)
    have kept := same.trans (setSlice_sameList (apart e (by simp)) (by simp) written)
    have next : bOffs ≤ (advance d e st binary).ptr := by
      simp only [advance]
      omega
    obtain ⟨_,outside⟩ := maskLoop_keeps list gap fuel (advance d e st binary) kept next later run
    intro other member
    rcases mem_cons.mp member with rfl | member
    · exact holds_of_uncovered (holds_setSlice written) (maskLoop_length run) outside first
    · exact ih (advance d e st binary) kept next later rest run other member

/-- What a run that infers an offset has found. -/
structure Inferred (d : Int) (es : List Entry) (st last : MaskState) : Prop where
  binary : last.binary = st.binary
  fine : last.mismatch = false
  candidate : es ≠ [] ∨ st.offsetSet = true → last.candidate = wrap 32 d

private theorem maskLoop_infers (list : Bytes) (gap : rOffs + 8 ≤ pOffs) (fuel : Nat) (st st' : MaskState)
    (same : SameList bOffs pOffs list st.binary) (same' : SameList bOffs pOffs list st'.binary) (low : bOffs ≤ st.ptr)
    (place : st'.ptr = st.ptr ∧ st'.offsPrev = st.offsPrev ∧ st'.contPrev = st.contPrev) (fine : st'.mismatch = false)
    (agreed : st'.offsetSet = true → st'.candidate = wrap 32 d)
    (apart : ∀ e ∈ entriesFrom list bOffs rOffs fuel st.ptr st.offsPrev st.contPrev, Apart bOffs e)
    (holds : ∀ e ∈ entriesFrom list bOffs rOffs fuel st.ptr st.offsPrev st.contPrev, Holds d pOffs st'.binary e)
    {last : MaskState} (run : maskLoop (some d) bOffs pOffs rOffs fuel st = some (true, last)) :
    ∃ last', maskLoop none bOffs pOffs rOffs fuel st' = some (true, last') ∧ last'.ptr = last.ptr ∧
      Inferred d (entriesFrom list bOffs rOffs fuel st.ptr st.offsPrev st.contPrev) st' last' := by
  obtain ⟨atPtr,atOffs,atCont⟩ := place
  induction fuel generalizing st st' with
  | zero => cases run
  | succ fuel ih =>
    rw [maskLoop,atPtr]
    by_cases more : st.ptr < rOffs
    swap
    · rw [maskLoop,if_neg more] at run
      cases run
      rw [if_neg more,entriesFrom_end more]
      exact ⟨st',rfl,atPtr,rfl,fine,fun either => agreed (either.resolve_left fun none => none rfl)⟩
    rw [if_pos more]
    obtain ⟨wrong,-⟩ | ⟨e,binary,found,accepted,written,run⟩ := maskLoop_round gap same low more run
    · cases wrong
    rw [entriesFrom_cons more found accepted] at apart holds ⊢
    have found' : entryAt st'.binary st'.ptr st'.offsPrev st'.contPrev = some e := by
      rw [atPtr,atOffs,atCont]
      exact (entryAt_congr same' low (by omega) st.offsPrev st.contPrev).symm.trans found
    rw [maskStep_holding found' accepted rfl (holds e (by simp))]
    have next := ih (advance d e st binary) (advance d e st' st'.binary)
      (same.trans (setSlice_sameList (apart e (by simp)) (by simp) written)) same' (by simp only [advance]; omega)
      ?_ ?_ (fun other member => apart other (mem_cons_of_mem _ member))
      (fun other member => holds other (mem_cons_of_mem _ member)) run (by simp only [advance,atPtr]) rfl rfl
    · obtain ⟨last',loops,place,result⟩ := next
      exact ⟨last',loops,place,result.binary,result.fine,fun _ => result.candidate (.inr rfl)⟩
    · simp only [advance,inferred_eq,fine]
      split
      · rename_i set
        simp [agreed set]
      · rfl
    · intro _
      simp only [advance,inferred_eq]
      split
      · exact agreed ‹_›
      · rfl

theorem maskEntries_inferred {binary blobSize : Bytes} {last : MaskState}
    (found : slice binary (rOffs + 8) 4 = some blobSize) (start : wrap 32 (rOffs - leVal blobSize) = bOffs)
    (inside : ¬ bOffs < 0) (run : maskLoop none bOffs pOffs rOffs (binary.length + 1)
      ⟨binary,bOffs,0,0,0,false,false⟩ = some (true, last)) (near : last.ptr ≤ rOffs)
    (fine : last.mismatch = false) :
    maskEntries binary none pOffs rOffs = some ⟨.matched,last.binary,last.candidate⟩ := by
  simp only [maskEntries,found,bind_eq_bind,bind_some,start,if_neg inside,getD_none]
  rw [run,bind_some]
  dsimp only
  rw [if_neg (by simp),if_neg (by omega),if_neg (by simp [fine])]

/-- A call that infers finds exactly the offset that was written, and changes nothing, when the words
    are apart from each other and from the list. -/
theorem written_offset_inferred {binary : Bytes} {binarySize d bOffs : Int} {masked : Masked}
    (starts : ListStarts binary binarySize bOffs) (entries : listed binary binarySize bOffs ≠ [])
    (before : ∀ e ∈ listed binary binarySize bOffs, Apart bOffs e)
    (disjoint : (listed binary binarySize bOffs).Pairwise (Disjoint (prelinkAt binarySize)))
    (low : -2 ^ 31 ≤ d) (high : d < 2 ^ 31) (first : retouchMaskData binary binarySize (some d) = some masked)
    (matched : masked.code = .matched) :
    retouchMaskData masked.binary binarySize none = some ⟨.matched, masked.binary, d⟩ := by
  obtain ⟨tagged, blobSize, found, start⟩ := starts
  have gap := tagged_gap tagged
  rw [retouchMaskData_tagged tagged] at first
  obtain ⟨blobSize', last, found', inside, run, near, same⟩ := maskEntries_matched first matched
  obtain rfl : blobSize = blobSize' := Option.some.inj (found.symm.trans found')
  rw [← start] at inside run
  rw [same]
  have below : bOffs < retouchAt binarySize := by
    by_contra behind
    exact entries (entriesFrom_end behind)
  have wide : retouchAt binarySize + 8 ≤ prelinkAt binarySize := by omega
  obtain ⟨kept, _⟩ := maskLoop_keeps binary wide (binary.length + 1) ⟨binary, bOffs, 0, 0, d, false, false⟩
    (.refl binary) (Int.le_refl bOffs) before run
  have holds := maskLoop_holds binary wide (binary.length + 1) ⟨binary, bOffs, 0, 0, d, false, false⟩ (.refl binary)
    (Int.le_refl bOffs) before disjoint run
  obtain ⟨last', loops, place, result⟩ := maskLoop_infers binary wide (binary.length + 1)
    ⟨binary, bOffs, 0, 0, d, false, false⟩ ⟨last.binary, bOffs, 0, 0, 0, false, false⟩ (.refl binary) kept
    (Int.le_refl bOffs) ⟨rfl, rfl, rfl⟩ rfl (by simp) before holds run
  have blob : slice last.binary (retouchAt binarySize + 8) 4 = some blobSize := by
    rw [← kept.slice (by omega) (.inl (by omega)), found]
  rw [kept.length] at loops
  rw [retouchMaskData_tagged (tagged_of_sameList tagged (by omega) kept),
    maskEntries_inferred blob start.symm inside loops (by omega) result.fine, result.binary,
    result.candidate (.inl entries)]
  exact congrArg (fun offset => some (Masked.mk .matched last.binary offset)) (wrap_small low high)

/-- A binary of 20 bytes of code with two words next to each other, the second one coded by its
    difference to the first, and the same binary moved by an offset of 5. -/
def twoWords (code : Bytes) : Bytes :=
  code ++ [0, 0, 0, 8, 0, 0, 0, 1, 0x80, 1] ++ retouchTag ++ [10, 0, 0, 0] ++ [0, 0, 0, 0] ++ prelinkTag
def stillCode : Bytes := List.replicate 20 0
def movedCode : Bytes := List.replicate 8 0 ++ [6, 0, 0, 0, 7, 0, 0, 0] ++ List.replicate 4 0

theorem movedCode_inferred :
    retouchMaskData (twoWords movedCode) 50 none = some ⟨.matched, twoWords movedCode, 5⟩ := by
  have starts : ListStarts (twoWords stillCode) 50 20 :=
    ⟨⟨by decide, by decide, by decide⟩, [10, 0, 0, 0], by decide, by decide⟩
  have entries : listed (twoWords stillCode) 50 20 = [⟨8, 8, 1⟩, ⟨2, 12, 2⟩] := by decide +kernel
  have first : retouchMaskData (twoWords stillCode) 50 (some 5) = some ⟨.matched, twoWords movedCode, 5⟩ := by
    decide +kernel
  refine written_offset_inferred starts ?_ ?_ ?_ (by decide) (by decide) first rfl
  · simp [entries]
  · intro e member
    refine .inr ?_
    rcases mem_pair.mp member with rfl | rfl <;> decide
  · exact pairwise_pair.mpr (.inl (by decide))

end Inference
end Recovery.RetouchInference
